import HornSyntax.Proofs.Attempts

/-!
The states that recovery can reach. What has been skipped is always a part of
the text up to a character, and the error to recover from lies in the rest. The
lines counted so far are bounded by the bytes that have been passed, since every
attempt costs a terminator and every further line a line feed. Hence no sum that
a step forms goes beyond the length of the text and one.
-/

namespace HornSyntax

namespace Recovery

variable {text rest tail : Text} {offset : Nat} {phase : Phase} {s : Recovery}

/-- What a phase says of its state. While an error is being recovered from, the
lines up to it have been counted already. -/
inductive Sound (text : Text) : Phase → Recovery → Prop
  | scanning {rest : Text} {s : Recovery} (hrest : s.remaining? text = some rest)
      (hlength : s.diagnostics.length ≤ s.lineCount) (hline : s.lineCount ≤ s.consumed) :
      Sound text .scanning s
  | resynchronizing {rest tail : Text} {offset : Nat} {s : Recovery}
      (hrest : s.remaining? text = some rest) (htail : Text.dropBytes? offset rest = some tail)
      (hlength : s.diagnostics.length ≤ s.lineCount)
      (hline : s.lineCount ≤ s.consumed + offset + 1) : Sound text (.resynchronizing offset) s
  | done {rest : Text} {s : Recovery} (hrest : s.remaining? text = some rest) : Sound text .done s

theorem Sound.exists_remaining (h : Sound text phase s) :
    ∃ rest, s.remaining? text = some rest := by
  cases h with
  | scanning hrest => exact ⟨_, hrest⟩
  | resynchronizing hrest => exact ⟨_, hrest⟩
  | done hrest => exact ⟨_, hrest⟩

theorem sound_initial (text : Text) : Sound text .scanning initial := by
  have hrest : initial.remaining? text = some text := Text.dropBytes?_zero text
  exact .scanning hrest (Nat.le_refl 0) (Nat.le_refl 0)

/-- An attempt counts at most one line more than it reads bytes. -/
theorem Sound.noted {e : SyntaxError} (hrest : s.remaining? text = some rest)
    (herror : recognize rest = .error e) (hlength : s.diagnostics.length ≤ s.lineCount)
    (hline : s.lineCount ≤ s.consumed) :
    Sound text (.resynchronizing e.offset) (s.noted e) := by
  have hfeeds := Text.count_le_bytes e.before '\n'
  have hnoted : (s.noted e).remaining? text = some rest := hrest
  apply Sound.resynchronizing hnoted (dropBytes?_offset herror)
  · simp only [Recovery.noted, List.length_append, List.length_singleton, SyntaxError.line]
    omega
  · simp only [Recovery.noted, SyntaxError.line, SyntaxError.offset]
    omega

/-- The terminators that are skipped pay for the line of the attempt before them. -/
theorem Sound.resumed (hrest : s.remaining? text = some rest)
    (htail : Text.dropBytes? offset rest = some tail) (hdot : '.' ∈ tail)
    (hlength : s.diagnostics.length ≤ s.lineCount)
    (hline : s.lineCount ≤ s.consumed + offset + 1) :
    Sound text .scanning
      (s.resumed (s.consumed + offset + (throughTerminators tail).bytes)) := by
  have hdots := Text.count_le_bytes (throughTerminators tail) '.'
  have hpos := List.count_pos_iff.mpr (mem_throughTerminators hdot)
  have hresumed : (s.resumed (s.consumed + offset + (throughTerminators tail).bytes)).remaining?
      text = some (afterTerminators tail) := remaining?_resumed hrest htail
  apply Sound.scanning hresumed hlength
  simp only [Recovery.resumed]
  omega

theorem Sound.step (h : Sound text phase s) :
    Sound text (Recovery.step text phase s).1 (Recovery.step text phase s).2 := by
  cases h with
  | @scanning rest _ hrest hlength hline =>
    cases hresult : recognize rest with
    | ok u =>
      rw [step_scanning_of_ok hrest hresult]
      exact .done hrest
    | error e =>
      rw [step_scanning hrest hresult]
      exact .noted hrest hresult hlength hline
  | @resynchronizing rest tail offset _ hrest htail hlength hline =>
    by_cases hdot : '.' ∈ tail
    · cases hwhite : (afterTerminators tail).all CharacterClass.isWhite with
      | true =>
        rw [step_resynchronizing_of_white hrest htail hdot hwhite]
        have hresumed := remaining?_resumed hrest htail
        exact .done hresumed
      | false =>
        rw [step_resynchronizing hrest htail hdot hwhite]
        exact .resumed hrest htail hdot hlength hline
    · rw [step_resynchronizing_of_notMem hrest htail hdot]
      exact .done hrest
  | done hrest => exact .done hrest

theorem Sound.run (h : Sound text phase s) (fuel : Nat) :
    Sound text (Recovery.run text fuel phase s).1 (Recovery.run text fuel phase s).2 := by
  induction fuel generalizing phase s with
  | zero => exact h
  | succ fuel ih =>
    by_cases hdone : phase = .done
    · subst hdone
      rw [run_done]
      exact h
    · rw [run_succ hdone]
      exact ih h.step

/-- Every state that recovery reaches from the beginning of a text is sound. -/
theorem sound_run (text : Text) (fuel : Nat) :
    Sound text (run text fuel .scanning initial).1 (run text fuel .scanning initial).2 :=
  (sound_initial text).run fuel

/-- The sums that a step forms of offsets, lines and numbers, in their order. -/
def sums (text : Text) : Phase → Recovery → List Nat
  | .scanning, s =>
    match (s.remaining? text).map recognize with
    | some (.error e) => [s.lineCount + e.line, s.diagnostics.length + 1, s.consumed + e.offset]
    | _ => []
  | .resynchronizing offset, s =>
    match (s.remaining? text).bind (Text.dropBytes? offset) with
    | some tail =>
      if tail.contains '.' then
        let found := Text.bytes (tail.takeWhile (· != '.'))
        let cursor := offset + (throughTerminators tail).bytes
        [offset + found, cursor, s.consumed + cursor]
      else [s.consumed + offset]
    | none => [s.consumed + offset]
  | .done, _ => []

/-- Whatever a step changes in a counter or puts down in a diagnostic is one of
its sums, the column and the message apart. -/
theorem step_mem_sums (text : Text) (phase : Phase) (s : Recovery) :
    (step text phase s).2.consumed ∈ s.consumed :: sums text phase s ∧
      (step text phase s).2.lineCount ∈ s.lineCount :: sums text phase s ∧
      ∀ d ∈ (step text phase s).2.diagnostics,
        d ∈ s.diagnostics ∨ ∀ n ∈ [d.line, d.index, d.offset], n ∈ sums text phase s := by
  cases phase with
  | done => simp +contextual [step]
  | scanning =>
    cases hresult : (s.remaining? text).map recognize with
    | none => simp +contextual [step, scan, hresult]
    | some result =>
      cases result with
      | ok u => simp +contextual [step, scan, hresult]
      | error e =>
        refine ⟨by simp [step, scan, hresult], by simp [step, scan, sums, hresult, diagnose], ?_⟩
        intro d hd
        simp only [step, scan, hresult, List.mem_append, List.mem_singleton] at hd
        apply hd.imp_right
        intro heq n hn
        simpa [sums, hresult, heq, diagnose] using hn
  | resynchronizing offset =>
    cases htail : (s.remaining? text).bind (Text.dropBytes? offset) with
    | none => simp +contextual [step, resynchronize, htail]
    | some tail =>
      by_cases hdot : '.' ∈ tail
      · simp +contextual [step, resynchronize, sums, htail, hdot, Nat.add_assoc]
      · simp +contextual [step, resynchronize, htail, hdot]

/-- No sum exceeds the bytes of the text by more than one. -/
theorem Sound.sum_le (h : Sound text phase s) :
    ∀ sum ∈ sums text phase s, sum ≤ text.bytes + 1 := by
  cases h with
  | @scanning rest _ hrest hlength hline =>
    obtain ⟨skipped, htext, hskipped⟩ := remaining?_eq_some_iff.mp hrest
    have hbytes := congrArg Text.bytes htext
    rw [Text.bytes_append] at hbytes
    cases hresult : recognize rest with
    | ok u => simp [sums, hrest, hresult]
    | error e =>
      obtain ⟨c, hat⟩ := exists_at_of_recognize hresult
      have hread := congrArg Text.bytes hat.text_eq
      rw [Text.bytes_append] at hread
      have hfeeds := Text.count_le_bytes e.before '\n'
      intro sum hsum
      simp only [sums, hrest, hresult, Option.map_some, List.mem_cons, List.not_mem_nil, or_false,
        SyntaxError.line, SyntaxError.offset] at hsum
      omega
  | @resynchronizing rest tail offset _ hrest htail hlength hline =>
    obtain ⟨skipped, htext, hskipped⟩ := remaining?_eq_some_iff.mp hrest
    obtain ⟨before, hbefore, hoffset⟩ := Text.dropBytes?_eq_some_iff.mp htail
    have hbytes := congrArg Text.bytes htext
    rw [hbefore, Text.bytes_append, Text.bytes_append] at hbytes
    have hthrough := congrArg Text.bytes (throughTerminators_append tail)
    rw [Text.bytes_append] at hthrough
    have hfound : Text.bytes (tail.takeWhile (· != '.')) ≤ (throughTerminators tail).bytes := by
      rw [throughTerminators, Text.bytes_append]
      omega
    intro sum hsum
    by_cases hdot : '.' ∈ tail
    · simp only [sums, hrest, htail, Option.bind_some, List.contains_iff_mem, hdot, if_true,
        List.mem_cons, List.not_mem_nil, or_false] at hsum
      omega
    · simp only [sums, hrest, htail, Option.bind_some, List.contains_iff_mem, hdot, if_false,
        List.mem_cons, List.not_mem_nil, or_false] at hsum
      omega
  | done hrest => simp [sums]

end Recovery

end HornSyntax
