import HornSyntax.Proofs.Attempts
import HornSyntax.Proofs.Renumbered
import Mathlib.Algebra.GroupWithZero.Nat

/-!
The chain of attempts on a text. Each attempt reads the text from a byte on, and
the first one reads the whole text. After a failure the next attempt begins
behind the first run of terminators at or after the error, if there is one and
more than white space follows it. A check reports the failures of this chain and
nothing else, so whatever holds of all chains holds of all reports.
-/

namespace HornSyntax

/-- An attempt that fails: the byte of the text where it begins, and its error. -/
structure FailedAttempt where
  start : Nat
  error : SyntaxError

namespace FailedAttempt

/-- The byte of the error in the whole text. -/
def offset (f : FailedAttempt) : Nat := f.start + f.error.offset

/-- The attempt on a text from its start on fails in this way, and the text goes
on with `tail` from the byte of the error on. -/
structure Occurs (f : FailedAttempt) (text tail : Text) : Prop where
  recognize_eq : ∃ rest, Text.dropBytes? f.start text = some rest ∧ recognize rest = .error f.error
  dropBytes?_eq : Text.dropBytes? f.offset text = some tail

/-- What a check reports of a failure under a number and a line. -/
def diagnostic (f : FailedAttempt) (index line : Nat) : Diagnostic where
  index := index
  line := line
  column := f.error.column
  offset := f.offset
  message := f.error.messageAt line

/-- What recovery puts down for an error, in which the number of the line is replaced. -/
theorem diagnose_eq (s : Recovery) (e : SyntaxError) :
    s.diagnose e =
      (⟨s.consumed, e⟩ : FailedAttempt).diagnostic (s.diagnostics.length + 1)
        (s.lineCount + e.line) := by
  rw [Recovery.diagnose, e.renumbered_eq_messageAt]
  rfl

/-- The lines of failures added up, each counted within its own attempt. -/
def lines (fs : List FailedAttempt) : Nat := (fs.map fun f => f.error.line).sum

/-- The reports of failures in a row after a number and a line. -/
def diagnosticsFrom (index line : Nat) : List FailedAttempt → List Diagnostic
  | [] => []
  | f :: fs =>
    f.diagnostic (index + 1) (line + f.error.line) ::
      diagnosticsFrom (index + 1) (line + f.error.line) fs

@[simp] theorem lines_nil : lines [] = 0 := rfl

@[simp] theorem lines_cons (f : FailedAttempt) (fs : List FailedAttempt) :
    lines (f :: fs) = f.error.line + lines fs := by
  simp [lines]

theorem getElem?_diagnosticsFrom (index line : Nat) (fs : List FailedAttempt) (k : Nat) :
    (diagnosticsFrom index line fs)[k]? =
      fs[k]?.map fun f => f.diagnostic (index + k + 1) (line + lines (fs.take (k + 1))) := by
  induction fs generalizing index line k with
  | nil => simp [diagnosticsFrom]
  | cons f fs ih =>
    cases k with
    | zero => simp [diagnosticsFrom]
    | succ k =>
      have hindex : index + 1 + k + 1 = index + (k + 1) + 1 := by omega
      simp only [diagnosticsFrom, List.getElem?_cons_succ, List.take_succ_cons, lines_cons]
      simp only [ih, hindex, Nat.add_assoc line]

theorem length_diagnosticsFrom (index line : Nat) (fs : List FailedAttempt) :
    (diagnosticsFrom index line fs).length = fs.length := by
  induction fs generalizing index line with
  | nil => rfl
  | cons f fs ih => rw [diagnosticsFrom, List.length_cons, List.length_cons, ih]

theorem diagnosticsFrom_eq_nil {index line : Nat} {fs : List FailedAttempt} :
    diagnosticsFrom index line fs = [] ↔ fs = [] := by
  cases fs <;> simp [diagnosticsFrom]

variable {f : FailedAttempt} {text tail : Text}

theorem Occurs.tail_eq (h : f.Occurs text tail) : tail = f.error.after := by
  obtain ⟨rest, hrest, herror⟩ := h.recognize_eq
  have htail := h.dropBytes?_eq
  rw [offset, Text.dropBytes?_add hrest, Recovery.dropBytes?_offset herror] at htail
  exact (Option.some.inj htail).symm

/-- The text before an attempt, the text that it read before its error, and the rest. -/
theorem Occurs.exists_before (h : f.Occurs text tail) :
    ∃ before, text = before ++ (f.error.before ++ tail) ∧ before.bytes = f.start := by
  obtain ⟨rest, hrest, herror⟩ := h.recognize_eq
  obtain ⟨before, rfl, hbefore⟩ := Text.dropBytes?_eq_some_iff.mp hrest
  obtain ⟨c, hat⟩ := exists_at_of_recognize herror
  refine ⟨before, ?_, hbefore⟩
  rw [h.tail_eq, ← hat.text_eq]

theorem Occurs.of_recognize {start : Nat} {rest : Text} {e : SyntaxError}
    (hrest : Text.dropBytes? start text = some rest) (herror : recognize rest = .error e) :
    Occurs ⟨start, e⟩ text e.after := by
  refine ⟨⟨rest, hrest, herror⟩, ?_⟩
  rw [offset, Text.dropBytes?_add hrest, Recovery.dropBytes?_offset herror]

/-- Behind the terminators after an error the rest of the text follows. -/
theorem Occurs.dropBytes?_cut {left dots rest : Text} (h : f.Occurs text tail)
    (hcut : tail.Cut left dots rest) :
    Text.dropBytes? (f.offset + Text.bytes (left ++ dots)) text = some rest :=
  hcut.dropBytes?_eq h.dropBytes?_eq

/-- An attempt fails in one way. -/
theorem Occurs.unique {start : Nat} {e e' : SyntaxError} {tail' : Text}
    (h : Occurs ⟨start, e⟩ text tail) (h' : Occurs ⟨start, e'⟩ text tail') :
    e' = e ∧ tail' = tail := by
  obtain ⟨rest, hrest, herror⟩ := h.recognize_eq
  obtain ⟨rest', hrest', herror'⟩ := h'.recognize_eq
  obtain rfl := Option.some.inj (hrest.symm.trans hrest')
  obtain rfl := Except.error.inj (herror.symm.trans herror')
  exact ⟨rfl, h'.tail_eq.trans h.tail_eq.symm⟩

/-- An attempt that fails does not succeed. -/
theorem Occurs.recognize_ne {rest : Text} (h : f.Occurs text tail)
    (hrest : Text.dropBytes? f.start text = some rest) : recognize rest ≠ .ok () := by
  obtain ⟨rest', hrest', herror⟩ := h.recognize_eq
  obtain rfl := Option.some.inj (hrest.symm.trans hrest')
  intro hok
  rw [hok] at herror
  cases herror

end FailedAttempt

/-- From a byte of the text on, these failures follow one another up to the end
of the run. It ends with an attempt that succeeds, or with a failure after which
there is no terminator or only white space behind the terminators. -/
inductive Attempts (text : Text) : Nat → List FailedAttempt → Prop
  | recognized {start : Nat} {rest : Text} (hrest : Text.dropBytes? start text = some rest)
      (hok : recognize rest = .ok ()) : Attempts text start []
  | unterminated {start : Nat} {e : SyntaxError} {tail : Text}
      (hoccurs : FailedAttempt.Occurs ⟨start, e⟩ text tail) (hdot : '.' ∉ tail) :
      Attempts text start [⟨start, e⟩]
  | white {start : Nat} {e : SyntaxError} {tail left dots rest : Text}
      (hoccurs : FailedAttempt.Occurs ⟨start, e⟩ text tail) (hcut : tail.Cut left dots rest)
      (hwhite : rest.all CharacterClass.isWhite = true) : Attempts text start [⟨start, e⟩]
  | resumed {start : Nat} {e : SyntaxError} {tail left dots rest : Text} {fs : List FailedAttempt}
      (hoccurs : FailedAttempt.Occurs ⟨start, e⟩ text tail) (hcut : tail.Cut left dots rest)
      (hmore : rest.all CharacterClass.isWhite = false)
      (hnext : Attempts text (start + e.offset + Text.bytes (left ++ dots)) fs) :
      Attempts text start (⟨start, e⟩ :: fs)

namespace Attempts

variable {text rest : Text} {start : Nat} {fs : List FailedAttempt}

/-- There is a chain of attempts from every character of a text on, since each
failure that is not the last one leaves a terminator behind. -/
theorem exists_of_dropBytes? (hrest : Text.dropBytes? start text = some rest) :
    ∃ fs, Attempts text start fs := by
  induction hcount : rest.count '.' using Nat.strongRecOn generalizing start rest with
  | ind n ih =>
    cases hresult : recognize rest with
    | ok u => exact ⟨[], .recognized hrest hresult⟩
    | error e =>
      have hoccurs := FailedAttempt.Occurs.of_recognize hrest hresult
      by_cases hdot : '.' ∈ e.after
      · obtain ⟨left, dots, hcut⟩ := Text.exists_cut hdot
        cases hwhite : (Recovery.afterTerminators e.after).all CharacterClass.isWhite with
        | true => exact ⟨_, .white hoccurs hcut hwhite⟩
        | false =>
          obtain ⟨c, hat⟩ := exists_at_of_recognize hresult
          have hless : (Recovery.afterTerminators e.after).count '.' < n := by
            have hlt := Recovery.count_afterTerminators_lt hdot
            rw [hat.text_eq, List.count_append] at hcount
            omega
          obtain ⟨fs, hfs⟩ := ih _ hless (hoccurs.dropBytes?_cut hcut) rfl
          exact ⟨_, .resumed hoccurs hcut hwhite hfs⟩
      · exact ⟨_, .unterminated hoccurs hdot⟩

/-- The engine goes along the chain and puts its failures down. -/
theorem exists_ends (h : Attempts text start fs) {s : Recovery} (hs : s.consumed = start) :
    ∃ s', Recovery.Ends text .scanning s s' ∧ s'.diagnostics =
      s.diagnostics ++ FailedAttempt.diagnosticsFrom s.diagnostics.length s.lineCount fs := by
  induction h generalizing s with
  | @recognized start rest hrest hok =>
    subst hs
    exact ⟨s, .of_ok hrest hok, by simp [FailedAttempt.diagnosticsFrom]⟩
  | @unterminated start e tail hoccurs hdot =>
    subst hs
    obtain ⟨rest, hrest, herror⟩ := hoccurs.recognize_eq
    obtain rfl := hoccurs.tail_eq
    refine ⟨_, .of_notMem hrest herror hdot, ?_⟩
    exact congrArg (s.diagnostics ++ [·]) (FailedAttempt.diagnose_eq s e)
  | @white start e tail left dots rest' hoccurs hcut hwhite =>
    subst hs
    obtain ⟨rest, hrest, herror⟩ := hoccurs.recognize_eq
    obtain rfl := hoccurs.tail_eq
    rw [← hcut.afterTerminators_eq] at hwhite
    refine ⟨_, .of_white hrest herror hcut.mem hwhite, ?_⟩
    exact congrArg (s.diagnostics ++ [·]) (FailedAttempt.diagnose_eq s e)
  | @resumed start e tail left dots rest' fs hoccurs hcut hmore _ ih =>
    subst hs
    obtain ⟨rest, hrest, herror⟩ := hoccurs.recognize_eq
    obtain rfl := hoccurs.tail_eq
    rw [← hcut.afterTerminators_eq] at hmore
    have hpast : (s.past e).consumed = s.consumed + e.offset + Text.bytes (left ++ dots) := by
      rw [Recovery.past_consumed, hcut.throughTerminators_eq]
    obtain ⟨s', hends, hdiagnostics⟩ := ih hpast
    refine ⟨s', .of_error hrest herror hcut.mem hmore hends, ?_⟩
    rw [hdiagnostics, Recovery.past_diagnostics, FailedAttempt.diagnose_eq, List.append_assoc,
      List.length_append]
    rfl

/-- The report of a check lists the failures of the chain from the first byte on. -/
theorem diagnostics_check (h : Attempts text 0 fs) (fileIndex : Nat) :
    (check text fileIndex).diagnostics = FailedAttempt.diagnosticsFrom 0 0 fs := by
  obtain ⟨s, hends, hdiagnostics⟩ := h.exists_ends (s := Recovery.initial) rfl
  show (Recovery.finish text).diagnostics = _
  rw [Recovery.finish_of_ends hends, hdiagnostics]
  rfl

theorem exists_check (text : Text) : ∃ fs, Attempts text 0 fs :=
  exists_of_dropBytes? (Text.dropBytes?_zero text)

/-- Every failure of a chain is one of the text. -/
theorem occurs_of_mem (h : Attempts text start fs) :
    ∀ f ∈ fs, ∃ tail, f.Occurs text tail := by
  induction h with
  | recognized => simp
  | unterminated hoccurs => simpa using ⟨_, hoccurs⟩
  | white hoccurs => simpa using ⟨_, hoccurs⟩
  | resumed hoccurs _ _ _ ih => exact List.forall_mem_cons.mpr ⟨⟨_, hoccurs⟩, ih⟩

theorem start_eq {f : FailedAttempt} (h : Attempts text start (f :: fs)) : f.start = start := by
  cases h <;> rfl

/-- There is no failure exactly where the first attempt succeeds. -/
theorem eq_nil_iff (h : Attempts text start fs) (hrest : Text.dropBytes? start text = some rest) :
    fs = [] ↔ recognize rest = .ok () := by
  cases h with
  | recognized hrest' hok =>
    obtain rfl := Option.some.inj (hrest.symm.trans hrest')
    simp [hok]
  | unterminated hoccurs hdot => simp [hoccurs.recognize_ne hrest]
  | white hoccurs hcut hwhite => simp [hoccurs.recognize_ne hrest]
  | resumed hoccurs hcut hmore hnext => simp [hoccurs.recognize_ne hrest]

end Attempts

/-- Reports with the same number of diagnostics are both valid or both not. -/
theorem FileReport.valid_eq_of_length {r r' : FileReport}
    (h : r.diagnostics.length = r'.diagnostics.length) : r.valid = r'.valid := by
  rw [Bool.eq_iff_iff, valid, valid, List.isEmpty_iff, List.isEmpty_iff,
    ← List.length_eq_zero_iff, ← List.length_eq_zero_iff, h]

/-- A check is the chain of attempts on its text: it reports one diagnostic for
each failure, under the number of the failure and the lines of all failures up
to it, and the text is valid exactly where it is recognized. -/
theorem check_attempts (text : Text) (fileIndex : Nat) :
    (∃ fs, Attempts text 0 fs) ∧
      ∀ fs, Attempts text 0 fs →
        (check text fileIndex).fileIndex = fileIndex ∧
          (∀ k, (check text fileIndex).diagnostics[k]? =
            fs[k]?.map fun f : FailedAttempt =>
              f.diagnostic (k + 1) (FailedAttempt.lines (fs.take (k + 1)))) ∧
          ((check text fileIndex).valid = true ↔ (check text fileIndex).diagnostics = []) ∧
          ((check text fileIndex).valid = true ↔ recognize text = .ok ()) := by
  have hvalid : (check text fileIndex).valid = true ↔ (check text fileIndex).diagnostics = [] :=
    List.isEmpty_iff
  refine ⟨Attempts.exists_check text, ?_⟩
  intro fs h
  have hdiagnostics := h.diagnostics_check fileIndex
  refine ⟨rfl, ?_, hvalid, ?_⟩
  · intro k
    rw [hdiagnostics, FailedAttempt.getElem?_diagnosticsFrom]
    simp
  · rw [hvalid, hdiagnostics, FailedAttempt.diagnosticsFrom_eq_nil]
    exact h.eq_nil_iff (Text.dropBytes?_zero text)

end HornSyntax
