import HornSyntax.Proofs.Acceptance
import HornSyntax.Proofs.Chain
import Mathlib

/-!
What recovery leaves unread. Which characters count as nothing is taken as a
parameter of the chain of attempts: behind the terminators after an error the
chain stops where only such characters follow. A check stops at white space of
any kind, which is more than the blanks that the grammar skips. A chain that
stops only at blanks has the same failures, and one more at its end where the
text goes on with white space that is not blank.
-/

namespace HornSyntax

open CharacterClass

theorem Spelled.mem_of_mem_text {ts : List Token} {text : Text} {t : Token} {c : Char}
    (h : Spelled ts text) (ht : t ∈ ts) (hc : c ∈ t.text) : c ∈ text := by
  induction h with
  | nil => cases ht
  | @cons gap rest t' ts _ _ ih =>
    rcases List.mem_cons.mp ht with rfl | hmore
    · exact List.mem_append_right gap (List.mem_append_left rest hc)
    · exact List.mem_append_right gap (List.mem_append_right t'.text (ih hmore))

/-- The query of a program ends with a dot. -/
theorem dot_mem_of_recognize {text : Text} (h : recognize text = .ok ()) : '.' ∈ text := by
  obtain ⟨p, -, hspelled⟩ := Program.exists_spelled_of_recognize h
  have hdot : Token.dot ∈ p.tokens := by
    simp [Program.tokens, Program.queryTokens]
  exact hspelled.mem_of_mem_text hdot List.mem_cons_self

/-- From a byte of the text on, these failures follow one another, up to an
attempt that succeeds or a failure after which there is no terminator or nothing
but idle characters behind the terminators. -/
inductive AttemptsUntil (idle : Char → Bool) (text : Text) : Nat → List FailedAttempt → Prop
  | recognized {start : Nat} {rest : Text} (hrest : Text.dropBytes? start text = some rest)
      (hok : recognize rest = .ok ()) : AttemptsUntil idle text start []
  | unterminated {start : Nat} {e : SyntaxError} {tail : Text}
      (hoccurs : FailedAttempt.Occurs ⟨start, e⟩ text tail) (hdot : '.' ∉ tail) :
      AttemptsUntil idle text start [⟨start, e⟩]
  | stopped {start : Nat} {e : SyntaxError} {tail left dots rest : Text}
      (hoccurs : FailedAttempt.Occurs ⟨start, e⟩ text tail) (hcut : tail.Cut left dots rest)
      (hidle : rest.all idle = true) : AttemptsUntil idle text start [⟨start, e⟩]
  | resumed {start : Nat} {e : SyntaxError} {tail left dots rest : Text} {fs : List FailedAttempt}
      (hoccurs : FailedAttempt.Occurs ⟨start, e⟩ text tail) (hcut : tail.Cut left dots rest)
      (hmore : rest.all idle = false)
      (hnext : AttemptsUntil idle text (start + e.offset + Text.bytes (left ++ dots)) fs) :
      AttemptsUntil idle text start (⟨start, e⟩ :: fs)

/-- The chain of a check stops at white space. -/
theorem attemptsUntil_isWhite_iff {text : Text} {start : Nat} {fs : List FailedAttempt} :
    AttemptsUntil isWhite text start fs ↔ Attempts text start fs := by
  constructor
  · intro h
    induction h with
    | recognized hrest hok => exact .recognized hrest hok
    | unterminated hoccurs hdot => exact .unterminated hoccurs hdot
    | stopped hoccurs hcut hidle => exact .white hoccurs hcut hidle
    | resumed hoccurs hcut hmore _ ih => exact .resumed hoccurs hcut hmore ih
  · intro h
    induction h with
    | recognized hrest hok => exact .recognized hrest hok
    | unterminated hoccurs hdot => exact .unterminated hoccurs hdot
    | white hoccurs hcut hwhite => exact .stopped hoccurs hcut hwhite
    | resumed hoccurs hcut hmore _ ih => exact .resumed hoccurs hcut hmore ih

namespace AttemptsUntil

variable {idle strict : Char → Bool} {text tail left dots rest : Text} {start k : Nat}
  {f : FailedAttempt} {fs gs : List FailedAttempt}

/-- What follows an attempt that fails is decided by the text behind its error. -/
theorem cases_of_occurs {e : SyntaxError} (h : AttemptsUntil idle text start fs)
    (hoccurs : FailedAttempt.Occurs ⟨start, e⟩ text tail) :
    '.' ∉ tail ∧ fs = [⟨start, e⟩] ∨
      ∃ left dots rest, tail.Cut left dots rest ∧
        (rest.all idle = true ∧ fs = [⟨start, e⟩] ∨
          rest.all idle = false ∧ ∃ gs, fs = ⟨start, e⟩ :: gs ∧
            AttemptsUntil idle text (start + e.offset + Text.bytes (left ++ dots)) gs) := by
  cases h with
  | recognized hrest hok => exact absurd hok (hoccurs.recognize_ne hrest)
  | unterminated hoccurs' hdot =>
    obtain ⟨rfl, rfl⟩ := hoccurs.unique hoccurs'
    exact Or.inl ⟨hdot, rfl⟩
  | stopped hoccurs' hcut hidle =>
    obtain ⟨rfl, rfl⟩ := hoccurs.unique hoccurs'
    exact Or.inr ⟨_, _, _, hcut, Or.inl ⟨hidle, rfl⟩⟩
  | resumed hoccurs' hcut hmore hnext =>
    obtain ⟨rfl, rfl⟩ := hoccurs.unique hoccurs'
    exact Or.inr ⟨_, _, _, hcut, Or.inr ⟨hmore, _, rfl, hnext⟩⟩

/-- Behind the first run of terminators after an error the chain stops or goes on. -/
theorem cases_of_cut {e : SyntaxError} (h : AttemptsUntil idle text start fs)
    (hoccurs : FailedAttempt.Occurs ⟨start, e⟩ text tail) (hcut : tail.Cut left dots rest) :
    rest.all idle = true ∧ fs = [⟨start, e⟩] ∨
      rest.all idle = false ∧ ∃ gs, fs = ⟨start, e⟩ :: gs ∧
        AttemptsUntil idle text (start + e.offset + Text.bytes (left ++ dots)) gs := by
  rcases h.cases_of_occurs hoccurs with ⟨hdot, -⟩ | ⟨left', dots', rest', hcut', hnext⟩
  · exact absurd hcut.mem hdot
  · obtain ⟨hthrough, rfl⟩ := hcut.unique hcut'
    rw [hthrough] at hnext
    exact hnext

theorem start_eq (h : AttemptsUntil idle text start (f :: fs)) : f.start = start := by
  cases h <;> rfl

/-- From a byte on there is one chain at most. -/
theorem unique (h : AttemptsUntil idle text start fs) (h' : AttemptsUntil idle text start gs) :
    gs = fs := by
  induction h generalizing gs with
  | recognized hrest hok =>
    cases h' with
    | recognized => rfl
    | unterminated hoccurs => exact absurd hok (hoccurs.recognize_ne hrest)
    | stopped hoccurs => exact absurd hok (hoccurs.recognize_ne hrest)
    | resumed hoccurs => exact absurd hok (hoccurs.recognize_ne hrest)
  | unterminated hoccurs hdot =>
    rcases h'.cases_of_occurs hoccurs with ⟨-, hgs⟩ | ⟨left, dots, rest, hcut, -⟩
    · exact hgs
    · exact absurd hcut.mem hdot
  | stopped hoccurs hcut hidle =>
    rcases h'.cases_of_cut hoccurs hcut with ⟨-, hgs⟩ | ⟨hmore, -⟩
    · exact hgs
    · rw [hidle] at hmore
      cases hmore
  | resumed hoccurs hcut hmore _ ih =>
    rcases h'.cases_of_cut hoccurs hcut with ⟨hidle, -⟩ | ⟨-, more, rfl, hnext⟩
    · rw [hmore] at hidle
      cases hidle
    · rw [ih hnext]

/-- After the first one no attempt is made where only idle characters are left. -/
theorem all_eq_false_of_mem_tail (h : AttemptsUntil idle text start fs) :
    ∀ f ∈ fs.tail, ∀ rest, Text.dropBytes? f.start text = some rest → rest.all idle = false := by
  induction h with
  | recognized | unterminated | stopped => simp
  | @resumed start e tail left dots rest fs hoccurs hcut hmore hnext ih =>
    intro f hf rest' hrest'
    cases fs with
    | nil => cases hf
    | cons g fs =>
      rcases List.mem_cons.mp hf with rfl | hlater
      · have hrest : Text.dropBytes? f.start text = some rest := by
          rw [hnext.start_eq]
          exact hoccurs.dropBytes?_cut hcut
        obtain rfl := Option.some.inj (hrest.symm.trans hrest')
        exact hmore
      · exact ih f hlater rest' hrest'

/-- Behind the terminators after each failure of the chain, the chain stops where
only idle characters are left, and otherwise goes on with what is left. -/
theorem drop_succ (h : AttemptsUntil idle text start fs) (hf : fs[k]? = some f)
    (htail : Text.dropBytes? f.offset text = some tail) (hcut : tail.Cut left dots rest) :
    rest.all idle = true ∧ fs.drop (k + 1) = [] ∨
      rest.all idle = false ∧
        AttemptsUntil idle text (f.offset + Text.bytes (left ++ dots)) (fs.drop (k + 1)) := by
  induction h generalizing k with
  | recognized => simp at hf
  | unterminated hoccurs hdot =>
    cases k with
    | zero =>
      obtain rfl := Option.some.inj hf
      obtain rfl := Option.some.inj (hoccurs.dropBytes?_eq.symm.trans htail)
      exact absurd hcut.mem hdot
    | succ k => simp at hf
  | stopped hoccurs hcut' hidle =>
    cases k with
    | zero =>
      obtain rfl := Option.some.inj hf
      obtain rfl := Option.some.inj (hoccurs.dropBytes?_eq.symm.trans htail)
      obtain ⟨-, rfl⟩ := hcut'.unique hcut
      exact Or.inl ⟨hidle, rfl⟩
    | succ k => simp at hf
  | resumed hoccurs hcut' hmore hnext ih =>
    cases k with
    | zero =>
      obtain rfl := Option.some.inj hf
      obtain rfl := Option.some.inj (hoccurs.dropBytes?_eq.symm.trans htail)
      obtain ⟨hthrough, rfl⟩ := hcut'.unique hcut
      rw [hthrough]
      exact Or.inr ⟨hmore, hnext⟩
    | succ k =>
      rw [List.getElem?_cons_succ] at hf
      exact ih hf

/-- The chain that stops at a narrower class of characters has the same failures,
or one more where only characters of the wider class are left: these hold no
terminator, so this attempt fails and nothing follows it. -/
theorem narrow (hdot : idle '.' = false) (hle : ∀ c, strict c = true → idle c = true)
    (h : AttemptsUntil idle text start fs) :
    AttemptsUntil strict text start fs ∨
      ∃ g rest, AttemptsUntil strict text start (fs ++ [g]) ∧ fs ≠ [] ∧
        Text.dropBytes? g.start text = some rest ∧ rest.all idle = true ∧
        rest.all strict = false := by
  induction h with
  | recognized hrest hok => exact Or.inl (.recognized hrest hok)
  | unterminated hoccurs hnone => exact Or.inl (.unterminated hoccurs hnone)
  | @stopped start e tail left dots rest hoccurs hcut hidle =>
    cases hstrict : rest.all strict with
    | true => exact Or.inl (.stopped hoccurs hcut hstrict)
    | false =>
      have hrest := hoccurs.dropBytes?_cut hcut
      have hnone : '.' ∉ rest := by
        intro hmem
        rw [List.all_eq_true.mp hidle '.' hmem] at hdot
        cases hdot
      rcases recognize_cases rest with ⟨hok, -⟩ | ⟨e', c, herror, hat⟩
      · exact absurd (dot_mem_of_recognize hok) hnone
      · have hafter : '.' ∉ e'.after := by
          rw [hat.text_eq] at hnone
          exact fun hmem => hnone (List.mem_append_right _ hmem)
        have hlast : AttemptsUntil strict text _ [⟨_, e'⟩] :=
          .unterminated (.of_recognize hrest herror) hafter
        exact Or.inr ⟨_, rest, .resumed hoccurs hcut hstrict hlast, by simp, hrest, hidle,
          hstrict⟩
  | @resumed start e tail left dots rest fs hoccurs hcut hmore _ ih =>
    have hstrict : rest.all strict = false := by
      obtain ⟨c, hc, hidle⟩ := List.all_eq_false.mp hmore
      exact List.all_eq_false.mpr ⟨c, hc, fun hstrict => hidle (hle c hstrict)⟩
    rcases ih with hnext | ⟨g, rest', hnext, -, hrest', hidle, hmore'⟩
    · exact Or.inl (.resumed hoccurs hcut hstrict hnext)
    · exact Or.inr ⟨g, rest', .resumed hoccurs hcut hstrict hnext, by simp, hrest', hidle, hmore'⟩

/-- The chain goes on with an attempt on what is left, which is its end or its next failure. -/
theorem cases_of_dropBytes? (h : AttemptsUntil idle text start fs)
    (hrest : Text.dropBytes? start text = some rest) :
    recognize rest = .ok () ∧ fs = [] ∨
      ∃ e gs, recognize rest = .error e ∧ fs = ⟨start, e⟩ :: gs := by
  cases hresult : recognize rest with
  | ok u => exact Or.inl ⟨rfl, unique (.recognized hrest hresult) h⟩
  | error e =>
    have hoccurs := FailedAttempt.Occurs.of_recognize hrest hresult
    rcases h.cases_of_occurs hoccurs with
      ⟨-, hfs⟩ | ⟨left, dots, rest, -, ⟨-, hfs⟩ | ⟨-, gs, hfs, -⟩⟩
    · exact Or.inr ⟨e, [], rfl, hfs⟩
    · exact Or.inr ⟨e, [], rfl, hfs⟩
    · exact Or.inr ⟨e, gs, rfl, hfs⟩

theorem iff_eq (h : AttemptsUntil idle text start fs) :
    AttemptsUntil idle text start gs ↔ gs = fs := by
  constructor
  · exact h.unique
  · intro heq
    rw [heq]
    exact h

theorem diagnostics_check (h : AttemptsUntil isWhite text 0 fs) (fileIndex : Nat) :
    (check text fileIndex).diagnostics = FailedAttempt.diagnosticsFrom 0 0 fs :=
  (attemptsUntil_isWhite_iff.mp h).diagnostics_check fileIndex

/-- What a check does with the text that is left behind the terminators after an error. -/
theorem check_behind {d : Diagnostic} (h : AttemptsUntil isWhite text 0 fs) (fileIndex : Nat)
    (hd : (check text fileIndex).diagnostics[k]? = some d)
    (htail : Text.dropBytes? d.offset text = some tail) (hcut : tail.Cut left dots rest) :
    rest.all isWhite = true ∧ (check text fileIndex).diagnostics.length = k + 1 ∨
      rest.all isWhite = false ∧
        (recognize rest = .ok () ∧ (check text fileIndex).diagnostics.length = k + 1 ∨
          ∃ e d', recognize rest = .error e ∧
            (check text fileIndex).diagnostics[k + 1]? = some d' ∧
            d'.offset = d.offset + Text.bytes (left ++ dots) + e.offset ∧
            e.offset ≤ rest.bytes) := by
  rw [h.diagnostics_check] at hd ⊢
  rw [FailedAttempt.getElem?_diagnosticsFrom] at hd
  obtain ⟨f, hf, rfl⟩ := Option.map_eq_some_iff.mp hd
  have hlength : fs.drop (k + 1) = [] →
      (FailedAttempt.diagnosticsFrom 0 0 fs).length = k + 1 := by
    intro hdrop
    have hle := List.drop_eq_nil_iff.mp hdrop
    have hlt := (List.getElem?_eq_some_iff.mp hf).1
    rw [FailedAttempt.length_diagnosticsFrom]
    omega
  rcases h.drop_succ hf htail hcut with ⟨hwhite, hdrop⟩ | ⟨hmore, hnext⟩
  · exact Or.inl ⟨hwhite, hlength hdrop⟩
  · have hrest : Text.dropBytes? (f.offset + Text.bytes (left ++ dots)) text = some rest := by
      obtain ⟨before, rfl, hbefore⟩ := Text.dropBytes?_eq_some_iff.mp htail
      apply Text.dropBytes?_eq_some_iff.mpr
      refine ⟨before ++ (left ++ dots), ?_, ?_⟩
      · rw [hcut.text_eq]
        simp only [List.append_assoc]
      · rw [Text.bytes_append, hbefore]
        rfl
    rcases hnext.cases_of_dropBytes? hrest with ⟨hok, hdrop⟩ | ⟨e, gs, herror, hdrop⟩
    · exact Or.inr ⟨hmore, Or.inl ⟨hok, hlength hdrop⟩⟩
    · have hnext : fs[k + 1]? = some ⟨f.offset + Text.bytes (left ++ dots), e⟩ := by
        rw [← List.head?_drop, hdrop, List.head?_cons]
      have hd' := FailedAttempt.getElem?_diagnosticsFrom 0 0 fs (k + 1)
      rw [hnext, Option.map_some] at hd'
      have hle : e.offset ≤ rest.bytes := by
        obtain ⟨c, hat⟩ := exists_at_of_recognize herror
        rw [hat.text_eq, Text.bytes_append]
        exact Nat.le_add_right _ _
      exact Or.inr ⟨hmore, Or.inr ⟨e, _, herror, hd', rfl, hle⟩⟩

end AttemptsUntil

/-- A check against the chain that passes over blanks only. Both have the same
failures, unless white space that is not blank is all that is left behind the
terminators after an error: then that chain fails once more, on this rest, and the
check does not. Behind the terminators after an error a check ends where only white
space is left. Where anything else is left it makes another attempt, and if this
fails the next diagnostic lies in what was left. -/
theorem check_stops_at_white (text : Text) (fileIndex : Nat) :
    (∃ fs gs, (∀ fs', AttemptsUntil isWhite text 0 fs' ↔ fs' = fs) ∧
      (∀ gs', AttemptsUntil isBlank text 0 gs' ↔ gs' = gs) ∧
      (check text fileIndex).diagnostics = FailedAttempt.diagnosticsFrom 0 0 fs ∧
      (∀ f ∈ fs.tail, ∀ rest, Text.dropBytes? f.start text = some rest →
        rest.all isWhite = false) ∧
      (gs = fs ∨ ∃ g rest, gs = fs ++ [g] ∧ fs ≠ [] ∧
        Text.dropBytes? g.start text = some rest ∧ rest.all isWhite = true ∧
        rest.all isBlank = false)) ∧
    ∀ (k : Nat) (d : Diagnostic) (tail left dots rest : Text),
      (check text fileIndex).diagnostics[k]? = some d →
      Text.dropBytes? d.offset text = some tail → tail.Cut left dots rest →
      rest.all isWhite = true ∧ (check text fileIndex).diagnostics.length = k + 1 ∨
        rest.all isWhite = false ∧
          (recognize rest = .ok () ∧ (check text fileIndex).diagnostics.length = k + 1 ∨
            ∃ e d', recognize rest = .error e ∧
              (check text fileIndex).diagnostics[k + 1]? = some d' ∧
              d'.offset = d.offset + Text.bytes (left ++ dots) + e.offset ∧
              e.offset ≤ rest.bytes) := by
  obtain ⟨fs, hattempts⟩ := Attempts.exists_check text
  have h := attemptsUntil_isWhite_iff.mpr hattempts
  refine ⟨?_, fun k d tail left dots rest hd htail hcut =>
    h.check_behind fileIndex hd htail hcut⟩
  have hchecked := h.diagnostics_check fileIndex
  rcases h.narrow (by decide) fun c => isWhite_of_isBlank with
    hsame | ⟨g, rest, hmore, hne, hrest, hwhite, hblank⟩
  · exact ⟨fs, fs, fun _ => h.iff_eq, fun _ => hsame.iff_eq, hchecked,
      h.all_eq_false_of_mem_tail, Or.inl rfl⟩
  · exact ⟨fs, fs ++ [g], fun _ => h.iff_eq, fun _ => hmore.iff_eq, hchecked,
      h.all_eq_false_of_mem_tail, Or.inr ⟨g, rest, rfl, hne, hrest, hwhite, hblank⟩⟩

/-- A no-break space behind the terminator after an error is not blank, and alone it
would be an error, but a check passes over it. -/
theorem check_passes_over_space :
    ∃ (text : Text) (gs : List FailedAttempt) (d : Diagnostic),
      text = "a(.\u00a0".toList ∧ AttemptsUntil isBlank text 0 gs ∧
      (FailedAttempt.diagnosticsFrom 0 0 gs)[1]? = some d ∧ d.line = 2 ∧ d.column = 1 ∧
      d.offset = 3 ∧ Text.dropBytes? 3 text = some ['\u00a0'] ∧
      List.all ['\u00a0'] isBlank = false ∧ recognize ['\u00a0'] ≠ .ok () ∧
      (check text 1).diagnostics ≠ FailedAttempt.diagnosticsFrom 0 0 gs ∧
      ∀ d ∈ (check text 1).diagnostics, d.offset < 3 := by
  generalize htext : "a(.\u00a0".toList = text
  have hfirst : recognize "a(.\u00a0".toList =
      .error ⟨"a(".toList, ".\u00a0".toList, [.term]⟩ := by cbv
  have hsecond : recognize ['\u00a0'] =
      .error ⟨[], ['\u00a0'], [.atom, .queryStart]⟩ := by cbv
  have hcut : Text.Cut ([] ++ '.' :: ['\u00a0']) [] ['.'] ['\u00a0'] :=
    Text.cut_single (by decide) (by decide)
  have hoccurs : FailedAttempt.Occurs ⟨0, ⟨"a(".toList, ".\u00a0".toList, [.term]⟩⟩ text
      ".\u00a0".toList := .of_recognize (by rw [← htext]; decide) hfirst
  have hrest : Text.dropBytes? 3 text = some ['\u00a0'] := by
    rw [← htext]
    decide
  have hlast : AttemptsUntil isBlank text 3 [⟨3, ⟨[], ['\u00a0'], [.atom, .queryStart]⟩⟩] :=
    .unterminated (.of_recognize hrest hsecond) (by decide)
  have hgs : AttemptsUntil isBlank text 0 [⟨0, ⟨"a(".toList, ".\u00a0".toList, [.term]⟩⟩,
      ⟨3, ⟨[], ['\u00a0'], [.atom, .queryStart]⟩⟩] :=
    .resumed hoccurs hcut (by decide) hlast
  have hfs : AttemptsUntil isWhite text 0 [⟨0, ⟨"a(".toList, ".\u00a0".toList, [.term]⟩⟩] :=
    .stopped hoccurs hcut (by decide)
  have hchecked := hfs.diagnostics_check 1
  refine ⟨text, _, _, rfl, hgs, rfl, rfl, rfl, rfl, hrest, by decide, ?_, ?_, ?_⟩
  · intro hok
    rw [hsecond] at hok
    cases hok
  · rw [hchecked]
    intro heq
    have hlength := congrArg List.length heq
    simp [FailedAttempt.length_diagnosticsFrom] at hlength
  · rw [hchecked]
    intro d hd
    obtain rfl := List.mem_singleton.mp hd
    decide

end HornSyntax
