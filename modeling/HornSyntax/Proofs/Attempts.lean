import HornSyntax.Proofs.Recognition
import HornSyntax.Proofs.Terminators

/-!
Recovery as a sequence of attempts. A run that has come to an end does so in
one state only, however much fuel it had. An attempt that succeeds ends the run
where it stands; one that fails adds its diagnostic and passes on what follows
the next terminators.
-/

namespace HornSyntax.Recovery

/-- Steps lead from a phase and a state to the state of the end. -/
inductive Ends (text : Text) : Phase → Recovery → Recovery → Prop where
  | done (s : Recovery) : Ends text .done s s
  | next {phase : Phase} {s s' : Recovery} (hphase : phase ≠ .done)
      (hrest : Ends text (step text phase s).1 (step text phase s).2 s') : Ends text phase s s'

variable {text rest : Text} {phase : Phase} {s s' : Recovery} {e : SyntaxError}

theorem ends_run {fuel : Nat} (h : (run text fuel phase s).1 = .done) :
    Ends text phase s (run text fuel phase s).2 := by
  induction fuel generalizing phase s with
  | zero =>
    have hphase : phase = .done := h
    subst hphase
    exact .done s
  | succ fuel ih =>
    by_cases hphase : phase = .done
    · subst hphase
      rw [run_done]
      exact .done s
    · rw [run_succ hphase] at h ⊢
      exact .next hphase (ih h)

theorem Ends.unique {other : Recovery} (h : Ends text phase s s') (h' : Ends text phase s other) :
    s' = other := by
  induction h with
  | done s =>
    cases h' with
    | done => rfl
    | next hphase => exact absurd rfl hphase
  | next hphase _ ih =>
    cases h' with
    | done => exact absurd rfl hphase
    | next _ hrest => exact ih hrest

/-- A whole check ends with what its fuel leads to. -/
theorem finish_of_ends (h : Ends text .scanning initial s) : finish text = s := by
  have hrun : Ends text .scanning initial (finish text) := ends_run (run_fuel_phase text)
  exact hrun.unique h

theorem step_scanning_of_ok (hrest : s.remaining? text = some rest)
    (hok : recognize rest = .ok ()) : step text .scanning s = (.done, s) := by
  simp [step, scan, hrest, hok]

/-- An attempt that succeeds is the last one. -/
theorem Ends.of_ok (hrest : s.remaining? text = some rest) (hok : recognize rest = .ok ()) :
    Ends text .scanning s s := by
  apply Ends.next (by decide)
  rw [step_scanning_of_ok hrest hok]
  exact .done s

/-- The state with the diagnostic of an error put down. -/
def noted (s : Recovery) (e : SyntaxError) : Recovery where
  consumed := s.consumed
  lineCount := s.lineCount + e.line
  diagnostics := s.diagnostics ++ [s.diagnose e]
  log := s.log ++ [diagnosticEntry (s.diagnose e)]

/-- The state with what lies before a place skipped. -/
def resumed (s : Recovery) (consumed : Nat) : Recovery :=
  { s with consumed := consumed, log := s.log ++ [resumedEntry consumed] }

/-- The state in which a run ends that finds no terminator from a byte on. -/
def gaveUp (s : Recovery) (byte : Nat) : Recovery :=
  { s with log := s.log ++ [gaveUpEntry byte] }

/-- The state in which the next attempt begins after an error. -/
def past (s : Recovery) (e : SyntaxError) : Recovery :=
  (s.noted e).resumed (s.consumed + e.offset + (throughTerminators e.after).bytes)

@[simp] theorem past_consumed (s : Recovery) (e : SyntaxError) :
    (s.past e).consumed = s.consumed + e.offset + (throughTerminators e.after).bytes := rfl

@[simp] theorem past_diagnostics (s : Recovery) (e : SyntaxError) :
    (s.past e).diagnostics = s.diagnostics ++ [s.diagnose e] := rfl

theorem step_scanning (hrest : s.remaining? text = some rest) (herror : recognize rest = .error e) :
    step text .scanning s = (.resynchronizing e.offset, s.noted e) := by
  simp [step, scan, hrest, herror, diagnose, noted]

/-- Scanning goes on behind the terminators where more than white space is left. -/
theorem step_resynchronizing {offset : Nat} {tail : Text} (hrest : s.remaining? text = some rest)
    (htail : Text.dropBytes? offset rest = some tail) (hdot : '.' ∈ tail)
    (hmore : (afterTerminators tail).all CharacterClass.isWhite = false) :
    step text (.resynchronizing offset) s =
      (.scanning, s.resumed (s.consumed + offset + (throughTerminators tail).bytes)) := by
  simp [step, resynchronize, hrest, htail, hdot, hmore, resumed]

/-- The run is over where only white space is left behind the terminators. -/
theorem step_resynchronizing_of_white {offset : Nat} {tail : Text}
    (hrest : s.remaining? text = some rest) (htail : Text.dropBytes? offset rest = some tail)
    (hdot : '.' ∈ tail) (hwhite : (afterTerminators tail).all CharacterClass.isWhite = true) :
    step text (.resynchronizing offset) s =
      (.done, s.resumed (s.consumed + offset + (throughTerminators tail).bytes)) := by
  simp [step, resynchronize, hrest, htail, hdot, hwhite, resumed]

/-- The run is over where no terminator is left. -/
theorem step_resynchronizing_of_notMem {offset : Nat} {tail : Text}
    (hrest : s.remaining? text = some rest) (htail : Text.dropBytes? offset rest = some tail)
    (hdot : '.' ∉ tail) :
    step text (.resynchronizing offset) s = (.done, s.gaveUp (s.consumed + offset)) := by
  simp [step, resynchronize, hrest, htail, hdot, gaveUp]

theorem dropBytes?_offset (herror : recognize rest = .error e) :
    Text.dropBytes? e.offset rest = some e.after := by
  obtain ⟨c, hat⟩ := exists_at_of_recognize herror
  exact Text.dropBytes?_eq_some_iff.mpr ⟨e.before, hat.text_eq, rfl⟩

/-- An attempt that fails is followed by one on the text behind the terminators. -/
theorem Ends.of_error (hrest : s.remaining? text = some rest)
    (herror : recognize rest = .error e) (hdot : '.' ∈ e.after)
    (hmore : (afterTerminators e.after).all CharacterClass.isWhite = false)
    (h : Ends text .scanning (s.past e) s') : Ends text .scanning s s' := by
  have hnoted : (s.noted e).remaining? text = some rest := hrest
  have hresumed := step_resynchronizing hnoted (dropBytes?_offset herror) hdot hmore
  apply Ends.next (by decide)
  rw [step_scanning hrest herror]
  apply Ends.next (by simp)
  rw [hresumed]
  exact h

/-- The attempt that fails is the last one where only white space is left behind the terminators. -/
theorem Ends.of_white (hrest : s.remaining? text = some rest)
    (herror : recognize rest = .error e) (hdot : '.' ∈ e.after)
    (hwhite : (afterTerminators e.after).all CharacterClass.isWhite = true) :
    Ends text .scanning s (s.past e) := by
  have hnoted : (s.noted e).remaining? text = some rest := hrest
  apply Ends.next (by decide)
  rw [step_scanning hrest herror]
  apply Ends.next (by simp)
  rw [step_resynchronizing_of_white hnoted (dropBytes?_offset herror) hdot hwhite]
  exact .done _

/-- The attempt that fails is the last one where no terminator follows the error. -/
theorem Ends.of_notMem (hrest : s.remaining? text = some rest)
    (herror : recognize rest = .error e) (hdot : '.' ∉ e.after) :
    Ends text .scanning s ((s.noted e).gaveUp (s.consumed + e.offset)) := by
  have hnoted : (s.noted e).remaining? text = some rest := hrest
  apply Ends.next (by decide)
  rw [step_scanning hrest herror]
  apply Ends.next (by simp)
  rw [step_resynchronizing_of_notMem hnoted (dropBytes?_offset herror) hdot]
  exact .done _

end HornSyntax.Recovery
