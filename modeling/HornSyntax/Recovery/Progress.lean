import HornSyntax.Recovery

/-!
Recovery comes to an end within its fuel. Going on after an error always leaves
at least one terminator behind, and what is left then is again an end part of
the text, so that the terminators that remain bound the steps.
-/

namespace HornSyntax.Recovery

theorem throughTerminators_append (text : Text) :
    throughTerminators text ++ afterTerminators text = text := by
  unfold throughTerminators afterTerminators
  rw [List.append_assoc, List.takeWhile_append_dropWhile, List.takeWhile_append_dropWhile]

theorem mem_throughTerminators {text : Text} (h : '.' ∈ text) : '.' ∈ throughTerminators text := by
  unfold throughTerminators
  apply List.mem_append_right
  induction text with
  | nil => cases h
  | cons c rest ih =>
    by_cases hc : c = '.'
    · subst hc
      simp
    · have hrest : '.' ∈ rest := by
        rcases List.mem_cons.mp h with heq | hmem
        · exact absurd heq.symm hc
        · exact hmem
      simpa [List.dropWhile_cons, hc] using ih hrest

/-- At least one terminator is skipped. -/
theorem count_afterTerminators_lt {text : Text} (h : '.' ∈ text) :
    (afterTerminators text).count '.' < text.count '.' := by
  have happend := congrArg (List.count '.') (throughTerminators_append text)
  have hpos := List.count_pos_iff.mpr (mem_throughTerminators h)
  rw [List.count_append] at happend
  omega

theorem remaining?_eq_some_iff {s : Recovery} {text rest : Text} :
    s.remaining? text = some rest ↔
      ∃ skipped, text = skipped ++ rest ∧ Text.bytes skipped = s.consumed :=
  Text.dropBytes?_eq_some_iff

/-- After a resynchronization the rest behind the terminators remains. -/
theorem remaining?_resumed {s : Recovery} {text rest tail : Text} {offset : Nat}
    (hrest : s.remaining? text = some rest)
    (htail : Text.dropBytes? offset rest = some tail) :
    Text.dropBytes? (s.consumed + offset + (throughTerminators tail).bytes) text =
      some (afterTerminators tail) := by
  have hplace : Text.dropBytes? (s.consumed + offset) text = some tail :=
    (Text.dropBytes?_add hrest offset).trans htail
  rw [Text.dropBytes?_add hplace]
  exact Text.dropBytes?_eq_some_iff.mpr ⟨_, (throughTerminators_append tail).symm, rfl⟩

/-- The steps that may still follow, when `terminators` of them are left. -/
def stepsLeft (terminators : Nat) : Phase → Nat
  | .scanning => 2 * terminators + 2
  | .resynchronizing _ => 2 * terminators + 1
  | .done => 0

/-- How many terminators are left. -/
def terminatorsLeft (text : Text) (s : Recovery) : Nat :=
  ((s.remaining? text).getD []).count '.'

/-- An attempt skips nothing. -/
theorem scan_consumed (text : Text) (s : Recovery) : (s.scan text).2.consumed = s.consumed := by
  unfold scan
  split <;> rfl

theorem scan_phase (text : Text) (s : Recovery) :
    (s.scan text).1 = .done ∨ ∃ offset, (s.scan text).1 = .resynchronizing offset := by
  unfold scan
  split
  · exact Or.inr ⟨_, rfl⟩
  · exact Or.inl rfl

/-- Scanning goes on only with fewer terminators. -/
theorem resynchronize_phase (text : Text) (offset : Nat) (s : Recovery) :
    (s.resynchronize text offset).1 = .done ∨
      (s.resynchronize text offset).1 = .scanning ∧
        terminatorsLeft text (s.resynchronize text offset).2 < terminatorsLeft text s := by
  unfold resynchronize
  cases hrest : s.remaining? text with
  | none => exact Or.inl rfl
  | some rest =>
    cases htail : Text.dropBytes? offset rest with
    | none =>
      exact Or.inl (by simp [htail])
    | some tail =>
      simp only [Option.bind_some, htail, List.contains_iff_mem]
      by_cases hdot : '.' ∈ tail
      · rw [if_pos hdot]
        by_cases hwhite : (afterTerminators tail).all CharacterClass.isWhite = true
        · exact Or.inl (by simp [hwhite])
        · refine Or.inr ⟨by simp [hwhite], ?_⟩
          have hlt := count_afterTerminators_lt hdot
          have hresumed := remaining?_resumed hrest htail
          obtain ⟨before, rfl, -⟩ := Text.dropBytes?_eq_some_iff.mp htail
          simp only [terminatorsLeft, hrest]
          simp only [remaining?, hresumed, Option.getD_some, List.count_append]
          omega
      · rw [if_neg hdot]
        exact Or.inl rfl

theorem stepsLeft_step_lt (text : Text) (s : Recovery) {phase : Phase} (h : phase ≠ .done) :
    stepsLeft (terminatorsLeft text (step text phase s).2) (step text phase s).1 <
      stepsLeft (terminatorsLeft text s) phase := by
  cases phase with
  | done => exact absurd rfl h
  | scanning =>
    have hleft : terminatorsLeft text (s.scan text).2 = terminatorsLeft text s := by
      simp only [terminatorsLeft, remaining?, scan_consumed]
    simp only [step, hleft]
    rcases scan_phase text s with hdone | ⟨offset, hnext⟩
    · rw [hdone]
      simp only [stepsLeft]
      omega
    · rw [hnext]
      simp only [stepsLeft]
      omega
  | resynchronizing offset =>
    simp only [step]
    rcases resynchronize_phase text offset s with hdone | ⟨hnext, hlt⟩
    · rw [hdone]
      simp only [stepsLeft]
      omega
    · rw [hnext]
      simp only [stepsLeft]
      omega

theorem run_succ {phase : Phase} (h : phase ≠ .done) (text : Text) (fuel : Nat) (s : Recovery) :
    run text (fuel + 1) phase s = run text fuel (step text phase s).1 (step text phase s).2 := by
  rw [run, if_neg h]

theorem run_done (text : Text) (fuel : Nat) (s : Recovery) :
    run text fuel .done s = (.done, s) := by
  cases fuel <;> rfl

theorem run_phase_eq_done {text : Text} {fuel : Nat} {phase : Phase} {s : Recovery}
    (h : stepsLeft (terminatorsLeft text s) phase ≤ fuel) : (run text fuel phase s).1 = .done := by
  induction fuel generalizing phase s with
  | zero =>
    cases phase with
    | done => rfl
    | scanning => simp [stepsLeft] at h
    | resynchronizing offset => simp [stepsLeft] at h
  | succ fuel ih =>
    by_cases hdone : phase = .done
    · rw [hdone, run_done]
    · rw [run_succ hdone]
      have hlt := stepsLeft_step_lt text s hdone
      exact ih (by omega)

/-- The fuel of a whole check suffices. -/
theorem run_fuel_phase (text : Text) : (run text (fuel text) .scanning initial).1 = .done := by
  refine run_phase_eq_done ?_
  have hrest : initial.remaining? text = some text := by
    cases text <;> rfl
  simp only [stepsLeft, terminatorsLeft, hrest, Option.getD_some, fuel]
  omega

end HornSyntax.Recovery
