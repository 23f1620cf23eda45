import HornSyntax.Reader.Depth

/-!
Repetition without its bound. Where every round takes a character, a bound as
long as the text never cuts the rounds short, so a repetition is one round
followed by the repetition of the rest, or nothing.
-/

namespace HornSyntax.Reader

theorem Takes.found_nil {p : Reader} (hsplits : p.Splits) (htakes : p.Takes 1) (offset : Nat) :
    (p offset []).found = none := by
  cases hfound : (p offset []).found with
  | none => rfl
  | some m =>
    have hlength := hsplits.length_eq hfound
    have htaken := htakes _ _ _ hfound
    simp only [List.length_nil] at hlength
    omega

/-- What follows a reader that fails is not asked. -/
theorem followedBy_eq_of_found_none {p : Reader} {offset : Nat} {text : Text}
    (h : (p offset text).found = none) (q : Reader) :
    p.followedBy q offset text = p offset text := by
  unfold followedBy
  simp only [h]

theorem optional_congr {p p' : Reader} {offset : Nat} {text : Text}
    (h : p offset text = p' offset text) : p.optional offset text = p'.optional offset text := by
  unfold optional orElse
  rw [h]

/-- All bounds at least as long as the text give the same rounds. -/
theorem rounds_eq_rounds {p : Reader} (hsplits : p.Splits) (htakes : p.Takes 1)
    {bound bound' : Text} {offset : Nat} {text : Text} (h : text.length ≤ bound.length)
    (h' : text.length ≤ bound'.length) : p.rounds bound offset text = p.rounds bound' offset text := by
  induction bound generalizing bound' offset text with
  | nil =>
    obtain rfl := List.eq_nil_of_length_eq_zero (Nat.le_zero.mp h)
    cases bound' with
    | nil => rfl
    | cons c more =>
      refine optional_congr ?_
      rw [followedBy_eq_of_found_none (Takes.found_nil hsplits htakes offset)]
  | cons c more ih =>
    cases bound' with
    | nil =>
      obtain rfl := List.eq_nil_of_length_eq_zero (Nat.le_zero.mp h')
      refine optional_congr ?_
      rw [followedBy_eq_of_found_none (Takes.found_nil hsplits htakes offset)]
    | cons c' more' =>
      refine optional_congr ?_
      refine (AgreeAfter.refl 0 text.length p).followedBy hsplits htakes ?_ offset text
        (Nat.le_refl _)
      intro offset rest hrest
      simp only [List.length_cons] at h h'
      exact ih (by omega) (by omega)

/-- As many rounds as there are. -/
def allRounds (p : Reader) : Reader := fun offset text => p.rounds text offset text

theorem allRounds_eq {p : Reader} (hsplits : p.Splits) (htakes : p.Takes 1) :
    p.allRounds = (p.followedBy p.allRounds).optional := by
  funext offset text
  unfold allRounds
  cases text with
  | nil =>
    refine optional_congr ?_
    rw [followedBy_eq_of_found_none (Takes.found_nil hsplits htakes offset)]
  | cons c rest =>
    refine optional_congr ?_
    refine (AgreeAfter.refl 0 (c :: rest).length p).followedBy hsplits htakes ?_ offset _
      (Nat.le_refl _)
    intro offset left hleft
    simp only [List.length_cons] at hleft
    exact rounds_eq_rounds hsplits htakes (by omega) (Nat.le_refl _)

/-- A repetition is its first round and then all further ones. -/
theorem many_eq {gap p : Reader} (hgap : gap.Splits) (hsplits : p.Splits) (htakes : p.Takes 1) :
    many gap p = (p.followedBy (gap.followedBy p).allRounds).optional := by
  have hround : (gap.followedBy p).Takes 1 := by
    intro offset text m h
    obtain ⟨first, second, -, hsecond, rfl⟩ := followedBy_found h
    have htaken := htakes _ _ _ hsecond
    simp only [Match.append, List.length_append]
    omega
  funext offset text
  refine optional_congr ?_
  refine (AgreeAfter.refl 0 text.length p).followedBy hsplits htakes ?_ offset text (Nat.le_refl _)
  intro offset rest hrest
  exact rounds_eq_rounds (hgap.followedBy hsplits) hround (by omega) (Nat.le_refl _)

end HornSyntax.Reader
