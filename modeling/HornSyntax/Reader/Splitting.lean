import HornSyntax.Reader

/-!
A reader takes its match from the front of the text and leaves the rest. Each
combinator keeps this, and so every pattern and every rule splits its text.
-/

namespace HornSyntax

/-- Whatever is found is the text up to the rest. -/
def Reader.Splits (p : Reader) : Prop :=
  ∀ offset text m, (p offset text).found = some m → m.text ++ m.rest = text

namespace Reader

theorem splits_fail : fail.Splits := by
  intro offset text m h
  simp [fail] at h

theorem splits_empty : empty.Splits := by
  intro offset text m h
  obtain rfl : _ = m := by simpa [empty] using h
  rfl

theorem splits_ending : ending.Splits := by
  intro offset text m h
  cases text with
  | nil =>
    obtain rfl : _ = m := by simpa [ending] using h
    rfl
  | cons c rest => simp [ending] at h

theorem splits_one (accepts : Char → Bool) : (one accepts).Splits := by
  intro offset text m h
  cases text with
  | nil => simp [one] at h
  | cons c rest =>
    by_cases hc : accepts c = true
    · obtain rfl : _ = m := by simpa [one, hc] using h
      rfl
    · simp [one, hc] at h

theorem append_of_isPrefixOf? {letters text rest : Text}
    (h : letters.isPrefixOf? text = some rest) : letters ++ rest = text := by
  induction letters generalizing text with
  | nil =>
    obtain rfl : text = rest := Option.some.inj h
    rfl
  | cons c more ih =>
    cases text with
    | nil => cases h
    | cons d tail =>
      change (if c == d then more.isPrefixOf? tail else none) = some rest at h
      by_cases hcd : c = d
      · rw [if_pos (beq_iff_eq.mpr hcd)] at h
        rw [List.cons_append, ih h, hcd]
      · rw [if_neg (by simpa using hcd)] at h
        cases h

theorem splits_word (letters : Text) : (word letters).Splits := by
  intro offset text m h
  obtain ⟨rest, hrest, rfl⟩ := Option.map_eq_some_iff.mp h
  exact append_of_isPrefixOf? hrest

theorem splits_blanks : blanks.Splits := by
  intro offset text m h
  obtain rfl : _ = m := by simpa [blanks] using h
  exact List.takeWhile_append_dropWhile

/-- What two readers in a row find is put together from what each finds. -/
theorem followedBy_found {p q : Reader} {offset : Nat} {text : Text} {m : Match}
    (h : (p.followedBy q offset text).found = some m) :
    ∃ first second, (p offset text).found = some first ∧
      (q (offset + first.text.bytes) first.rest).found = some second ∧
      m = first.append second := by
  unfold followedBy at h
  cases hp : (p offset text).found with
  | none => simp [hp] at h
  | some first =>
    simp only [hp, Option.map_eq_some_iff] at h
    obtain ⟨second, hsecond, rfl⟩ := h
    exact ⟨first, second, rfl, hsecond, rfl⟩

theorem orElse_found {p q : Reader} {offset : Nat} {text : Text} {m : Match}
    (h : (p.orElse q offset text).found = some m) :
    (p offset text).found = some m ∨
      (p offset text).found = none ∧ (q offset text).found = some m := by
  unfold orElse at h
  cases hp : (p offset text).found with
  | none => exact Or.inr ⟨rfl, by simpa [hp] using h⟩
  | some first => exact Or.inl (by simpa [hp] using h)

theorem Splits.followedBy {p q : Reader} (hp : p.Splits) (hq : q.Splits) :
    (p.followedBy q).Splits := by
  intro offset text m h
  obtain ⟨first, second, hfirst, hsecond, rfl⟩ := followedBy_found h
  rw [← hp _ _ _ hfirst, ← hq _ _ _ hsecond]
  exact List.append_assoc _ _ _

theorem Splits.orElse {p q : Reader} (hp : p.Splits) (hq : q.Splits) : (p.orElse q).Splits := by
  intro offset text m h
  rcases orElse_found h with hfound | ⟨-, hfound⟩
  · exact hp _ _ _ hfound
  · exact hq _ _ _ hfound

theorem Splits.optional {p : Reader} (hp : p.Splits) : p.optional.Splits :=
  hp.orElse splits_empty

theorem Splits.rounds {p : Reader} (hp : p.Splits) (bound : Text) : (p.rounds bound).Splits := by
  induction bound with
  | nil => exact hp.optional
  | cons c bound ih => exact (hp.followedBy ih).optional

theorem Splits.many {gap p : Reader} (hgap : gap.Splits) (hp : p.Splits) :
    (many gap p).Splits := by
  intro offset text m h
  exact (hp.followedBy ((hgap.followedBy hp).rounds text)).optional _ _ _ h

theorem Splits.length_eq {p : Reader} (hp : p.Splits) {offset : Nat} {text : Text} {m : Match}
    (h : (p offset text).found = some m) : m.text.length + m.rest.length = text.length := by
  rw [← hp _ _ _ h, List.length_append]

end Reader

open Reader

theorem Pattern.splits_read {gap : Reader} {sub : Rule → Reader} (hgap : gap.Splits)
    (hsub : ∀ r, (sub r).Splits) (p : Pattern) : (p.read gap sub).Splits := by
  induction p with
  | empty => exact splits_empty
  | ending => exact splits_ending
  | one accepts => exact splits_one accepts
  | word letters => exact splits_word letters
  | rule r => exact hsub r
  | seq p q hp hq => exact hp.followedBy (hgap.followedBy hq)
  | choice p q hp hq => exact hp.orElse hq
  | optional p hp => exact hp.optional
  | many p hp => exact Splits.many hgap hp

namespace Rule

theorem splits_gap (r : Rule) : r.gap.Splits := by
  unfold gap
  split
  · exact splits_blanks
  · exact splits_empty

/-- A rule finds what its body finds, under a node of its own unless silent. -/
theorem conclude_found {r : Rule} {body : Reader} {offset : Nat} {text : Text} {m : Match}
    (h : (r.conclude body offset text).found = some m) :
    ∃ inner, (body offset text).found = some inner ∧ m.text = inner.text ∧ m.rest = inner.rest ∧
      m.nodes = if r.silent then inner.nodes else [⟨r, offset, inner.text, inner.nodes⟩] := by
  unfold conclude at h
  by_cases hr : r.silent = true
  · exact ⟨m, by simpa [hr] using h, rfl, rfl, by simp [hr]⟩
  · cases hbody : (body offset text).found with
    | none => simp [hr, hbody] at h
    | some inner =>
      obtain rfl : _ = m := by simpa [hr, hbody] using h
      exact ⟨inner, rfl, rfl, rfl, by simp [hr]⟩

theorem splits_conclude {body : Reader} (hbody : body.Splits) (r : Rule) :
    (r.conclude body).Splits := by
  intro offset text m h
  obtain ⟨inner, hinner, htext, hrest, -⟩ := conclude_found h
  rw [htext, hrest]
  exact hbody _ _ _ hinner

theorem splits_read (depth : Nat) (r : Rule) : (read depth r).Splits := by
  induction depth generalizing r with
  | zero => exact splits_fail
  | succ depth ih => exact splits_conclude (Pattern.splits_read r.splits_gap ih r.body) r

theorem splits_reader (r : Rule) : r.reader.Splits := by
  intro offset text
  exact r.splits_read (depth text) offset text

end Rule

end HornSyntax
