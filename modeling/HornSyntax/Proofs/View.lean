import HornSyntax.Proofs.Token
import HornSyntax.Reader.Rounds

/-!
What the rest of a reading can see of an outcome: the text that is left past
the blanks, and the refusals. A place is given by the text that is left there,
counted back from the end of the whole text. In these terms a sequence with
blanks between its parts, a choice and a repetition have plain equations.
-/

namespace HornSyntax

open CharacterClass

theorem Text.bytes_dropBlanks_le (text : Text) : text.dropBlanks.bytes ≤ text.bytes := by
  have h := congrArg Text.bytes (List.takeWhile_append_dropWhile (p := isBlank) (l := text))
  rw [Text.bytes_append] at h
  rw [Text.dropBlanks]
  omega

structure View where
  left : Option Text
  refusals : Option Refusals

namespace View

/-- The same view with refusals from before. -/
def after (v : View) (earlier : Option Refusals) : View := ⟨v.left, Refusals.merge earlier v.refusals⟩

@[simp] theorem after_left (v : View) (earlier : Option Refusals) : (v.after earlier).left = v.left :=
  rfl

@[simp] theorem after_refusals (v : View) (earlier : Option Refusals) :
    (v.after earlier).refusals = Refusals.merge earlier v.refusals := rfl

@[simp] theorem after_none (v : View) : v.after none = v := by
  simp only [after, Refusals.merge_none_left]

theorem after_after (v : View) (first second : Option Refusals) :
    (v.after second).after first = v.after (Refusals.merge first second) := by
  simp only [after, Refusals.merge_assoc]

end View

def Outcome.view (o : Outcome) : View := ⟨o.found.map fun m => m.rest.dropBlanks, o.refusals⟩

namespace Reader

/-- What is seen of a reading of `text` at the end of a text of `total` bytes. -/
def view (p : Reader) (total : Nat) (text : Text) : View := (p (total - text.bytes) text).view

/-- Two readers in a row with blanks between them. -/
def spaced (p q : Reader) : Reader := p.followedBy (blanks.followedBy q)

theorem followedBy_assoc (p q r : Reader) :
    (p.followedBy q).followedBy r = p.followedBy (q.followedBy r) := by
  funext offset text
  unfold followedBy
  cases hp : (p offset text).found with
  | none => simp only [hp]
  | some m =>
    simp only
    cases hq : (q (offset + m.text.bytes) m.rest).found with
    | none => simp only [hq, hp, Option.map_none]
    | some m' =>
      simp only [hp, hq, Option.map_some, Match.append, Text.bytes_append, Nat.add_assoc,
        Refusals.merge_assoc, Option.map_map]
      congr 2
      funext m''
      simp only [Function.comp, Match.append, List.append_assoc]

theorem orElse_assoc (p q r : Reader) : (p.orElse q).orElse r = p.orElse (q.orElse r) := by
  funext offset text
  unfold orElse
  cases hp : (p offset text).found with
  | some m => simp only [hp]
  | none =>
    cases hq : (q offset text).found with
    | some m => simp only [hp, hq]
    | none => simp only [hp, hq, Refusals.merge_assoc]

theorem spaced_assoc (p q r : Reader) : (p.spaced q).spaced r = p.spaced (q.spaced r) := by
  simp only [spaced, followedBy_assoc]

theorem Splits.spaced {p q : Reader} (hp : p.Splits) (hq : q.Splits) : (p.spaced q).Splits :=
  hp.followedBy (splits_blanks.followedBy hq)

theorem Takes.spaced {least : Nat} {p : Reader} (hp : p.Takes least) (q : Reader) :
    (p.spaced q).Takes least := by
  intro offset text m h
  obtain ⟨first, second, hfirst, -, rfl⟩ := followedBy_found h
  have htaken := hp _ _ _ hfirst
  simp only [Match.append, List.length_append]
  omega

theorem view_blanks_followedBy (q : Reader) (offset : Nat) (text : Text) :
    (blanks.followedBy q offset text).view =
      (q (offset + Text.bytes (text.takeWhile isBlank)) text.dropBlanks).view := by
  simp only [followedBy, blanks, Outcome.view, Option.map_map, Refusals.merge_none_left,
    Text.dropBlanks]
  rfl

theorem view_followedBy_of_found {p : Reader} {offset : Nat} {text : Text} {m : Match}
    (h : (p offset text).found = some m) (q : Reader) :
    (p.followedBy q offset text).view =
      (q (offset + m.text.bytes) m.rest).view.after (p offset text).refusals := by
  simp only [followedBy, h, Outcome.view, View.after, Option.map_map]
  rfl

theorem view_optional (p : Reader) (offset : Nat) (text : Text) :
    (p.optional offset text).view =
      ⟨some ((p offset text).view.left.getD text.dropBlanks), (p offset text).refusals⟩ := by
  unfold optional orElse
  cases h : (p offset text).found with
  | none => simp [Outcome.view, empty, h]
  | some m => simp [Outcome.view, h]

theorem found_eq_none_of_left {o : Outcome} (h : o.view.left = none) : o.found = none :=
  Option.map_eq_none_iff.mp h

section

variable {p q : Reader} {total : Nat} {text rest : Text}

/-- The place past the blanks after a match, counted from either end. -/
theorem offset_past_blanks (hp : p.Splits) (htext : text.bytes ≤ total) {m : Match}
    (hm : (p (total - text.bytes) text).found = some m) :
    total - text.bytes + m.text.bytes + Text.bytes (m.rest.takeWhile isBlank) =
      total - m.rest.dropBlanks.bytes := by
  have hsplit := congrArg Text.bytes (hp _ _ _ hm)
  have hgap := congrArg Text.bytes (List.takeWhile_append_dropWhile (p := isBlank) (l := m.rest))
  rw [Text.bytes_append] at hsplit hgap
  rw [Text.dropBlanks]
  omega

theorem view_spaced_of_none (h : (p.view total text).left = none) :
    (p.spaced q).view total text = p.view total text := by
  unfold view spaced
  rw [followedBy_eq_of_found_none (found_eq_none_of_left h)]

theorem view_spaced_of_some (hp : p.Splits) (htext : text.bytes ≤ total)
    (h : (p.view total text).left = some rest) :
    (p.spaced q).view total text = (q.view total rest).after (p.view total text).refusals := by
  obtain ⟨m, hm, rfl⟩ := Option.map_eq_some_iff.mp h
  unfold view spaced
  rw [view_followedBy_of_found hm, view_blanks_followedBy, offset_past_blanks hp htext hm]
  rfl

theorem view_orElse_of_none (h : (p.view total text).left = none) :
    (p.orElse q).view total text = (q.view total text).after (p.view total text).refusals := by
  have hfound := found_eq_none_of_left h
  unfold view orElse
  simp only [hfound]
  rfl

theorem view_orElse_of_some (h : (p.view total text).left = some rest) :
    (p.orElse q).view total text = p.view total text := by
  obtain ⟨m, hm, -⟩ := Option.map_eq_some_iff.mp h
  unfold view orElse
  simp only [hm]

theorem view_optional_of_none (h : (p.view total text).left = none) :
    p.optional.view total text = ⟨some text.dropBlanks, (p.view total text).refusals⟩ := by
  have hleft : (p (total - text.bytes) text).view.left = none := h
  unfold view
  rw [view_optional, hleft]
  rfl

theorem view_optional_of_some (h : (p.view total text).left = some rest) :
    p.optional.view total text = p.view total text :=
  view_orElse_of_some h

/-- Further rounds see what a repetition past the blanks sees. -/
theorem view_allRounds (hp : p.Splits) (htakes : p.Takes 1) (offset : Nat) (text : Text) :
    ((blanks.followedBy p).allRounds offset text).view =
      (many blanks p (offset + Text.bytes (text.takeWhile isBlank)) text.dropBlanks).view := by
  have htakes' : (blanks.followedBy p).Takes 1 := by
    intro offset text m h
    obtain ⟨first, second, -, hsecond, rfl⟩ := followedBy_found h
    have htaken := htakes _ _ _ hsecond
    simp only [Match.append, List.length_append]
    omega
  rw [allRounds_eq (splits_blanks.followedBy hp) htakes', many_eq splits_blanks hp htakes,
    followedBy_assoc, view_optional, view_optional, view_blanks_followedBy]
  rw [Text.dropBlanks_dropBlanks]
  exact congrArg (View.mk _) (congrArg View.refusals (view_blanks_followedBy _ offset text))

theorem view_many_of_none (hp : p.Splits) (htakes : p.Takes 1)
    (h : (p.view total text).left = none) :
    (many blanks p).view total text = ⟨some text.dropBlanks, (p.view total text).refusals⟩ := by
  have hleft : (p.followedBy (blanks.followedBy p).allRounds).view total text =
      p.view total text := by
    unfold view
    rw [followedBy_eq_of_found_none (found_eq_none_of_left h)]
  rw [many_eq splits_blanks hp htakes, view_optional_of_none (by rw [hleft, h]), hleft]

/-- After one round a repetition goes on past the blanks. -/
theorem view_many_of_some (hp : p.Splits) (htakes : p.Takes 1) (htext : text.bytes ≤ total)
    (h : (p.view total text).left = some rest) :
    (many blanks p).view total text =
      ((many blanks p).view total rest).after (p.view total text).refusals := by
  obtain ⟨m, hm, rfl⟩ := Option.map_eq_some_iff.mp h
  have hround : (p.followedBy (blanks.followedBy p).allRounds).view total text =
      ((many blanks p).view total m.rest.dropBlanks).after (p.view total text).refusals := by
    unfold view
    rw [view_followedBy_of_found hm, view_allRounds hp htakes, offset_past_blanks hp htext hm]
    rfl
  have hsome : ((many blanks p).view total m.rest.dropBlanks).left ≠ none := by
    unfold view
    rw [many_eq splits_blanks hp htakes, view_optional]
    simp
  obtain ⟨last, hlast⟩ := Option.ne_none_iff_exists'.mp hsome
  have hleft : ((p.followedBy (blanks.followedBy p).allRounds).view total text).left = some last := by
    rw [hround, View.after_left, hlast]
  rw [many_eq splits_blanks hp htakes, view_optional_of_some hleft, hround,
    many_eq splits_blanks hp htakes]

end

end Reader

namespace Rule

open Reader

theorem takes_reader (r : Rule) : r.reader.Takes r.least :=
  fun offset text => r.takes_read (depth text) offset text

variable {r : Rule} {p : Reader} {total : Nat} {text rest : Text}

theorem view_conclude_of_some (h : (p.view total text).left = some rest) :
    (r.conclude p).view total text = p.view total text := by
  obtain ⟨m, hm, -⟩ := Option.map_eq_some_iff.mp h
  unfold view conclude
  by_cases hr : r.silent = true
  · simp only [hr, if_true]
  · simp only [hr, hm, Outcome.view, Bool.false_eq_true, if_false, Option.map_some]

theorem view_conclude_of_none (hr : r.silent = false) (h : (p.view total text).left = none) :
    (r.conclude p).view total text =
      ⟨none, some (Refusals.blame r (total - text.bytes) (p.view total text).refusals)⟩ := by
  have hfound := found_eq_none_of_left h
  unfold view conclude
  simp only [hr, hfound, Outcome.view, Bool.false_eq_true, if_false, Option.map_none]

theorem conclude_of_silent (hr : r.silent = true) : r.conclude p = p := by
  funext offset text
  unfold conclude
  simp only [hr, if_true]

end Rule

end HornSyntax
