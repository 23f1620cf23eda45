import HornSyntax.Proofs.Refusal

/-!
How the verdicts on readers go together: a rule over its body, two readers in
a row, an optional part and a repetition. Only the first token of a reader may
be refused together with others; once a token is taken, all refusals before it
are hidden.
-/

namespace HornSyntax

open Reader
open Refusals (Reach)

section

variable {total bound : Nat} {text place : Text} {c c' : Stage × Text} {rule : Rule}
  {rules rules' : List Rule} {v : View}
  {earlier : Option Refusals} {ends ends' : Stage → List Rule → Prop}
  {first doomed doomed' : Text → Prop} {p q : Reader}

/-- A rule sees what its body sees when refusals lie beyond its start. -/
theorem Rule.view_conclude_of_beyond (r : Rule) (htext : text.bytes ≤ total)
    (hreach : Reach total place rules (p.view total text).refusals) (hne : rules ≠ [])
    (hlt : place.bytes < text.bytes) : (r.conclude p).view total text = p.view total text := by
  cases hsilent : r.silent with
  | true => rw [Rule.conclude_of_silent hsilent]
  | false =>
    cases hleft : (p.view total text).left with
    | some rest => exact Rule.view_conclude_of_some hleft
    | none =>
      rw [Rule.view_conclude_of_none hsilent hleft, hreach.blame_of_lt hne htext hlt, ← hleft]

namespace Refused

/-- A rule does not speak for a single refusal at its start. -/
theorem conclude (h : Refused total text [rule] (p.view total text)) (r : Rule) :
    Refused total text [rule] ((r.conclude p).view total text) := by
  cases hsilent : r.silent with
  | true => rwa [Rule.conclude_of_silent hsilent]
  | false =>
    rw [Rule.view_conclude_of_none hsilent h.left, h.reach.blame_of_single]
    exact ⟨rfl, h.reach⟩

/-- A rule speaks for several refusals at its start. -/
theorem conclude_of_two_le (h : Refused total text rules (p.view total text))
    (hlength : 2 ≤ rules.length) (htext : text.bytes ≤ total) {r : Rule} (hsilent : r.silent = false)
    (hr : ¬ r.Fits text) : Refused total text [r] ((r.conclude p).view total text) := by
  rw [Rule.view_conclude_of_none hsilent h.left]
  exact ⟨rfl, h.reach.of_blame hlength htext hr⟩

theorem spaced (h : Refused total text rules (p.view total text)) (q : Reader) :
    Refused total text rules ((p.spaced q).view total text) := by
  rwa [view_spaced_of_none h.left]

theorem orElse (hp : Refused total text rules (p.view total text))
    (hq : Refused total text rules' (q.view total text)) :
    Refused total text (rules ++ rules') ((p.orElse q).view total text) := by
  rw [view_orElse_of_none hp.left]
  exact hq.after hp.reach

theorem orElse_passed (hp : Refused total text rules (p.view total text))
    (hlt : c'.2.bytes < text.bytes) (hq : Passed total c c' rules' (q.view total text)) :
    Passed total c c' rules' ((p.orElse q).view total text) := by
  rw [view_orElse_of_none hp.left]
  exact hq.after_before hp.reach hlt

theorem orElse_stopped (hp : Refused total text rules (p.view total text))
    (hq : Stopped total text.bytes c doomed (q.view total text)) :
    Stopped total text.bytes c doomed ((p.orElse q).view total text) := by
  rw [view_orElse_of_none hp.left]
  exact hq.after (Nat.le_refl _) hp.reach

end Refused

namespace Passed

theorem conclude (h : Passed total c c' rules (p.view total text)) (r : Rule) :
    Passed total c c' rules ((r.conclude p).view total text) := by
  rwa [Rule.view_conclude_of_some h.left]

theorem orElse (h : Passed total c c' rules (p.view total text)) (q : Reader) :
    Passed total c c' rules ((p.orElse q).view total text) := by
  rwa [view_orElse_of_some h.left]

end Passed

namespace Stopped

theorem left_eq_none (h : Stopped total bound c (fun _ => False) v) : v.left = none := by
  obtain ⟨c', stop, rules, -, -, -, -, hleft⟩ := h
  apply Option.eq_none_iff_forall_ne_some.mpr
  intro left hl
  exact (hleft left hl).1

theorem view_conclude (h : Stopped total text.bytes c doomed (p.view total text)) (r : Rule)
    (htext : text.bytes ≤ total) : (r.conclude p).view total text = p.view total text := by
  obtain ⟨c', stop, rules, -, hhalts, hlt, hreach, -⟩ := h
  exact Rule.view_conclude_of_beyond r htext hreach hhalts.ne_nil hlt

end Stopped

/-- At the start of a body only one rule can have been refused, so a rule reads as its body does. -/
theorem Reads.conclude (h : Reads total c rule first ends doomed (p.view total c.2)) (r : Rule)
    (hplace : c.2.bytes ≤ total) :
    Reads total c rule first ends doomed ((r.conclude p).view total c.2) := by
  cases h with
  | refused h => exact .refused (h.conclude r)
  | passed hfirst hends hlt h => exact .passed hfirst hends hlt (h.conclude r)
  | stopped hfirst h =>
    rw [h.view_conclude r hplace]
    exact .stopped hfirst h

/-- After other tokens a refused rule completes what was expected there. -/
theorem Reads.proceeds (h : Reads total c rule first ends doomed v) (hbound : c.2.bytes < bound)
    (hearlier : Reach total c.2 rules earlier)
    (hexpected : ∀ r, r ∈ rules ++ [rule] ↔ r ∈ c.1.expected) :
    Proceeds total bound c ends doomed (v.after earlier) := by
  cases h with
  | refused h => exact .stopped ((h.after hearlier).stopped hbound hexpected doomed)
  | passed _ hends hlt h => exact .passed hends (h.after_before hearlier hlt)
  | stopped _ h =>
    exact .stopped ((h.after (Nat.le_refl _) hearlier).mono (Nat.le_of_lt hbound) fun _ hd => hd)

/-- The reader takes nothing of the text: it fails there, or leaves all of it to the next. -/
def Spurns (total : Nat) (q : Reader) (kept : Text → Prop) (left : Text) : Prop :=
  (∃ rules, Refused total left rules (q.view total left)) ∨
    kept left ∧ (q.view total left).left = some left ∧
      ∃ rules, Reach total left rules (q.view total left).refusals

theorem Stopped.spaced (hp : p.Splits) (hplace : c.2.IsPlace total)
    (h : Stopped total bound c doomed ((p.view total c.2).after earlier))
    (hdoomed : ∀ left, doomed left → left.IsPlace total → Spurns total q doomed' left) :
    Stopped total bound c doomed' (((p.spaced q).view total c.2).after earlier) := by
  obtain ⟨c', place, rules, hwalk, hhalts, hlt, hreach, hleft⟩ := h
  simp only [View.after_left, View.after_refusals] at hleft hreach
  cases hp' : (p.view total c.2).left with
  | none =>
    rw [view_spaced_of_none hp']
    exact ⟨c', place, rules, hwalk, hhalts, hlt, hreach, by simp [hp']⟩
  | some left =>
    obtain ⟨hd, hleftPlace, hless⟩ := hleft left hp'
    rw [view_spaced_of_some hp hplace.bytes_le hp', View.after_after]
    rcases hdoomed left hd hleftPlace with ⟨rules', hrefused⟩ | ⟨hkept, hall, rules', hreach'⟩
    · refine ⟨c', place, rules, hwalk, hhalts, hlt, hreach.merge_earlier hrefused.reach hless, ?_⟩
      simp [hrefused.left]
    · refine ⟨c', place, rules, hwalk, hhalts, hlt, hreach.merge_earlier hreach' hless, ?_⟩
      intro left' hleft'
      obtain rfl : left = left' := Option.some.inj (hall.symm.trans hleft')
      exact ⟨hkept, hleftPlace, hless⟩

theorem Reads.spaced (hp : p.Splits) (hplace : c.2.IsPlace total)
    (h : Reads total c rule first ends doomed (p.view total c.2))
    (hq : ∀ c₁ rules earlier, ends c₁.1 rules → c₁.2.IsPlace total → c₁.2.bytes < c.2.bytes →
      Reach total c₁.2 rules earlier →
        Proceeds total c.2.bytes c₁ ends' doomed' ((q.view total c₁.2).after earlier))
    (hdoomed : ∀ left, doomed left → left.IsPlace total → Spurns total q doomed' left) :
    Reads total c rule first ends' doomed' ((p.spaced q).view total c.2) := by
  cases h with
  | refused h => exact .refused (h.spaced q)
  | @passed c' rules hfirst hends hlt h =>
    rw [view_spaced_of_some hp hplace.bytes_le h.left]
    cases hq c' rules _ hends (h.walk.isPlace hplace) hlt h.reach with
    | passed hends' h' =>
      exact .passed hfirst hends' (Nat.lt_of_le_of_lt h'.walk.bytes_le hlt) (h'.of_walk h.walk)
    | stopped h' => exact .stopped hfirst (h'.of_walk h.walk)
  | stopped hfirst h =>
    rw [← View.after_none (p.view total c.2)] at h
    rw [← View.after_none (Reader.view _ total c.2)]
    exact .stopped hfirst (h.spaced hp hplace hdoomed)

theorem Proceeds.spaced (hp : p.Splits) (hplace : c.2.IsPlace total)
    (h : Proceeds total bound c ends doomed ((p.view total c.2).after earlier))
    (hq : ∀ c₁ rules earlier, ends c₁.1 rules → c₁.2.IsPlace total → c₁.2.bytes ≤ c.2.bytes →
      Reach total c₁.2 rules earlier →
        Proceeds total bound c₁ ends' doomed' ((q.view total c₁.2).after earlier))
    (hdoomed : ∀ left, doomed left → left.IsPlace total → Spurns total q doomed' left) :
    Proceeds total bound c ends' doomed' (((p.spaced q).view total c.2).after earlier) := by
  cases h with
  | @passed c' rules hends h =>
    rw [view_spaced_of_some hp hplace.bytes_le h.left, View.after_after]
    exact .of_walk h.walk (hq c' rules _ hends (h.walk.isPlace hplace) h.walk.bytes_le h.reach)
  | stopped h => exact .stopped (h.spaced hp hplace hdoomed)

theorem Stopped.optional (hplace : c.2.IsPlace total) (hfirst : first c.2)
    (h : Stopped total c.2.bytes c doomed (p.view total c.2)) :
    Stopped total c.2.bytes c (fun left => doomed left ∨ first left)
      (p.optional.view total c.2) := by
  obtain ⟨c', place, rules', hwalk, hhalts, hlt, hreach, hleft⟩ := h
  cases hp' : (p.view total c.2).left with
  | none =>
    rw [view_optional_of_none hp', hplace.dropBlanks_eq]
    refine ⟨c', place, rules', hwalk, hhalts, hlt, hreach, ?_⟩
    rintro _ ⟨⟩
    exact ⟨Or.inr hfirst, hplace, hlt⟩
  | some left =>
    rw [view_optional_of_some hp']
    refine ⟨c', place, rules', hwalk, hhalts, hlt, hreach, ?_⟩
    intro left' hleft'
    obtain ⟨hd, hrest⟩ := hleft left' hleft'
    exact ⟨Or.inl hd, hrest⟩

theorem Stopped.many (hp : p.Splits) (htakes : p.Takes 1) (hplace : c.2.IsPlace total)
    (hfirst : first c.2) (h : Stopped total c.2.bytes c doomed (p.view total c.2))
    (hdoomed : ∀ left, doomed left → left.IsPlace total →
      ∃ rules, Refused total left rules (p.view total left)) :
    Stopped total c.2.bytes c (fun left => doomed left ∨ first left)
      ((Reader.many blanks p).view total c.2) := by
  obtain ⟨c', place, rules', hwalk, hhalts, hlt, hreach, hleft⟩ := h
  cases hp' : (p.view total c.2).left with
  | none =>
    rw [view_many_of_none hp htakes hp', hplace.dropBlanks_eq]
    refine ⟨c', place, rules', hwalk, hhalts, hlt, hreach, ?_⟩
    rintro _ ⟨⟩
    exact ⟨Or.inr hfirst, hplace, hlt⟩
  | some left =>
    obtain ⟨hd, hleftPlace, hless⟩ := hleft left hp'
    obtain ⟨rules, hrefused⟩ := hdoomed left hd hleftPlace
    rw [view_many_of_some hp htakes hplace.bytes_le hp', view_many_of_none hp htakes hrefused.left,
      hleftPlace.dropBlanks_eq]
    have hmerge := hreach.merge_earlier hrefused.reach hless
    refine ⟨c', place, rules', hwalk, hhalts, hlt, hmerge, ?_⟩
    rintro _ ⟨⟩
    exact ⟨Or.inl hd, hleftPlace, hless⟩

/-- An optional part that is not there leaves the stage as it is. -/
theorem Reads.optional (hplace : c.2.IsPlace total) (hbound : c.2.bytes < bound)
    (h : Reads total c rule first ends doomed (p.view total c.2))
    (hearlier : Reach total c.2 rules earlier) :
    Proceeds total bound c (fun s rules' => ends s rules' ∨ s = c.1 ∧ rules' = rules ++ [rule])
      (fun left => doomed left ∨ first left) ((p.optional.view total c.2).after earlier) := by
  cases h with
  | refused h =>
    rw [view_optional_of_none h.left, hplace.dropBlanks_eq]
    exact .passed (Or.inr ⟨rfl, rfl⟩) ⟨rfl, .refl, hearlier.merge h.reach⟩
  | passed hfirst hends hlt h =>
    rw [view_optional_of_some h.left]
    exact .passed (Or.inl hends) (h.after_before hearlier hlt)
  | stopped hfirst h =>
    have hoptional := h.optional hplace hfirst
    have hafter := hoptional.after (Nat.le_refl _) hearlier
    exact .stopped (hafter.mono (Nat.le_of_lt hbound) fun _ hd => hd)

/-- A repetition goes on as long as its rounds pass, and in the end its round is
refused once, unless one of the rounds stops. -/
theorem Reads.many (hp : p.Splits) (htakes : p.Takes 1)
    (hround : ∀ c rules, ends c.1 rules → c.2.IsPlace total → c.2.bytes < bound →
      Reads total c rule first ends doomed (p.view total c.2))
    (hdoomed : ∀ left, doomed left → left.IsPlace total →
      ∃ rules, Refused total left rules (p.view total left))
    (hends : ends c.1 rules) (hplace : c.2.IsPlace total) (hbound : c.2.bytes < bound)
    (hearlier : Reach total c.2 rules earlier) :
    Proceeds total bound c (fun s rules' => ∃ rules, ends s rules ∧ rules' = rules ++ [rule])
      (fun left => doomed left ∨ first left)
      (((Reader.many blanks p).view total c.2).after earlier) := by
  induction hn : c.2.bytes using Nat.strongRecOn generalizing c rules earlier with
  | ind n ih =>
    cases hround c rules hends hplace hbound with
    | refused h =>
      rw [view_many_of_none hp htakes h.left, hplace.dropBlanks_eq]
      exact .passed ⟨rules, hends, rfl⟩ ⟨rfl, .refl, hearlier.merge h.reach⟩
    | @passed c' rules' hfirst hends' hlt h =>
      rw [view_many_of_some hp htakes hplace.bytes_le h.left, View.after_after]
      exact .of_walk h.walk (ih c'.2.bytes (by omega) hends' (h.walk.isPlace hplace) (by omega)
        (hearlier.merge_later h.reach hlt) rfl)
    | stopped hfirst h =>
      have hmany := h.many hp htakes hplace hfirst hdoomed
      have hafter := hmany.after (Nat.le_refl _) hearlier
      exact .stopped (hafter.mono (Nat.le_of_lt hbound) fun _ hd => hd)

end

end HornSyntax
