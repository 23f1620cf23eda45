import HornSyntax.Proofs.View
import HornSyntax.Proofs.Walk

/-!
Where a reading got stuck and what it refused there. Reading either refuses its
first token, or passes on to a later stage, or stops: then the walk from its
start has reached a place from which no token leads on, and the refusals there
are what the stage expects. What a stopped reader leaves, if anything, begins
with a token that nothing after it takes, so nothing later hides the refusals.
-/

namespace HornSyntax

/-- A quotation mark that no text follows. -/
def Text.IsBareQuote (text : Text) : Prop :=
  ∃ rest, text = '\'' :: rest ∧ ∀ c ∈ rest.head?, CharacterClass.isQuotable c = false

/-- Whether what an error lists under a rule is at the front of a text. A bare
quotation mark counts as an atom and as a term, since its error is behind it. -/
def Rule.Fits : Rule → Text → Prop
  | .endOfInput, text => text = []
  | .string, text => ∃ c ∈ text.head?, CharacterClass.isQuotable c = true
  | r, text => (r = .atom ∨ r = .term) ∧ text.IsBareQuote ∨
      ∃ (t : Token) (rest : Text), t.wellFormed = true ∧ t.rule = r ∧ text = t.text ++ rest

/-- A place in a text of `total` bytes where a token can begin, given by what is left there. -/
structure Text.IsPlace (total : Nat) (text : Text) : Prop where
  bytes_le : text.bytes ≤ total
  dropBlanks_eq : text.dropBlanks = text

theorem Step.bytes_lt {c c' : Stage × Text} (h : Step c c') : c'.2.bytes < c.2.bytes := by
  cases h with
  | @take s s' t rest hnext hwf hends =>
    obtain ⟨d, more, htext, -⟩ := Token.exists_text_eq_cons hwf
    have hpos := d.utf8Size_pos
    have hle := Text.bytes_dropBlanks_le rest
    simp only [htext, Text.bytes_append, Text.bytes_cons]
    omega

theorem Walk.bytes_le {c c' : Stage × Text} (h : Walk c c') : c'.2.bytes ≤ c.2.bytes := by
  obtain ⟨used, ts, hused, -⟩ := h.exists_spelled
  rw [hused, Text.bytes_append]
  omega

theorem Walk.isPlace {total : Nat} {c c' : Stage × Text} (h : Walk c c')
    (hc : c.2.IsPlace total) : c'.2.IsPlace total :=
  ⟨Nat.le_trans h.bytes_le hc.bytes_le, h.dropBlanks_eq hc.dropBlanks_eq⟩

namespace Refusals

def rulesAt (total : Nat) (place : Text) : Option Refusals → List Rule
  | none => []
  | some f => if f.position + place.bytes = total then f.rules else []

/-- No refusal lies beyond a place, and those at the place are of these rules. -/
structure Reach (total : Nat) (place : Text) (rules : List Rule) (r : Option Refusals) : Prop where
  position_le : ∀ f, r = some f → f.position + place.bytes ≤ total
  rulesAt_eq : rulesAt total place r = rules
  unfit : ∀ q ∈ rules, ¬ q.Fits place

namespace Reach

variable {total : Nat} {place later : Text} {rules rules' : List Rule} {r r' : Option Refusals}

theorem none (total : Nat) (place : Text) : Reach total place [] none where
  position_le := by simp
  rulesAt_eq := rfl
  unfit := by simp

theorem merge (h : Reach total place rules r) (h' : Reach total place rules' r') :
    Reach total place (rules ++ rules') (Refusals.merge r r') := by
  have hle := h.position_le
  have hle' := h'.position_le
  refine ⟨?_, ?_, ?_⟩
  · intro f hf
    rcases r with _ | g <;> rcases r' with _ | g' <;> grind [Refusals.merge]
  · rw [← h.rulesAt_eq, ← h'.rulesAt_eq]
    rcases r with _ | g <;> rcases r' with _ | g' <;> grind [Refusals.merge, rulesAt]
  · intro q hq
    rcases List.mem_append.mp hq with hmem | hmem
    · exact h.unfit q hmem
    · exact h'.unfit q hmem

theorem before (h : Reach total place rules r) (hlt : later.bytes < place.bytes) :
    Reach total later [] r where
  position_le f hf := by
    have := h.position_le f hf
    omega
  rulesAt_eq := by
    cases r with
    | none => rfl
    | some f =>
      have := h.position_le f rfl
      exact if_neg (by omega)
  unfit := by simp

/-- Refusals further on hide those before them. -/
theorem merge_later (h : Reach total place rules r) (h' : Reach total later rules' r')
    (hlt : later.bytes < place.bytes) : Reach total later rules' (Refusals.merge r r') :=
  (h.before hlt).merge h'

theorem merge_earlier (h : Reach total later rules r) (h' : Reach total place rules' r')
    (hlt : later.bytes < place.bytes) : Reach total later rules (Refusals.merge r r') := by
  simpa using h.merge (h'.before hlt)

theorem exists_some (h : Reach total place rules r) (hne : rules ≠ []) :
    ∃ f, r = some f ∧ f.position + place.bytes = total ∧ f.rules = rules := by
  have heq := h.rulesAt_eq
  cases r with
  | none => exact absurd heq.symm hne
  | some f =>
    by_cases hposition : f.position + place.bytes = total
    · exact ⟨f, rfl, hposition, by rwa [rulesAt, if_pos hposition] at heq⟩
    · rw [rulesAt, if_neg hposition] at heq
      exact absurd heq.symm hne

/-- A rule does not speak for refusals further on than its start. -/
theorem blame_of_lt {text : Text} (h : Reach total place rules r) (hne : rules ≠ [])
    (htext : text.bytes ≤ total) (hlt : place.bytes < text.bytes) (q : Rule) :
    some (blame q (total - text.bytes) r) = r := by
  obtain ⟨f, rfl, hposition, -⟩ := h.exists_some hne
  have hfurther : total - text.bytes < f.position := by omega
  simp [blame, hfurther]

theorem blame_of_single {q' : Rule} (h : Reach total place [q'] r) (q : Rule) :
    some (blame q (total - place.bytes) r) = r := by
  obtain ⟨f, rfl, -, hrules⟩ := h.exists_some (List.cons_ne_nil _ _)
  simp [blame, hrules]

theorem of_blame_none {q : Rule} (hplace : place.bytes ≤ total) (hq : ¬ q.Fits place) :
    Reach total place [q] (some (blame q (total - place.bytes) Option.none)) where
  position_le f hf := by
    obtain rfl := Option.some.inj hf
    simp only [blame]
    omega
  rulesAt_eq := if_pos (by simp only [blame]; omega)
  unfit := by simpa using hq

/-- A rule speaks for several refusals at its start. -/
theorem of_blame {q : Rule} (h : Reach total place rules r) (hlength : 2 ≤ rules.length)
    (hplace : place.bytes ≤ total) (hq : ¬ q.Fits place) :
    Reach total place [q] (some (blame q (total - place.bytes) r)) := by
  obtain ⟨f, rfl, hposition, rfl⟩ := h.exists_some (by rintro rfl; simp at hlength)
  have hhere : ¬ total - place.bytes < f.position := by omega
  have hblame : blame q (total - place.bytes) (some f) =
      blame q (total - place.bytes) Option.none := by
    have hmany : f.rules.length ≠ 1 := by omega
    simp [blame, hhere, hmany]
  rw [hblame]
  exact of_blame_none hplace hq

end Reach

end Refusals

open Refusals (Reach)

/-- One stage to end at, and what has been refused there. -/
def Stage.EndsAt (s : Stage) (refused : List Rule) (e : Stage) (rules : List Rule) : Prop :=
  e = s ∧ rules = refused

/-- A stage where an atom may come, be it a name or an argument. -/
def Stage.TakesAtom (s : Stage) : Prop := ∀ a, ∃ s', s.next (s.atomToken a) = some s'

/-- The place and the rules of an error for a walk that cannot go on: either
the place it came to and what its stage expects there, or the inside of a
quotation that holds no text. -/
inductive Halts : Stage × Text → Text → List Rule → Prop
  | outside {s : Stage} {text : Text} {rules : List Rule} (h : ∀ r, r ∈ rules ↔ r ∈ s.expected) :
      Halts (s, text) text rules
  | inside {s : Stage} {rest : Text} {rules : List Rule} (hs : s.TakesAtom)
      (h : ∀ r, r ∈ rules ↔ r = .string) : Halts (s, '\'' :: rest) rest rules

theorem Halts.congr {c : Stage × Text} {place : Text} {rules rules' : List Rule}
    (h : Halts c place rules) (hrules : ∀ r, r ∈ rules' ↔ r ∈ rules) : Halts c place rules' := by
  cases h with
  | outside h => exact .outside fun r => (hrules r).trans (h r)
  | inside hs h => exact .inside hs fun r => (hrules r).trans (h r)

theorem Halts.ne_nil {c : Stage × Text} {place : Text} {rules : List Rule}
    (h : Halts c place rules) : rules ≠ [] := by
  cases h with
  | @outside s _ _ h =>
    rintro rfl
    apply s.expected_ne_nil
    apply List.eq_nil_iff_forall_not_mem.mpr
    intro r hr
    simpa using (h r).mpr hr
  | inside _ h =>
    rintro rfl
    simpa using (h .string).mpr rfl

/-- Nothing is taken, and the rules are refused at the place. -/
structure Refused (total : Nat) (place : Text) (rules : List Rule) (v : View) : Prop where
  left : v.left = none
  reach : Reach total place rules v.refusals

/-- Tokens are taken that lead from one place to another, where the rules are
refused that would have gone on. -/
structure Passed (total : Nat) (c c' : Stage × Text) (rules : List Rule) (v : View) : Prop where
  left : v.left = some c'.2
  walk : Walk c c'
  reach : Reach total c'.2 rules v.refusals

/-- Reading is stuck at fewer than `bound` bytes from the end. It may still
leave a text, but only one that begins in a way that nothing after it takes. -/
def Stopped (total bound : Nat) (c : Stage × Text) (doomed : Text → Prop) (v : View) : Prop :=
  ∃ c' place rules, Walk c c' ∧ Halts c' place rules ∧ place.bytes < bound ∧
    Reach total place rules v.refusals ∧
    ∀ left, v.left = some left → doomed left ∧ left.IsPlace total ∧ place.bytes < left.bytes

/-- Reading from a stage passes on to one of the given ends, or stops. -/
inductive Proceeds (total bound : Nat) (c : Stage × Text) (ends : Stage → List Rule → Prop)
    (doomed : Text → Prop) (v : View) : Prop
  | passed {c' : Stage × Text} {rules : List Rule} (hends : ends c'.1 rules)
      (h : Passed total c c' rules v)
  | stopped (h : Stopped total bound c doomed v)

/-- Reading a rule from a stage refuses the rule at once or else takes a first
token, and then passes on or stops. -/
inductive Reads (total : Nat) (c : Stage × Text) (rule : Rule) (first : Text → Prop)
    (ends : Stage → List Rule → Prop) (doomed : Text → Prop) (v : View) : Prop
  | refused (h : Refused total c.2 [rule] v)
  | passed {c' : Stage × Text} {rules : List Rule} (hfirst : first c.2) (hends : ends c'.1 rules)
      (hlt : c'.2.bytes < c.2.bytes) (h : Passed total c c' rules v)
  | stopped (hfirst : first c.2) (h : Stopped total c.2.bytes c doomed v)

section

variable {total bound : Nat} {c c' c'' : Stage × Text} {rules rules' : List Rule} {v w : View}
  {earlier : Option Refusals} {ends ends' : Stage → List Rule → Prop}
  {first doomed doomed' : Text → Prop} {place : Text}

namespace Refused

theorem after (h : Refused total place rules' v) (hearlier : Reach total place rules earlier) :
    Refused total place (rules ++ rules') (v.after earlier) :=
  ⟨h.left, hearlier.merge h.reach⟩

/-- Where everything expected has been refused, reading is stuck. -/
theorem stopped (h : Refused total c.2 rules v) (hbound : c.2.bytes < bound)
    (hrules : ∀ r, r ∈ rules ↔ r ∈ c.1.expected) (doomed : Text → Prop) :
    Stopped total bound c doomed v := by
  refine ⟨c, c.2, rules, .refl, .outside hrules, hbound, h.reach, ?_⟩
  rw [h.left]
  simp

end Refused

namespace Passed

theorem after (h : Passed total c c' rules' v) (hearlier : Reach total c'.2 rules earlier) :
    Passed total c c' (rules ++ rules') (v.after earlier) :=
  ⟨h.left, h.walk, hearlier.merge h.reach⟩

theorem after_before (h : Passed total c c' rules v) (hearlier : Reach total place rules' earlier)
    (hlt : c'.2.bytes < place.bytes) : Passed total c c' rules (v.after earlier) :=
  ⟨h.left, h.walk, hearlier.merge_later h.reach hlt⟩

theorem of_walk (hwalk : Walk c c') (h : Passed total c' c'' rules v) :
    Passed total c c'' rules v :=
  ⟨h.left, hwalk.trans h.walk, h.reach⟩

end Passed

namespace Stopped

theorem after (h : Stopped total bound c doomed v) (hbound : bound ≤ place.bytes)
    (hearlier : Reach total place rules earlier) :
    Stopped total bound c doomed (v.after earlier) := by
  obtain ⟨c', stop, rules', hwalk, hhalts, hlt, hreach, hleft⟩ := h
  exact ⟨c', stop, rules', hwalk, hhalts, hlt, hearlier.merge_later hreach (by omega), hleft⟩

theorem of_walk (hwalk : Walk c c') (h : Stopped total bound c' doomed v) :
    Stopped total bound c doomed v := by
  obtain ⟨c'', stop, rules', hwalk', hrest⟩ := h
  exact ⟨c'', stop, rules', hwalk.trans hwalk', hrest⟩

theorem mono (h : Stopped total bound c doomed v) {bound' : Nat} (hbound : bound ≤ bound')
    (hdoomed : ∀ text, doomed text → doomed' text) : Stopped total bound' c doomed' v := by
  obtain ⟨c', stop, rules', hwalk, hhalts, hlt, hreach, hleft⟩ := h
  refine ⟨c', stop, rules', hwalk, hhalts, by omega, hreach, ?_⟩
  intro left hl
  obtain ⟨hd, hplace, hless⟩ := hleft left hl
  exact ⟨hdoomed left hd, hplace, hless⟩

end Stopped

namespace Proceeds

theorem mono (h : Proceeds total bound c ends doomed v)
    (hends : ∀ e rules, ends e rules → ends' e rules)
    (hdoomed : ∀ text, doomed text → doomed' text) :
    Proceeds total bound c ends' doomed' v := by
  cases h with
  | passed h' h => exact .passed (hends _ _ h') h
  | stopped h => exact .stopped (h.mono (Nat.le_refl _) hdoomed)

theorem of_walk (hwalk : Walk c c') (h : Proceeds total bound c' ends doomed v) :
    Proceeds total bound c ends doomed v := by
  cases h with
  | passed hends h => exact .passed hends (h.of_walk hwalk)
  | stopped h => exact .stopped (h.of_walk hwalk)

end Proceeds

end

end HornSyntax
