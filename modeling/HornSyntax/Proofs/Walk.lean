import HornSyntax.Proofs.Stage
import Mathlib.Logic.Relation

/-!
Reading a text token by token. A step takes the longest token at the front of
the text, goes on to the next stage and leaves out the blanks that follow. The
stage and the first character decide the token, so there is at most one way to
go on from any place.
-/

namespace HornSyntax

open CharacterClass

namespace Text

theorem takeWhile_append_eq {p : Char → Bool} {run rest : Text} (hrun : run.all p = true)
    (hrest : ∀ c ∈ rest.head?, p c = false) : (run ++ rest).takeWhile p = run := by
  rw [List.takeWhile_append_of_pos (List.all_eq_true.mp hrun)]
  cases rest with
  | nil => simp
  | cons c more => simp [hrest c rfl]

theorem dropWhile_append_eq {p : Char → Bool} {run rest : Text} (hrun : run.all p = true)
    (hrest : ∀ c ∈ rest.head?, p c = false) : (run ++ rest).dropWhile p = rest := by
  rw [List.dropWhile_append_of_pos (List.all_eq_true.mp hrun)]
  cases rest with
  | nil => rfl
  | cons c more => simp [hrest c rfl]

end Text

/-- How a token begins. -/
inductive Opening where
  | lower
  | upper
  | digit
  | mark (c : Char)
  deriving DecidableEq

def Opening.ofChar (c : Char) : Opening :=
  if isLower c then .lower else if isUpper c then .upper else if isDigit c then .digit else .mark c

namespace Atom

def opening : Atom → Opening
  | name _ => .lower
  | quoted _ => .mark '\''

/-- Whether a character right after an atom would still belong to it. -/
def goesOn : Atom → Char → Bool
  | name _, c => isAlnum c
  | quoted _, _ => false

end Atom

namespace Token

def opening : Token → Opening
  | name a => a.opening
  | symbol a => a.opening
  | var _ => .upper
  | numeral _ => .digit
  | neck => .mark ':'
  | queryStart => .mark '?'
  | dot => .mark '.'
  | comma => .mark ','
  | lparen => .mark '('
  | rparen => .mark ')'

def goesOn : Token → Char → Bool
  | name a, c => a.goesOn c
  | symbol a, c => a.goesOn c
  | var _, c => isAlnum c
  | numeral _, c => isDigit c
  | _, _ => false

def EndsBefore (t : Token) (rest : Text) : Prop := ∀ c ∈ rest.head?, t.goesOn c = false

end Token

namespace CharacterClass

theorem isLower_iff {c : Char} : isLower c = true ↔ 97 ≤ c.toNat ∧ c.toNat ≤ 122 := by
  show (decide (97 ≤ c.val) && decide (c.val ≤ 122)) = true ↔ _
  simp only [Bool.and_eq_true, decide_eq_true_eq, UInt32.le_iff_toNat_le]
  rfl

theorem isDigit_iff {c : Char} : isDigit c = true ↔ 48 ≤ c.toNat ∧ c.toNat ≤ 57 := by
  show (decide (48 ≤ c.val) && decide (c.val ≤ 57)) = true ↔ _
  simp only [Bool.and_eq_true, decide_eq_true_eq, UInt32.le_iff_toNat_le]
  rfl

theorem isUpper_iff {c : Char} : isUpper c = true ↔ (65 ≤ c.toNat ∧ c.toNat ≤ 90) ∨ c = '_' := by
  have hupper : c.isUpper = true ↔ 65 ≤ c.toNat ∧ c.toNat ≤ 90 := by
    show decide (65 ≤ c.val ∧ c.val ≤ 90) = true ↔ _
    simp only [decide_eq_true_eq, UInt32.le_iff_toNat_le]
    rfl
  rw [isUpper, Bool.or_eq_true, hupper, beq_iff_eq]

theorem isLower_eq_false_of_isUpper {c : Char} (h : isUpper c = true) : isLower c = false := by
  apply Bool.eq_false_iff.mpr
  intro hlower
  have hrange := isLower_iff.mp hlower
  rcases isUpper_iff.mp h with hupper | rfl
  · omega
  · exact absurd hrange (by decide)

theorem isLower_eq_false_of_isDigit {c : Char} (h : isDigit c = true) : isLower c = false := by
  have hdigit := isDigit_iff.mp h
  apply Bool.eq_false_iff.mpr
  intro hlower
  have hrange := isLower_iff.mp hlower
  omega

theorem isUpper_eq_false_of_isDigit {c : Char} (h : isDigit c = true) : isUpper c = false := by
  have hdigit := isDigit_iff.mp h
  apply Bool.eq_false_iff.mpr
  intro hupper
  rcases isUpper_iff.mp hupper with hrange | rfl
  · omega
  · exact absurd hdigit (by decide)

theorem isAlnum_of_isLower {c : Char} (h : isLower c = true) : isAlnum c = true := by
  simp [isAlnum, h]

theorem isAlnum_of_isUpper {c : Char} (h : isUpper c = true) : isAlnum c = true := by
  simp [isAlnum, h]

theorem isAlnum_of_isDigit {c : Char} (h : isDigit c = true) : isAlnum c = true := by
  simp [isAlnum, h]

theorem isAlnum_eq_false_of_isBlank {c : Char} (h : isBlank c = true) : isAlnum c = false := by
  simp only [isBlank, List.contains_iff_mem, List.mem_cons, List.not_mem_nil, or_false] at h
  rcases h with rfl | rfl | rfl | rfl | rfl <;> decide

end CharacterClass

namespace Opening

theorem ofChar_of_isLower {c : Char} (h : isLower c = true) : ofChar c = .lower := by
  rw [ofChar, if_pos h]

theorem ofChar_of_isUpper {c : Char} (h : isUpper c = true) : ofChar c = .upper := by
  simp [ofChar, isLower_eq_false_of_isUpper h, h]

theorem ofChar_of_isDigit {c : Char} (h : isDigit c = true) : ofChar c = .digit := by
  simp [ofChar, isLower_eq_false_of_isDigit h, isUpper_eq_false_of_isDigit h, h]

theorem ofChar_of_isBlank {c : Char} (h : isBlank c = true) : ofChar c = .mark c := by
  simp only [isBlank, List.contains_iff_mem, List.mem_cons, List.not_mem_nil, or_false] at h
  rcases h with rfl | rfl | rfl | rfl | rfl <;> decide

/-- Letters and digits open no mark. -/
theorem isAlnum_eq_false_of_ofChar {c d : Char} (h : ofChar c = .mark d) : isAlnum c = false := by
  unfold ofChar at h
  split at h
  · cases h
  · split at h
    · cases h
    · split at h
      · cases h
      · simp_all [isAlnum]

end Opening

namespace Token

/-- The first character of a token shows how it begins. -/
theorem exists_text_eq_cons {t : Token} (h : t.wellFormed = true) :
    ∃ c rest, t.text = c :: rest ∧ Opening.ofChar c = t.opening := by
  have hquote : Opening.ofChar '\'' = .mark '\'' := by decide
  have hrun : ∀ {run : Text} {first more : Char → Bool}, run.isRun first more = true →
      ∃ c rest, run = c :: rest ∧ first c = true := by
    intro run first more hrun
    cases run with
    | nil => simp [Text.isRun] at hrun
    | cons c rest => exact ⟨c, rest, rfl, (Bool.and_eq_true_iff.mp hrun).1⟩
  cases t with
  | name a =>
    cases a with
    | name letters =>
      obtain ⟨c, rest, rfl, hc⟩ := hrun h
      exact ⟨c, rest, rfl, Opening.ofChar_of_isLower hc⟩
    | quoted letters => exact ⟨'\'', _, rfl, hquote⟩
  | symbol a =>
    cases a with
    | name letters =>
      obtain ⟨c, rest, rfl, hc⟩ := hrun h
      exact ⟨c, rest, rfl, Opening.ofChar_of_isLower hc⟩
    | quoted letters => exact ⟨'\'', _, rfl, hquote⟩
  | var letters =>
    obtain ⟨c, rest, rfl, hc⟩ := hrun h
    exact ⟨c, rest, rfl, Opening.ofChar_of_isUpper hc⟩
  | numeral digits =>
    obtain ⟨c, rest, rfl, hc⟩ := hrun h
    exact ⟨c, rest, rfl, Opening.ofChar_of_isDigit hc⟩
  | neck => exact ⟨':', _, rfl, by decide⟩
  | queryStart => exact ⟨'?', _, rfl, by decide⟩
  | dot => exact ⟨'.', _, rfl, by decide⟩
  | comma => exact ⟨',', _, rfl, by decide⟩
  | lparen => exact ⟨'(', _, rfl, by decide⟩
  | rparen => exact ⟨')', _, rfl, by decide⟩

theorem text_ne_nil {t : Token} (h : t.wellFormed = true) : t.text ≠ [] := by
  obtain ⟨c, rest, htext, -⟩ := exists_text_eq_cons h
  simp [htext]

theorem isBlank_eq_false_of_opening {t : Token} {c : Char} (h : t.opening = .mark c) :
    isBlank c = false := by
  rcases t with ⟨⟨⟩⟩ | ⟨⟨⟩⟩ | _ | _ | _ | _ | _ | _ | _ | _ <;> cases h <;> rfl

theorem isBlank_eq_false_of_mem_head? {t : Token} (h : t.wellFormed = true) (rest : Text) :
    ∀ c ∈ (t.text ++ rest).head?, isBlank c = false := by
  obtain ⟨c, more, htext, hopen⟩ := exists_text_eq_cons h
  intro d hd
  obtain rfl : c = d := by simpa [htext] using hd
  cases hblank : isBlank c with
  | false => rfl
  | true =>
    rw [Opening.ofChar_of_isBlank hblank] at hopen
    exact absurd hblank (by simp [isBlank_eq_false_of_opening hopen.symm])

theorem isAlnum_of_goesOn {t : Token} {c : Char} (h : t.goesOn c = true) : isAlnum c = true := by
  rcases t with ⟨⟨⟩⟩ | ⟨⟨⟩⟩ | _ | _ | _ | _ | _ | _ | _ | _ <;>
    simp_all [goesOn, Atom.goesOn, isAlnum]

theorem dropBlanks_text_append {t : Token} (h : t.wellFormed = true) (rest : Text) :
    Text.dropBlanks (t.text ++ rest) = t.text ++ rest :=
  Text.dropBlanks_eq_self (isBlank_eq_false_of_mem_head? h rest)

end Token

namespace Stage

/-- An atom is the name of a predicate unless an argument has to come. -/
def atomToken : Stage → Atom → Token
  | argument _ _, a => .symbol a
  | _, a => .name a

/-- The token at the front of a text, and what follows it. -/
def front? (s : Stage) : Text → Option (Token × Text)
  | [] => none
  | c :: tail =>
    match Opening.ofChar c with
    | .lower => some (s.atomToken (.name (c :: tail.takeWhile isAlnum)), tail.dropWhile isAlnum)
    | .upper => some (.var (c :: tail.takeWhile isAlnum), tail.dropWhile isAlnum)
    | .digit => some (.numeral (c :: tail.takeWhile isDigit), tail.dropWhile isDigit)
    | .mark '\'' =>
      some (s.atomToken (.quoted (tail.takeWhile isQuotable)), (tail.dropWhile isQuotable).tail)
    | .mark ':' => some (.neck, tail.tail)
    | .mark '?' => some (.queryStart, tail.tail)
    | .mark '.' => some (.dot, tail)
    | .mark ',' => some (.comma, tail)
    | .mark '(' => some (.lparen, tail)
    | .mark ')' => some (.rparen, tail)
    | .mark _ => none

theorem atomToken_eq_name {s s' : Stage} {a : Atom} (h : s.next (.name a) = some s') (b : Atom) :
    s.atomToken b = .name b := by
  cases s <;> first | rfl | cases h

theorem atomToken_eq_symbol {s s' : Stage} {a : Atom} (h : s.next (.symbol a) = some s')
    (b : Atom) : s.atomToken b = .symbol b := by
  rcases s with _ | _ | ⟨⟨⟩⟩ | _ | ⟨_, _, ⟨⟩⟩ | _ <;> first | rfl | cases h

theorem front?_atom (s : Stage) {a : Atom} {rest : Text} (hwf : a.wellFormed = true)
    (hends : ∀ c ∈ rest.head?, a.goesOn c = false) :
    s.front? (a.text ++ rest) = some (s.atomToken a, rest) := by
  cases a with
  | name letters =>
    cases letters with
    | nil => cases hwf
    | cons c tail =>
      obtain ⟨hc, htail⟩ := Bool.and_eq_true_iff.mp hwf
      simp only [front?, Atom.text, List.cons_append, Opening.ofChar_of_isLower hc,
        Text.takeWhile_append_eq htail hends, Text.dropWhile_append_eq htail hends]
  | quoted letters =>
    have hall : letters.all isQuotable = true := by
      cases letters with
      | nil => rfl
      | cons c tail => simpa [Atom.wellFormed, Text.isRun] using hwf
    have hquote : ∀ c ∈ ('\'' :: rest).head?, isQuotable c = false := by
      rintro _ ⟨⟩
      decide
    have hopen : Opening.ofChar '\'' = .mark '\'' := by decide
    simp only [front?, Atom.text, List.cons_append, hopen, List.append_assoc, List.nil_append,
      Text.takeWhile_append_eq hall hquote, Text.dropWhile_append_eq hall hquote, List.tail_cons]

/-- A token at the front of a text that cannot go on is found there. -/
theorem front?_text_append {s s' : Stage} {t : Token} {rest : Text} (hnext : s.next t = some s')
    (hwf : t.wellFormed = true) (hends : t.EndsBefore rest) :
    s.front? (t.text ++ rest) = some (t, rest) := by
  cases t with
  | name a =>
    have hfront := front?_atom s hwf hends
    rwa [atomToken_eq_name hnext a] at hfront
  | symbol a =>
    have hfront := front?_atom s hwf hends
    rwa [atomToken_eq_symbol hnext a] at hfront
  | var letters =>
    cases letters with
    | nil => cases hwf
    | cons c tail =>
      obtain ⟨hc, htail⟩ := Bool.and_eq_true_iff.mp hwf
      simp only [front?, Token.text, List.cons_append, Opening.ofChar_of_isUpper hc,
        Text.takeWhile_append_eq htail hends, Text.dropWhile_append_eq htail hends]
  | numeral digits =>
    cases digits with
    | nil => cases hwf
    | cons c tail =>
      obtain ⟨hc, htail⟩ := Bool.and_eq_true_iff.mp hwf
      simp only [front?, Token.text, List.cons_append, Opening.ofChar_of_isDigit hc,
        Text.takeWhile_append_eq htail hends, Text.dropWhile_append_eq htail hends]
  | neck => rfl
  | queryStart => rfl
  | dot => rfl
  | comma => rfl
  | lparen => rfl
  | rparen => rfl

/-- After a token that could go on only a mark can come. -/
theorem exists_opening_eq_mark {s s₁ s₂ : Stage} {t u : Token} {c : Char}
    (ht : s.next t = some s₁) (hgo : t.goesOn c = true) (hu : s₁.next u = some s₂) :
    ∃ d, u.opening = .mark d := by
  have hs : (∃ place, s₁ = predicateEnd place) ∨
      ∃ place depth bare, s₁ = argumentEnd place depth bare := by
    rcases s with _ | _ | ⟨⟨⟩⟩ | _ | ⟨_, _, ⟨⟩⟩ | _ <;> cases t <;>
      first
        | cases ht; exact Or.inl ⟨_, rfl⟩
        | cases ht; exact Or.inr ⟨_, _, _, rfl⟩
        | cases hgo
        | cases ht
  rcases hs with ⟨⟨⟩, rfl⟩ | ⟨place, depth, ⟨⟩, rfl⟩ <;> cases u <;>
    first
      | exact ⟨_, rfl⟩
      | cases hu

end Stage

namespace Spelled

theorem eq_nil_of_nil {ts : List Token} (h : Spelled ts []) (hwf : ∀ t ∈ ts, t.wellFormed = true) :
    ts = [] := by
  generalize htext : [] = text at h
  cases h with
  | nil => rfl
  | @cons gap rest t ts hgap hrest =>
    have hnil := (List.append_eq_nil_iff.mp (List.append_eq_nil_iff.mp htext.symm).2).1
    exact absurd hnil (Token.text_ne_nil (hwf t List.mem_cons_self))

theorem endsBefore {s s₁ s₂ : Stage} {t : Token} {ts : List Token} {rest : Text}
    (h : Spelled ts rest) (hnext : s.next t = some s₁) (hrun : s₁.run ts = some s₂)
    (hwf : ∀ u ∈ ts, u.wellFormed = true) : t.EndsBefore rest := by
  have hgap : ∀ {gap more : Text} {c : Char}, gap.all isBlank = true → gap ≠ [] →
      c ∈ (gap ++ more).head? → t.goesOn c = false := by
    intro gap more c hblank hne hc
    cases gap with
    | nil => exact absurd rfl hne
    | cons b tail =>
      obtain rfl : b = c := by simpa using hc
      have hb := isAlnum_eq_false_of_isBlank (List.all_eq_true.mp hblank b List.mem_cons_self)
      exact Bool.eq_false_iff.mpr fun hgo => by simp [Token.isAlnum_of_goesOn hgo] at hb
  intro c hc
  cases h with
  | nil hblank =>
    by_cases hne : rest = []
    · rw [hne] at hc
      cases hc
    · exact @hgap rest [] c hblank hne (by rwa [List.append_nil])
  | @cons gap more u us hblank hmore =>
    by_cases hne : gap = []
    · obtain ⟨s₃, hu, -⟩ := Option.bind_eq_some_iff.mp hrun
      refine Bool.eq_false_iff.mpr fun hgo => ?_
      obtain ⟨d, hd⟩ := Stage.exists_opening_eq_mark hnext hgo hu
      obtain ⟨c', tail, htext, hopen⟩ := Token.exists_text_eq_cons (hwf u List.mem_cons_self)
      obtain rfl : c' = c := by simpa [hne, htext] using hc
      have hmark := Opening.isAlnum_eq_false_of_ofChar (hopen.trans hd)
      simp [Token.isAlnum_of_goesOn hgo] at hmark
    · exact hgap hblank hne hc

/-- A text spells at most one list of tokens that lead on from a stage. -/
theorem unique {s s₁ s₂ : Stage} {ts us : List Token} {text : Text} (hts : Spelled ts text)
    (hus : Spelled us text) (hrun : s.run ts = some s₁) (hrun' : s.run us = some s₂)
    (hwf : ∀ t ∈ ts, t.wellFormed = true) (hwf' : ∀ t ∈ us, t.wellFormed = true) : ts = us := by
  have hfront : ∀ {t : Token} {gap : Text} (rest : Text), t.wellFormed = true →
      gap.all isBlank = true → Text.dropBlanks (gap ++ (t.text ++ rest)) = t.text ++ rest := by
    intro t gap rest ht hgap
    rw [Text.dropBlanks_append hgap, Token.dropBlanks_text_append ht]
  induction hts generalizing s us with
  | nil hgap =>
    cases hus with
    | nil => rfl
    | @cons gap' rest' u us hgap' hrest' =>
      have hu := hwf' u List.mem_cons_self
      have hnil := (hfront rest' hu hgap').symm.trans (Text.dropBlanks_eq_nil hgap)
      exact absurd (List.append_eq_nil_iff.mp hnil).1 (Token.text_ne_nil hu)
  | @cons gap rest t ts hgap hrest ih =>
    have ht := hwf t List.mem_cons_self
    generalize htext : gap ++ (t.text ++ rest) = text at hus
    cases hus with
    | nil hgap' =>
      rw [← htext] at hgap'
      have hnil := (hfront rest ht hgap).symm.trans (Text.dropBlanks_eq_nil hgap')
      exact absurd (List.append_eq_nil_iff.mp hnil).1 (Token.text_ne_nil ht)
    | @cons gap' rest' u us hgap' hrest' =>
      have hu := hwf' u List.mem_cons_self
      obtain ⟨s₃, hnext, hmore⟩ := Option.bind_eq_some_iff.mp hrun
      obtain ⟨s₄, hnext', hmore'⟩ := Option.bind_eq_some_iff.mp hrun'
      have hts := fun v hv => hwf v (List.mem_cons_of_mem _ hv)
      have hus := fun v hv => hwf' v (List.mem_cons_of_mem _ hv)
      have hsame : t.text ++ rest = u.text ++ rest' := by
        rw [← hfront rest ht hgap, htext, hfront rest' hu hgap']
      have hlex := Stage.front?_text_append hnext ht (hrest.endsBefore hnext hmore hts)
      rw [hsame, Stage.front?_text_append hnext' hu (hrest'.endsBefore hnext' hmore' hus)] at hlex
      obtain ⟨rfl, rfl⟩ := Prod.mk.inj (Option.some.inj hlex)
      obtain rfl : s₃ = s₄ := Option.some.inj (hnext.symm.trans hnext')
      rw [ih hrest' hmore hmore' hts hus]

end Spelled

/-- One token is taken and the blanks after it are left out. -/
inductive Step : Stage × Text → Stage × Text → Prop
  | take {s s' : Stage} {t : Token} {rest : Text} (hnext : s.next t = some s')
      (hwf : t.wellFormed = true) (hends : t.EndsBefore rest) :
      Step (s, t.text ++ rest) (s', rest.dropBlanks)

abbrev Walk : Stage × Text → Stage × Text → Prop := Relation.ReflTransGen Step

theorem Step.deterministic : Relator.RightUnique Step := by
  intro a b c hb hc
  cases hb with
  | @take s s₁ t rest hnext hwf hends =>
    generalize htext : t.text ++ rest = text at hc
    cases hc with
    | @take _ s₂ u rest' hnext' hwf' hends' =>
      have hlex := Stage.front?_text_append hnext hwf hends
      rw [htext, Stage.front?_text_append hnext' hwf' hends'] at hlex
      obtain ⟨rfl, rfl⟩ := Prod.mk.inj (Option.some.inj hlex)
      rw [Option.some.inj (hnext.symm.trans hnext')]

/-- What a step does to a text that begins with the token, from any later text on. -/
theorem Step.append {s s' : Stage} {t : Token} {gap rest : Text} (hnext : s.next t = some s')
    (hwf : t.wellFormed = true) (hends : t.EndsBefore (gap ++ rest)) (hgap : gap.all isBlank = true)
    (hrest : rest.dropBlanks = rest) : Step (s, t.text ++ (gap ++ rest)) (s', rest) := by
  have hstep := Step.take hnext hwf hends
  rwa [Text.dropBlanks_append hgap, hrest] at hstep

namespace Walk

/-- Of two places on the way from one, each can be reached from the other or the other from it. -/
theorem total {a b c : Stage × Text} (hb : Walk a b) (hc : Walk a c) : Walk b c ∨ Walk c b :=
  Relation.ReflTransGen.total_of_right_unique Step.deterministic hb hc

/-- The part of the text that was walked over, which is spelled by tokens that lead
from the first stage to the last. The walk does not depend on what follows,
unless the last token could go on there. -/
theorem exists_spelled {c c' : Stage × Text} (h : Walk c c') :
    ∃ used ts, c.2 = used ++ c'.2 ∧ Spelled ts used ∧ (∀ t ∈ ts, t.wellFormed = true) ∧
      c.1.run ts = some c'.1 ∧
      ∀ after : Text, after.dropBlanks = after → (∀ x ∈ after.head?, x ∈ c'.2.head?) →
        Walk (c.1, used ++ after) (c'.1, after) := by
  induction h using Relation.ReflTransGen.head_induction_on with
  | refl =>
    exact ⟨[], [], rfl, .nil rfl, by simp, rfl, fun _ _ _ => .refl⟩
  | head hstep _ ih =>
    obtain ⟨used, ts, hused, hspelled, hwfs, hrun, hafter⟩ := ih
    cases hstep with
    | @take s s₁ t rest hnext hwf hends =>
      obtain ⟨gap, hgap, hrest⟩ := Text.exists_blanks_append_dropBlanks rest
      simp only at hused hrun
      rw [hused] at hrest
      refine ⟨t.text ++ (gap ++ used), t :: ts, ?_, ?_, ?_, ?_, ?_⟩
      · simp only [List.append_assoc]
        rw [hrest]
      · exact (hspelled.blanks_append hgap).text_append t
      · exact List.forall_mem_cons.mpr ⟨hwf, hwfs⟩
      · rw [Stage.run_cons hnext, hrun]
      · intro after hblank hhead
        have hsame : ∀ x ∈ (gap ++ (used ++ after)).head?, x ∈ rest.head? := by
          intro x hx
          rw [hrest]
          cases gap with
          | cons b more => simpa using hx
          | nil =>
            cases used with
            | cons b more => simpa using hx
            | nil => exact hhead x hx
        have hfront : (used ++ after).dropBlanks = used ++ after := by
          refine Text.dropBlanks_eq_self ?_
          intro x hx
          cases used with
          | nil => exact Text.isBlank_of_mem_head?_dropBlanks x (by rwa [hblank])
          | cons b more =>
            refine Text.isBlank_of_mem_head?_dropBlanks x (?_ : x ∈ rest.dropBlanks.head?)
            rw [hused]
            simpa using hx
        have hends' : t.EndsBefore (gap ++ (used ++ after)) := fun x hx => hends x (hsame x hx)
        simp only [List.append_assoc]
        exact .head (Step.append hnext hwf hends' hgap hfront) (hafter after hblank hhead)

/-- Tokens that lead from one stage to another are walked over, unless the last
of them goes on in the text that follows. -/
theorem of_spelled_append {s s' : Stage} {ts : List Token} {text after : Text}
    (h : Spelled ts text) (hrun : s.run ts = some s') (hwf : ∀ t ∈ ts, t.wellFormed = true)
    (hends : ∀ t ∈ ts.getLast?, t.EndsBefore after) :
    Walk (s, (text ++ after).dropBlanks) (s', after.dropBlanks) := by
  induction h generalizing s with
  | nil hgap =>
    obtain rfl := Option.some.inj hrun
    rw [Text.dropBlanks_append hgap]
  | @cons gap rest t ts hgap hrest ih =>
    obtain ⟨s₁, hnext, hmore⟩ := Option.bind_eq_some_iff.mp hrun
    have ht := hwf t List.mem_cons_self
    have hts := fun u hu => hwf u (List.mem_cons_of_mem t hu)
    have hlast : ∀ u ∈ ts.getLast?, u.EndsBefore after := by
      intro u hu
      refine hends u ?_
      rw [List.getLast?_cons, Option.mem_def.mp hu]
      rfl
    have hfirst : t.EndsBefore (rest ++ after) := by
      intro x hx
      cases rest with
      | nil =>
        obtain rfl : ts = [] := hrest.eq_nil_of_nil hts
        exact hends t rfl x hx
      | cons d more => exact hrest.endsBefore hnext hmore hts x hx
    simp only [List.append_assoc]
    rw [Text.dropBlanks_append hgap, Token.dropBlanks_text_append ht]
    exact .head (Step.take hnext ht hfirst) (ih hmore hts hlast)

theorem of_spelled {s s' : Stage} {ts : List Token} {text : Text} (h : Spelled ts text)
    (hrun : s.run ts = some s') (hwf : ∀ t ∈ ts, t.wellFormed = true) :
    Walk (s, text.dropBlanks) (s', []) := by
  have hwalk : Walk (s, (text ++ []).dropBlanks) (s', []) :=
    of_spelled_append h hrun hwf fun t _ c hc => by cases hc
  rwa [List.append_nil] at hwalk

theorem dropBlanks_eq {c c' : Stage × Text} (h : Walk c c') (hc : c.2.dropBlanks = c.2) :
    c'.2.dropBlanks = c'.2 := by
  induction h with
  | refl => exact hc
  | tail _ hstep _ =>
    cases hstep with
    | take => exact Text.dropBlanks_dropBlanks _

theorem eq_of_text_nil {c c' : Stage × Text} (h : Walk c c') (hc : c.2 = []) : c' = c := by
  cases Relation.ReflTransGen.cases_head h with
  | inl heq => exact heq.symm
  | inr hstep =>
    obtain ⟨d, hd, -⟩ := hstep
    cases hd with
    | take _ hwf _ => exact absurd (List.append_eq_nil_iff.mp hc).1 (Token.text_ne_nil hwf)

end Walk

end HornSyntax
