import HornSyntax.Proofs.Phrases
import Mathlib

/-!
Each rule matches the longest prefix that its nonterminal spells. Ordered choice
and repetition that gives nothing back lose no match: an atom that no argument
list follows is still a term, and a comma or a bracket that leads no further is
left for what comes next.
-/

namespace HornSyntax

open Reader CharacterClass

theorem Reader.view_whole (p : Reader) (text : Text) :
    p.view text.bytes text = (p 0 text).view := by
  rw [Reader.view, Nat.sub_self]

namespace Rule

/-- The rules of the nonterminals above the tokens. -/
def nonterminals : List Rule :=
  [clause, query, predicateList, predicate, termList, term, compound, atom]

/-- The lists of tokens that a nonterminal of the grammar generates. -/
def Generates : Rule → List Token → Prop
  | compound, ts => ∃ (a : Atom) (list : List Token), a.wellFormed = true ∧
      Phrase .termList list ∧ ts = .symbol a :: .lparen :: (list ++ [.rparen])
  | atom, ts => ∃ a : Atom, a.wellFormed = true ∧ ts = [.symbol a]
  | r, ts => Phrase r ts

/-- A text of the nonterminal, with blanks between its tokens only. -/
def Spells (r : Rule) (text : Text) : Prop := ∃ ts, r.Generates ts ∧ Spans ts text

variable {r : Rule} {ts : List Token} {text : Text} {offset : Nat} {m : Match}

theorem Generates.covers (hr : r ∈ nonterminals) (h : r.Generates ts) :
    r.reader.Covers (Text.EndsBefore r.marks) ts := by
  cases r with
  | compound =>
    obtain ⟨a, list, ha, hlist, rfl⟩ := h
    exact (covers_compound ha (hlist.covers (by decide))).mono fun _ _ => trivial
  | atom =>
    obtain ⟨a, ha, rfl⟩ := h
    exact covers_atom ha (Or.inr rfl)
  | clause | query | predicateList | predicate | termList | term =>
    exact Phrase.covers h (by decide)
  | _ => simp [nonterminals] at hr

/-- What a rule matches is spelled with tokens that its nonterminal generates. -/
theorem exists_generates (hr : r ∈ nonterminals) (h : (r.reader offset text).found = some m) :
    ∃ ts, r.Generates ts ∧ Spelled ts m.text := by
  cases r with
  | clause =>
    obtain ⟨_, hspelled, _, _, _, c, -, -, hwf, rfl⟩ := makes_clause _ _ m (Nat.le_refl _) h
    exact ⟨c.tokens, .of_clause hwf, hspelled⟩
  | query =>
    obtain ⟨_, hspelled, _, _, _, _, _, _, _, _, _, goals, -, -, hne, hall, rfl⟩ :=
      makes_query _ _ m (Nat.le_refl _) h
    exact ⟨_, Phrase.query (.of_predicates hne hall), hspelled⟩
  | predicateList =>
    obtain ⟨_, hspelled, _, _, _, -, ps, -, hne, hall, rfl⟩ :=
      makes_predicateList _ _ m (Nat.le_refl _) h
    exact ⟨_, Phrase.of_predicates hne hall, hspelled⟩
  | predicate =>
    obtain ⟨_, hspelled, _, _, _, p, -, -, hwf, rfl⟩ := makes_predicate _ _ m (Nat.le_refl _) h
    exact ⟨p.tokens, Phrase.of_predicate hwf, hspelled⟩
  | termList =>
    obtain ⟨_, hspelled, _, _, _, -, terms, -, hne, hall, rfl⟩ :=
      makes_termList makes_term _ _ m (Nat.le_refl _) h
    exact ⟨_, Phrase.of_terms hne hall, hspelled⟩
  | term =>
    obtain ⟨_, hspelled, _, _, _, t, -, -, hwf, rfl⟩ := makes_term _ _ m (Nat.le_refl _) h
    exact ⟨t.tokens, Phrase.of_term hwf, hspelled⟩
  | compound =>
    obtain ⟨_, hspelled, _, _, _, -, _, _, _, _, -, rfl, ⟨_, _, _, a, -, -, hwf, rfl⟩, _, _, _, _,
      -, rfl, ⟨_, _, -, rfl⟩, _, _, _, _, -, rfl, ⟨_, _, _, -, terms, -, hne, hall, rfl⟩,
      _, _, -, rfl⟩ :=
      makes_compound makes_term _ _ m (Nat.le_succ _) h
    exact ⟨_, ⟨a, _, hwf, .of_terms hne hall, rfl⟩, hspelled⟩
  | atom =>
    obtain ⟨_, hspelled, _, _, _, a, -, -, hwf, rfl⟩ :=
      @makes_atom _ .symbol (fun _ => rfl) _ _ m (Nat.le_refl _) h
    exact ⟨_, ⟨a, hwf, rfl⟩, hspelled⟩
  | _ => simp [nonterminals] at hr

/-- How a match of a nonterminal may begin. -/
def openings : List Opening := [.lower, .upper, .digit, .mark '\'', .mark '?']

theorem opens_reader (hr : r ∈ nonterminals) : r.reader.Opens openings := by
  have hatom : Rule.atom.reader.Opens openings := opens_atom.mono (by decide)
  have hpredicate : Rule.predicate.reader.Opens openings := by
    rw [reader_predicate]
    exact (hatom.spaced _).conclude .predicate
  have hterm : Rule.term.reader.Opens openings := by
    have hchoice := opens_compound.orElse (opens_atom.orElse (opens_var.orElse opens_numeral))
    rw [reader_term]
    exact (hchoice.conclude .term).mono (by decide)
  cases r with
  | clause =>
    rw [reader_clause]
    exact (hpredicate.spaced _).conclude .clause
  | query =>
    rw [reader_query]
    exact (((opens_mark (t := .queryStart) rfl).spaced _).conclude .query).mono (by decide)
  | predicateList =>
    rw [reader_predicateList]
    exact (hpredicate.spaced _).conclude .predicateList
  | predicate => exact hpredicate
  | termList =>
    rw [reader_termList]
    exact (hterm.spaced _).conclude .termList
  | term => exact hterm
  | compound => exact opens_compound.mono (by decide)
  | atom => exact hatom
  | _ => simp [nonterminals] at hr

/-- A match is a text of the nonterminal and perhaps blanks behind it. -/
theorem exists_spells (hr : r ∈ nonterminals) (h : (r.reader 0 text).found = some m) :
    ∃ used gap, m.text = used ++ gap ∧ gap.all isBlank = true ∧ r.Spells used := by
  obtain ⟨ts, hts, hspelled⟩ := exists_generates hr h
  obtain ⟨before, used, after, htext, hbefore, hafter, hused⟩ :=
    Spans.exists_of_spelled hspelled (hts.covers hr).ne_nil
  have hview : (r.reader.view text.bytes text).left = some m.rest.dropBlanks := by
    rw [view_whole, Outcome.view, h]
    rfl
  obtain ⟨c, hc, hopen⟩ := opens_reader hr _ _ _ hview
  cases before with
  | nil => exact ⟨used, after, htext, hafter, ts, hts, hused⟩
  | cons b before =>
    have hwhole := r.splits_reader _ _ _ h
    rw [← hwhole, htext] at hc
    obtain rfl : b = c := Option.some.inj hc
    have hblank := List.all_eq_true.mp hbefore b List.mem_cons_self
    rw [Opening.ofChar_of_isBlank hblank] at hopen
    simp only [openings, List.mem_cons, reduceCtorEq, Opening.mark.injEq, List.not_mem_nil,
      false_or, or_false] at hopen
    rcases hopen with rfl | rfl <;> cases hblank

/-- No text of the nonterminal goes further than the match. -/
theorem Spells.prefix_of_found {used other gap : Text} (hr : r ∈ nonterminals)
    (h : (r.reader 0 text).found = some m) (hmatch : m.text = used ++ gap)
    (hgap : gap.all isBlank = true) (hother : r.Spells other) (hstart : other <+: text) :
    other <+: used := by
  obtain ⟨rest, rfl⟩ := hstart
  obtain ⟨ts, hts, hspans⟩ := hother
  have hcovers := hts.covers hr
  obtain ⟨left, hleft, hsuffix, -⟩ := hcovers.exists_left _ other rest hspans (Nat.le_refl _)
  rw [view_whole, Outcome.view, h] at hleft
  obtain rfl : m.rest.dropBlanks = left := Option.some.inj hleft
  have hwhole := r.splits_reader _ _ _ h
  rw [hmatch, List.append_assoc] at hwhole
  rcases List.append_eq_append_iff.mp hwhole with ⟨beyond, hother, hrest⟩ | ⟨more, hused, -⟩
  · -- All that the match leaves comes behind `other`, so only blanks lie between the two ends,
    -- and no text of tokens ends with a blank.
    obtain ⟨blanks, hblanks, hafter⟩ := Text.exists_blanks_append_dropBlanks m.rest
    obtain ⟨front, hfront⟩ := hsuffix.trans (Text.dropBlanks_suffix rest)
    rw [hafter, ← hfront, ← List.append_assoc, ← List.append_assoc] at hrest
    have hsame := List.append_cancel_right hrest
    rcases List.eq_nil_or_concat beyond with rfl | ⟨init, c, rfl⟩
    · rw [hother, List.append_nil]
    · have hc : isBlank c = true := by
        have hall : (gap ++ blanks).all isBlank = true := by simp [hgap, hblanks]
        rw [hsame] at hall
        exact List.all_eq_true.mp hall c (by simp)
      have hlast := hspans.isBlank_eq_false_of_mem_getLast? hcovers.wellFormed c (by simp [hother])
      rw [hc] at hlast
      cases hlast
  · exact ⟨more, hused.symm⟩

/-- A rule matches at the beginning of a text exactly if some prefix of it is
spelled by the nonterminal, and then the match is the longest such prefix, and
perhaps blanks behind it. -/
theorem matchText_longest {r : Rule} (hr : r ∈ nonterminals) (text : Text) :
    ((∃ m, r.matchText text = .ok m) ↔ ∃ used, used <+: text ∧ r.Spells used) ∧
      ∀ m, r.matchText text = .ok m → m.text ++ m.rest = text ∧
        ∃ used gap, m.text = used ++ gap ∧ gap.all isBlank = true ∧ r.Spells used ∧
          ∀ other, other <+: text → r.Spells other → other <+: used := by
  refine ⟨⟨?_, ?_⟩, ?_⟩
  · rintro ⟨m, hm⟩
    obtain ⟨used, gap, hmatch, -, hused⟩ := exists_spells hr (found_of_matchText hm)
    have hwhole := r.splits_reader _ _ _ (found_of_matchText hm)
    exact ⟨used, ⟨gap ++ m.rest, by rw [← hwhole, hmatch, List.append_assoc]⟩, hused⟩
  · rintro ⟨used, ⟨rest, rfl⟩, ts, hts, hused⟩
    obtain ⟨left, hleft, -⟩ := (hts.covers hr).exists_left _ used rest hused (Nat.le_refl _)
    rw [view_whole] at hleft
    obtain ⟨m, hm, -⟩ := Option.map_eq_some_iff.mp hleft
    exact ⟨m, matchText_of_some hm⟩
  · intro m hm
    have h := found_of_matchText hm
    obtain ⟨used, gap, hmatch, hgap, hused⟩ := exists_spells hr h
    refine ⟨r.splits_reader _ _ _ h, used, gap, hmatch, hgap, hused, ?_⟩
    intro other hstart hother
    exact hother.prefix_of_found hr h hmatch hgap hstart

/-- An argument list that is not closed is left, but the blank in front of it is taken. -/
theorem matchText_unclosed_group :
    Rule.predicate ∈ nonterminals ∧ ∃ m, predicate.matchText "p (b".toList = .ok m ∧
      m.text = "p ".toList ∧ m.rest = "(b".toList ∧
      ∃ used gap, m.text = used ++ gap ∧ gap.all isBlank = true ∧ predicate.Spells used ∧
        ∀ other, other <+: "p (b".toList → predicate.Spells other → other <+: used := by
  have hr : Rule.predicate ∈ nonterminals := by decide
  have hparts : (predicate.reader 0 "p (b".toList).found.map (fun m => (m.text, m.rest)) =
      some ("p ".toList, "(b".toList) := by cbv
  obtain ⟨m, hm, hmatch⟩ := Option.map_eq_some_iff.mp hparts
  obtain ⟨htext, hrest⟩ := Prod.mk.inj hmatch
  obtain ⟨-, hlongest⟩ := matchText_longest hr "p (b".toList
  exact ⟨hr, m, matchText_of_some hm, htext, hrest, (hlongest m (matchText_of_some hm)).2⟩

end Rule

end HornSyntax
