import HornSyntax.Proofs.Readability
import HornSyntax.Proofs.Tree
import Mathlib.Logic.ExistsUnique

/-!
Which texts are parsed, and into what. The grammar of programs over tokens
generates exactly the tokens of well-formed trees. A text is parsed into a tree
exactly when the tree is well formed and its tokens spell the text, and then
there is no other such tree.
-/

namespace HornSyntax

open Token (separated group)

/-- The phrases of each rule: which tokens a clause, a query, a list and so on may have. -/
inductive Phrase : Rule → List Token → Prop
  | program {clauses : List (List Token)} {query : List Token}
      (hclauses : ∀ c ∈ clauses, Phrase .clause c) (hquery : Phrase .query query) :
      Phrase .program (clauses.flatten ++ query)
  | fact {head : List Token} (hhead : Phrase .predicate head) : Phrase .clause (head ++ [.dot])
  | clause {head body : List Token} (hhead : Phrase .predicate head)
      (hbody : Phrase .predicateList body) : Phrase .clause (head ++ .neck :: body ++ [.dot])
  | query {goals : List Token} (hgoals : Phrase .predicateList goals) :
      Phrase .query (.queryStart :: goals ++ [.dot])
  | predicateList {items : List (List Token)} (hne : items ≠ [])
      (hitems : ∀ ts ∈ items, Phrase .predicate ts) : Phrase .predicateList (separated items)
  | predicate {a : Atom} {lists : List (List Token)} (ha : a.wellFormed = true)
      (hlists : ∀ ts ∈ lists, Phrase .termList ts) :
      Phrase .predicate (.name a :: lists.flatMap fun ts => .lparen :: (ts ++ [.rparen]))
  | termList {items : List (List Token)} (hne : items ≠ [])
      (hitems : ∀ ts ∈ items, Phrase .term ts) : Phrase .termList (separated items)
  | atom {a : Atom} (ha : a.wellFormed = true) : Phrase .term [.symbol a]
  | var {letters : Text} (h : letters.isRun CharacterClass.isUpper CharacterClass.isAlnum = true) :
      Phrase .term [.var letters]
  | numeral {digits : Text}
      (h : digits.isRun CharacterClass.isDigit CharacterClass.isDigit = true) :
      Phrase .term [.numeral digits]
  | compound {a : Atom} {list : List Token} (ha : a.wellFormed = true)
      (hlist : Phrase .termList list) : Phrase .term (.symbol a :: .lparen :: (list ++ [.rparen]))

/-- The tokens of the well-formed trees of a rule. -/
def Rule.Meant : Rule → List Token → Prop
  | .program, ts => ∃ p : Program, p.wellFormed = true ∧ ts = p.tokens
  | .clause, ts => ∃ c : Clause, c.wellFormed = true ∧ ts = c.tokens
  | .query, ts => ∃ goals : List Predicate, goals ≠ [] ∧ (∀ p ∈ goals, p.wellFormed = true) ∧
      ts = Program.queryTokens goals
  | .predicateList, ts => ∃ ps : List Predicate, ps ≠ [] ∧ (∀ p ∈ ps, p.wellFormed = true) ∧
      ts = separated (ps.map Predicate.tokens)
  | .predicate, ts => ∃ p : Predicate, p.wellFormed = true ∧ ts = p.tokens
  | .termList, ts => ∃ terms : List Term, terms ≠ [] ∧ (∀ t ∈ terms, t.wellFormed = true) ∧
      ts = separated (terms.map Term.tokens)
  | .term, ts => ∃ t : Term, t.wellFormed = true ∧ ts = t.tokens
  | _, _ => False

/-- Where each list of tokens is that of a well-formed part, the lists are those
of a list of parts. -/
theorem exists_map_of_forall {α : Type} {wellFormed : α → Bool} {tokens : α → List Token}
    {items : List (List Token)} (h : ∀ ts ∈ items, ∃ a, wellFormed a = true ∧ ts = tokens a) :
    ∃ as : List α, (∀ a ∈ as, wellFormed a = true) ∧ items = as.map tokens := by
  induction items with
  | nil => exact ⟨[], by simp, rfl⟩
  | cons ts rest ih =>
    obtain ⟨⟨a, ha, rfl⟩, hrest⟩ := List.forall_mem_cons.mp h
    obtain ⟨as, has, rfl⟩ := ih hrest
    exact ⟨a :: as, List.forall_mem_cons.mpr ⟨ha, has⟩, rfl⟩

theorem Phrase.meant {r : Rule} {ts : List Token} (h : Phrase r ts) : r.Meant ts := by
  induction h with
  | program _ _ hclauses hquery =>
    obtain ⟨cs, hcs, rfl⟩ := exists_map_of_forall hclauses
    obtain ⟨goals, hne, hgoals, rfl⟩ := hquery
    refine ⟨⟨cs, goals⟩, ?_, ?_⟩
    · simpa [Program.wellFormed, hne] using ⟨hcs, hgoals⟩
    · simp [Program.tokens, List.flatMap_def]
  | fact _ hhead =>
    obtain ⟨p, hp, rfl⟩ := hhead
    exact ⟨⟨p, []⟩, by simp [Clause.wellFormed, hp], by simp [Clause.tokens]⟩
  | clause _ _ hhead hbody =>
    obtain ⟨p, hp, rfl⟩ := hhead
    obtain ⟨ps, hne, hps, rfl⟩ := hbody
    exact ⟨⟨p, ps⟩, by simpa [Clause.wellFormed, hp] using hps, by simp [Clause.tokens, hne]⟩
  | query _ hgoals =>
    obtain ⟨goals, hne, hgoals, rfl⟩ := hgoals
    exact ⟨goals, hne, hgoals, by simp [Program.queryTokens]⟩
  | predicateList hne _ hitems =>
    obtain ⟨ps, hps, rfl⟩ := exists_map_of_forall hitems
    exact ⟨ps, by simpa using hne, hps, rfl⟩
  | @predicate a lists ha _ hlists =>
    have hgroups : ∀ ts ∈ lists, ∃ g : List Term,
        (!g.isEmpty && g.all Term.wellFormed) = true ∧ ts = separated (g.map Term.tokens) := by
      intro ts hts
      obtain ⟨g, hne, hg, rfl⟩ := hlists ts hts
      exact ⟨g, by simpa [hne] using hg, rfl⟩
    obtain ⟨gs, hgs, rfl⟩ := exists_map_of_forall hgroups
    refine ⟨⟨a, gs⟩, ?_, ?_⟩
    · simpa only [Predicate.wellFormed, ha, Bool.true_and, List.all_eq_true] using hgs
    · rw [Predicate.tokens, List.flatMap_map]
      rfl
  | termList hne _ hitems =>
    obtain ⟨terms, hterms, rfl⟩ := exists_map_of_forall hitems
    exact ⟨terms, by simpa using hne, hterms, rfl⟩
  | @atom a ha => exact ⟨.atom a, ha, rfl⟩
  | @var letters h => exact ⟨.var letters, h, rfl⟩
  | @numeral digits h => exact ⟨.numeral digits, h, rfl⟩
  | @compound a _ ha _ hlist =>
    obtain ⟨terms, hne, hterms, rfl⟩ := hlist
    refine ⟨.compound a terms, Term.wellFormed_compound.mpr ⟨ha, hne, hterms⟩, ?_⟩
    rw [Term.tokens_compound, group]

theorem Phrase.of_term {t : Term} (h : t.wellFormed = true) : Phrase .term t.tokens := by
  induction t using Term.induction with
  | atom a => exact .atom h
  | var letters => exact .var h
  | numeral digits => exact .numeral h
  | compound functor arguments ih =>
    obtain ⟨hfunctor, hne, hall⟩ := Term.wellFormed_compound.mp h
    rw [Term.tokens_compound]
    refine .compound hfunctor (.termList (by simpa using hne) ?_)
    intro ts hts
    obtain ⟨t, ht, rfl⟩ := List.mem_map.mp hts
    exact ih t ht (hall t ht)

theorem Phrase.of_terms {terms : List Term} (hne : terms ≠ [])
    (h : ∀ t ∈ terms, t.wellFormed = true) :
    Phrase .termList (separated (terms.map Term.tokens)) := by
  refine .termList (by simpa using hne) ?_
  intro ts hts
  obtain ⟨t, ht, rfl⟩ := List.mem_map.mp hts
  exact .of_term (h t ht)

theorem Phrase.of_predicate {p : Predicate} (h : p.wellFormed = true) :
    Phrase .predicate p.tokens := by
  simp only [Predicate.wellFormed, Bool.and_eq_true, List.all_eq_true, Bool.not_eq_true',
    List.isEmpty_eq_false_iff] at h
  have hlists : ∀ ts ∈ p.arguments.map (fun g => separated (g.map Term.tokens)),
      Phrase .termList ts := by
    intro ts hts
    obtain ⟨g, hg, rfl⟩ := List.mem_map.mp hts
    obtain ⟨hne, hall⟩ := h.2 g hg
    exact .of_terms hne hall
  have hphrase := Phrase.predicate h.1 hlists
  rwa [List.flatMap_map] at hphrase

theorem Phrase.of_predicates {ps : List Predicate} (hne : ps ≠ [])
    (h : ∀ p ∈ ps, p.wellFormed = true) :
    Phrase .predicateList (separated (ps.map Predicate.tokens)) := by
  refine .predicateList (by simpa using hne) ?_
  intro ts hts
  obtain ⟨p, hp, rfl⟩ := List.mem_map.mp hts
  exact .of_predicate (h p hp)

theorem Phrase.of_clause {c : Clause} (h : c.wellFormed = true) : Phrase .clause c.tokens := by
  simp only [Clause.wellFormed, Bool.and_eq_true, List.all_eq_true] at h
  have hhead := Phrase.of_predicate h.1
  by_cases hbody : c.body = []
  · simpa [Clause.tokens, hbody] using hhead.fact
  · simpa [Clause.tokens, hbody] using hhead.clause (.of_predicates hbody h.2)

/-- The grammar generates exactly the tokens of well-formed programs. -/
theorem phrase_program_iff {ts : List Token} :
    Phrase .program ts ↔ ∃ p : Program, p.wellFormed = true ∧ ts = p.tokens := by
  constructor
  · exact Phrase.meant
  · rintro ⟨p, h, rfl⟩
    simp only [Program.wellFormed, Bool.and_eq_true, List.all_eq_true, Bool.not_eq_true',
      List.isEmpty_eq_false_iff] at h
    have hclauses : ∀ ts ∈ p.clauses.map Clause.tokens, Phrase .clause ts := by
      intro ts hts
      obtain ⟨c, hc, rfl⟩ := List.mem_map.mp hts
      exact .of_clause (h.1.1 c hc)
    exact .program hclauses (.query (.of_predicates h.1.2 h.2))

namespace Program

variable {text : Text} {p q : Program}

/-- Every spelling of a well-formed program is recognized. -/
theorem recognize_of_spelled (hwf : p.wellFormed = true) (h : Spelled p.tokens text) :
    recognize text = .ok () :=
  HornSyntax.recognize_of_spelled h (Stage.run_program hwf) (wellFormed_of_mem_tokens hwf)

theorem eq_of_spelled (hp : p.wellFormed = true) (hq : q.wellFormed = true)
    (h : Spelled p.tokens text) (h' : Spelled q.tokens text) : p = q :=
  eq_of_tokens hp hq (h.unique h' (Stage.run_program hp) (Stage.run_program hq)
    (wellFormed_of_mem_tokens hp) (wellFormed_of_mem_tokens hq))

theorem parse_of_spelled (hwf : p.wellFormed = true) (h : Spelled p.tokens text) :
    parse text = .ok p := by
  rcases parse_cases text with ⟨q, hparse, -, hq, hspelled⟩ | ⟨e, -, herror⟩
  · rw [eq_of_spelled hwf hq h hspelled, hparse]
  · rw [recognize_of_spelled hwf h] at herror
    cases herror

theorem spelled_of_parse (h : parse text = .ok p) :
    p.wellFormed = true ∧ Spelled p.tokens text := by
  rcases parse_cases text with ⟨q, hparse, -, hq, hspelled⟩ | ⟨e, hparse, -⟩
  · obtain rfl : q = p := Except.ok.inj (hparse.symm.trans h)
    exact ⟨hq, hspelled⟩
  · rw [hparse] at h
    cases h

theorem exists_spelled_of_recognize (h : recognize text = .ok ()) :
    ∃ p : Program, p.wellFormed = true ∧ Spelled p.tokens text := by
  rcases parse_cases text with ⟨p, -, -, hp, hspelled⟩ | ⟨e, -, herror⟩
  · exact ⟨p, hp, hspelled⟩
  · rw [h] at herror
    cases herror

/-- A program that goes on with a given token. -/
theorem exists_completion {ts : List Token} {used : Text} {s s' : Stage}
    (hts : Spelled ts used) (hwf : ∀ t ∈ ts, t.wellFormed = true)
    (hrun : Stage.start.run ts = some s) {t : Token} (ht : t.wellFormed = true)
    (hnext : s.next t = some s') :
    ∃ (p : Program) (us : List Token) (after : Text), p.wellFormed = true ∧
      p.tokens = ts ++ t :: us ∧ Spelled us after := by
  obtain ⟨us, hus, hfinished⟩ := s'.exists_run_finished
  obtain ⟨after, hafter⟩ := Spelled.exists_text us
  have hspelled := hts.append (hafter.text_append t)
  have hall : ∀ u ∈ ts ++ t :: us, u.wellFormed = true := by
    simp only [List.mem_append, List.mem_cons]
    rintro u (hu | rfl | hu)
    · exact hwf u hu
    · exact ht
    · exact hus u hu
  have hrun' : Stage.start.run (ts ++ t :: us) = some .finished := by
    rw [Stage.run_append hrun, Stage.run_cons hnext, hfinished]
  obtain ⟨p, hp, hp'⟩ :=
    exists_spelled_of_recognize (HornSyntax.recognize_of_spelled hspelled hrun' hall)
  have htokens := hp'.unique hspelled (Stage.run_program hp) hrun' (wellFormed_of_mem_tokens hp)
    hall
  exact ⟨p, us, after, hp, htokens, hafter⟩

/-- Parsing is the inverse of spelling. The texts that are recognized are those
of the grammar, and each of them has exactly one tree. -/
theorem parse_iff_spelled (text : Text) :
    (∀ p, parse text = .ok p ↔ p.wellFormed = true ∧ Spelled p.tokens text) ∧
      (recognize text = .ok () ↔ ∃ ts, Phrase .program ts ∧ Spelled ts text) ∧
      (recognize text = .ok () ↔ ∃! p : Program, p.wellFormed = true ∧ Spelled p.tokens text) := by
  refine ⟨fun p => ⟨spelled_of_parse, fun ⟨hwf, h⟩ => parse_of_spelled hwf h⟩, ⟨?_, ?_⟩, ⟨?_, ?_⟩⟩
  · intro h
    obtain ⟨p, hp, hspelled⟩ := exists_spelled_of_recognize h
    exact ⟨p.tokens, phrase_program_iff.mpr ⟨p, hp, rfl⟩, hspelled⟩
  · rintro ⟨ts, hphrase, hspelled⟩
    obtain ⟨p, hp, rfl⟩ := phrase_program_iff.mp hphrase
    exact recognize_of_spelled hp hspelled
  · intro h
    obtain ⟨p, hp, hspelled⟩ := exists_spelled_of_recognize h
    exact ⟨p, ⟨hp, hspelled⟩, fun q ⟨hq, hspelled'⟩ => eq_of_spelled hq hp hspelled' hspelled⟩
  · rintro ⟨p, ⟨hp, hspelled⟩, -⟩
    exact recognize_of_spelled hp hspelled

end Program

end HornSyntax
