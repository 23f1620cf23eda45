import HornSyntax.Proofs.Made
import HornSyntax.Proofs.Recognition
import HornSyntax.Program.Parse

/-!
The syntax tree of a text that is read. Each rule makes nodes from which a
well-formed tree is built, and the tokens of the tree spell the text of the
match. Terms are read on ever shorter texts, so the induction is on a bound for
their length.
-/

namespace HornSyntax

open Reader CharacterClass

/-- The node of a list of terms, from which the terms are built. -/
def MadeTerms (nodes : List Node) (ts : List Token) : Prop :=
  ∃ terms, Term.ofNodes? nodes = some terms ∧ terms ≠ [] ∧ (∀ t ∈ terms, t.wellFormed = true) ∧
    ts = Token.separated (terms.map Term.tokens)

abbrev MadeTerm : List Node → List Token → Prop :=
  MadeOf .term Term.ofNode? Term.wellFormed Term.tokens

/-- A bracket, the node of a list of terms, and a bracket. -/
abbrev MadeGroup : List Node → List Token → Prop :=
  Joined (MadeMark .lparen) (Joined (Topped .termList MadeTerms) (MadeMark .rparen))

theorem Term.ofNodes?_cons {start : Nat} {text : Text} {inner rest : List Node} {t : Term}
    {ts : List Term} (ht : ofNode? ⟨.term, start, text, inner⟩ = some t)
    (hts : ofNodes? rest = some ts) :
    ofNodes? (⟨.term, start, text, inner⟩ :: rest) = some (t :: ts) := by
  rw [ofNodes?]
  · simp [ht, hts]
  · simp

theorem Predicate.ofNodes?_cons {start : Nat} {text : Text} {inner rest : List Node}
    {p : Predicate} {ps : List Predicate} (hp : ofNode? ⟨.predicate, start, text, inner⟩ = some p)
    (hps : ofNodes? rest = some ps) :
    ofNodes? (⟨.predicate, start, text, inner⟩ :: rest) = some (p :: ps) := by
  rw [ofNodes?]
  · simp [hp, hps]
  · simp

section

variable {limit : Nat}

theorem makes_termList (hterm : Rule.term.reader.Makes limit MadeTerm) :
    Rule.termList.reader.Makes limit (Topped .termList MadeTerms) := by
  have hcomma : Rule.comma.reader.Makes limit (MadeMark .comma) := makes_mark (t := .comma) rfl
  have hround := hcomma.spaced (Rule.splits_reader .comma) hterm
  have hmore := hround.many ((Rule.splits_reader .comma).spaced (Rule.splits_reader .term))
  have hlist := hterm.spaced (Rule.splits_reader .term) hmore
  rw [Rule.reader_termList]
  refine Makes.conclude (hlist.mono (Nat.le_refl _) ?_) rfl
  intro nodes ts h
  exact @exists_of_separated Term .term Term.ofNode? Term.ofNodes? Term.wellFormed Term.tokens
    rfl (fun _ _ _ _ => rfl) (fun _ _ _ _ _ _ => Term.ofNodes?_cons) _ _ h

theorem makes_group (hterm : Rule.term.reader.Makes limit MadeTerm) :
    Rule.group.Makes (limit + 1) MadeGroup := by
  have hinner := (makes_termList hterm).spaced (Rule.splits_reader .termList)
    (makes_mark (t := .rparen) rfl)
  have hopen : Rule.lparen.reader.Makes (limit + 1) (MadeMark .lparen) :=
    makes_mark (t := .lparen) rfl
  exact hopen.followedBy (Rule.splits_reader .lparen) (Rule.takes_reader .lparen)
    hinner.blanks_followedBy (Nat.le_refl _)

theorem makes_compound (hterm : Rule.term.reader.Makes limit MadeTerm) :
    Rule.compound.reader.Makes (limit + 1) (Topped .compound
      (Joined (MadeOf .atom Atom.ofNode? Atom.wellFormed fun a => [.symbol a]) MadeGroup)) := by
  have hatom := @makes_atom (limit + 1) .symbol fun _ => rfl
  rw [Rule.reader_compound]
  exact (hatom.spaced (Rule.splits_reader .atom) (makes_group hterm)).conclude rfl

theorem madeTerm_of_compound {nodes : List Node} {ts : List Token}
    (h : Topped .term (Topped .compound
      (Joined (MadeOf .atom Atom.ofNode? Atom.wellFormed fun a => [.symbol a]) MadeGroup)) nodes ts) :
    MadeTerm nodes ts := by
  obtain ⟨start, text, _, rfl, start', text', _, rfl, _, _, _, _, rfl, rfl, hatom, hgroup⟩ := h
  obtain ⟨start₁, text₁, inner, a, rfl, ha, hwf, rfl⟩ := hatom
  obtain ⟨_, _, _, _, rfl, rfl, ⟨_, _, rfl, rfl⟩, _, _, _, _, rfl, rfl, hlist, _, _, rfl, rfl⟩ :=
    hgroup
  obtain ⟨_, _, items, rfl, terms, hterms, hne, hall, rfl⟩ := hlist
  refine ⟨start, text, _, .compound a terms, rfl, ?_, ?_, ?_⟩
  · simp [Term.ofNode?, ha, hterms]
  · exact Term.wellFormed_compound.mpr ⟨hwf, hne, hall⟩
  · rw [Term.tokens_compound]
    rfl

theorem makes_term : Rule.term.reader.Makes limit MadeTerm := by
  induction limit with
  | zero =>
    intro offset text m htext hm
    have hlength := (Rule.splits_reader .term).length_eq hm
    have htaken : 1 ≤ m.text.length := Rule.takes_reader .term _ _ _ hm
    omega
  | succ limit ih =>
    have hatom := @makes_atom (limit + 1) .symbol fun _ => rfl
    have hvar := @makes_run (limit + 1) _ _ _ .var Rule.reader_var rfl fun _ => rfl
    have hnumeral := @makes_run (limit + 1) _ _ _ .numeral Rule.reader_numeral rfl fun _ => rfl
    rw [Rule.reader_term]
    refine (((makes_compound ih).orElse (hatom.orElse (hvar.orElse hnumeral))).conclude rfl).mono
      (Nat.le_refl _) ?_
    rintro nodes ts ⟨start, text, inner, rfl, hcompound | hatom | hvar | hnumeral⟩
    · exact madeTerm_of_compound ⟨start, text, inner, rfl, hcompound⟩
    · obtain ⟨start', text', inner', a, rfl, ha, hwf, rfl⟩ := hatom
      refine ⟨start, text, _, .atom a, rfl, ?_, hwf, rfl⟩
      simp [Term.ofNode?, ha]
    · obtain ⟨start', run, rfl, hrun, rfl⟩ := hvar
      exact ⟨start, text, _, .var run, rfl, rfl, hrun, rfl⟩
    · obtain ⟨start', run, rfl, hrun, rfl⟩ := hnumeral
      exact ⟨start, text, _, .numeral run, rfl, rfl, hrun, rfl⟩

/-- The argument groups of a predicate are built one after another. -/
theorem exists_groups {nodes : List Node} {ts : List Token} (h : Repeated MadeGroup nodes ts) :
    ∃ groups, Predicate.groupsOfNodes? nodes = some groups ∧
      (∀ g ∈ groups, g ≠ [] ∧ ∀ t ∈ g, t.wellFormed = true) ∧ ts = groups.flatMap Token.group := by
  induction h with
  | nil => exact ⟨[], rfl, by simp, rfl⟩
  | cons hfirst _ ih =>
    obtain ⟨_, _, _, _, rfl, rfl, ⟨_, _, rfl, rfl⟩, _, _, _, _, rfl, rfl, hlist, _, _, rfl, rfl⟩ :=
      hfirst
    obtain ⟨_, _, items, rfl, terms, hterms, hne, hall, rfl⟩ := hlist
    obtain ⟨groups, hgroups, hwf, rfl⟩ := ih
    refine ⟨terms :: groups, ?_, List.forall_mem_cons.mpr ⟨⟨hne, hall⟩, hwf⟩, ?_⟩
    · simp [Token.rule, Predicate.groupsOfNodes?, hterms, hgroups]
    · simp [Token.group]

abbrev MadePredicate : List Node → List Token → Prop :=
  MadeOf .predicate Predicate.ofNode? Predicate.wellFormed Predicate.tokens

/-- The node of a list of predicates, from which the predicates are built. -/
def MadePredicates (nodes : List Node) (ts : List Token) : Prop :=
  ∃ ps, Predicate.ofNodes? nodes = some ps ∧ ps ≠ [] ∧ (∀ p ∈ ps, p.wellFormed = true) ∧
    ts = Token.separated (ps.map Predicate.tokens)

theorem makes_predicate : Rule.predicate.reader.Makes limit MadePredicate := by
  have hatom := @makes_atom limit .name fun _ => rfl
  have hgroups := ((makes_group makes_term).mono (Nat.le_succ limit) fun _ _ h => h).many
    Rule.splits_group
  rw [Rule.reader_predicate]
  refine ((hatom.spaced (Rule.splits_reader .atom) hgroups).conclude rfl).mono (Nat.le_refl _) ?_
  rintro _ ts ⟨start, text, _, rfl, _, _, _, _, rfl, rfl, ⟨_, _, _, a, rfl, ha, hwf, rfl⟩, hrest⟩
  obtain ⟨groups, hbuild, hall, rfl⟩ := exists_groups hrest
  refine ⟨start, text, _, ⟨a, groups⟩, rfl, ?_, ?_, rfl⟩
  · simp [Predicate.ofNode?, ha, hbuild]
  · simpa [Predicate.wellFormed, hwf, List.all_eq_true] using hall

theorem makes_predicateList :
    Rule.predicateList.reader.Makes limit (Topped .predicateList MadePredicates) := by
  have hcomma : Rule.comma.reader.Makes limit (MadeMark .comma) := makes_mark (t := .comma) rfl
  have hround := hcomma.spaced (Rule.splits_reader .comma) makes_predicate
  have hmore := hround.many ((Rule.splits_reader .comma).spaced (Rule.splits_reader .predicate))
  have hlist := makes_predicate.spaced (Rule.splits_reader .predicate) hmore
  rw [Rule.reader_predicateList]
  refine Makes.conclude (hlist.mono (Nat.le_refl _) ?_) rfl
  intro nodes ts h
  exact @exists_of_separated Predicate .predicate Predicate.ofNode? Predicate.ofNodes?
    Predicate.wellFormed Predicate.tokens rfl (fun _ _ _ _ => rfl)
    (fun _ _ _ _ _ _ => Predicate.ofNodes?_cons) _ _ h

abbrev MadeClause : List Node → List Token → Prop :=
  MadeOf .clause Clause.ofNode? Clause.wellFormed Clause.tokens

theorem makes_clause : Rule.clause.reader.Makes limit MadeClause := by
  have hneck : Rule.neck.reader.Makes limit (MadeMark .neck) := makes_mark (t := .neck) rfl
  have hdot : Rule.dot.reader.Makes limit (MadeMark .dot) := makes_mark (t := .dot) rfl
  have hbody : Rule.clauseBody.Makes limit _ :=
    hneck.spaced (Rule.splits_reader .neck) makes_predicateList
  have hclause := makes_predicate.spaced (Rule.splits_reader .predicate)
    (hbody.optional.spaced Rule.splits_clauseBody.optional hdot)
  rw [Rule.reader_clause]
  refine (hclause.conclude rfl).mono (Nat.le_refl _) ?_
  rintro _ ts ⟨start, text, _, rfl, _, _, _, _, rfl, rfl, ⟨_, _, _, head, rfl, hhead, hwf, rfl⟩,
    _, _, _, _, rfl, rfl, hoptional, ⟨_, _, rfl, rfl⟩⟩
  rcases hoptional with ⟨_, _, _, _, rfl, rfl, ⟨_, _, rfl, rfl⟩, hlist⟩ | ⟨rfl, rfl⟩
  · obtain ⟨_, _, items, rfl, ps, hps, hne, hall, rfl⟩ := hlist
    refine ⟨start, text, _, ⟨head, ps⟩, rfl, ?_, ?_, ?_⟩
    · simp [Token.rule, Clause.ofNode?, hhead, hps]
    · simpa [Clause.wellFormed, hwf, List.all_eq_true] using hall
    · simp [Clause.tokens, hne]
  · refine ⟨start, text, _, ⟨head, []⟩, rfl, ?_, ?_, ?_⟩
    · simp [Token.rule, Clause.ofNode?, hhead]
    · simp [Clause.wellFormed, hwf]
    · simp [Clause.tokens]

/-- The node of a query, and the goals built from it. -/
def MadeQuery (nodes : List Node) (ts : List Token) : Prop :=
  ∃ start text start₁ text₁ start₂ text₂ start₃ text₃ items goals,
    nodes = [⟨.query, start, text, [⟨.queryStart, start₁, text₁, []⟩,
      ⟨.predicateList, start₂, text₂, items⟩, ⟨.dot, start₃, text₃, []⟩]⟩] ∧
    Predicate.ofNodes? items = some goals ∧ goals ≠ [] ∧ (∀ p ∈ goals, p.wellFormed = true) ∧
    ts = Program.queryTokens goals

theorem makes_query : Rule.query.reader.Makes limit MadeQuery := by
  have hstart : Rule.queryStart.reader.Makes limit (MadeMark .queryStart) :=
    makes_mark (t := .queryStart) rfl
  have hdot : Rule.dot.reader.Makes limit (MadeMark .dot) := makes_mark (t := .dot) rfl
  have hquery := hstart.spaced (Rule.splits_reader .queryStart)
    (makes_predicateList.spaced (Rule.splits_reader .predicateList) hdot)
  rw [Rule.reader_query]
  refine (hquery.conclude rfl).mono (Nat.le_refl _) ?_
  rintro _ ts ⟨_, _, _, rfl, _, _, _, _, rfl, rfl, ⟨_, _, rfl, rfl⟩, _, _, _, _, rfl, rfl, hlist,
    ⟨_, _, rfl, rfl⟩⟩
  obtain ⟨_, _, items, rfl, goals, hgoals, hne, hall, rfl⟩ := hlist
  exact ⟨_, _, _, _, _, _, _, _, items, goals, rfl, hgoals, hne, hall, rfl⟩

theorem makes_endOfInput : Rule.endOfInput.reader.Makes limit
    (Topped .endOfInput fun nodes ts => nodes = [] ∧ ts = []) := by
  have hending : ending.Makes limit fun nodes ts => nodes = [] ∧ ts = [] := by
    intro offset text m _ hm
    cases text with
    | nil =>
      obtain rfl := Option.some.inj hm
      exact ⟨[], .nil rfl, rfl, rfl⟩
    | cons c rest => cases hm
  have hreader : Rule.endOfInput.reader = Rule.endOfInput.conclude ending :=
    Rule.reader_eq .endOfInput
  rw [hreader]
  exact hending.conclude rfl

/-- The nodes of a program, from which a well-formed one is built. -/
def MadeProgram (nodes : List Node) (ts : List Token) : Prop :=
  ∃ p, Program.ofNodes? nodes = some p ∧ p.wellFormed = true ∧ ts = p.tokens

theorem madeProgram_of_repeated {nodes nodes' : List Node} {ts ts' : List Token}
    (hclauses : Repeated MadeClause nodes ts) (hrest : MadeProgram nodes' ts') :
    MadeProgram (nodes ++ nodes') (ts ++ ts') := by
  induction hclauses with
  | nil => exact hrest
  | cons hfirst _ ih =>
    obtain ⟨start, text, inner, clause, rfl, hclause, hwf, rfl⟩ := hfirst
    obtain ⟨p, hp, hwf', htokens⟩ := ih
    refine ⟨{ p with clauses := clause :: p.clauses }, ?_, ?_, ?_⟩
    · rw [List.append_assoc, List.singleton_append, Program.ofNodes?]
      · simp [hclause, hp]
      · simp
    · simp only [Program.wellFormed, Bool.and_eq_true] at hwf' ⊢
      simpa [hwf] using hwf'
    · rw [List.append_assoc, htokens]
      simp [Program.tokens]

theorem makes_program : Rule.program.reader.Makes limit MadeProgram := by
  have hclauses := (@makes_clause limit).many (Rule.splits_reader .clause)
  have hrest := makes_query.spaced (Rule.splits_reader .query) (@makes_endOfInput limit)
  have hprogram := (Makes.empty limit).spaced splits_empty
    (hclauses.spaced (Splits.many splits_blanks (Rule.splits_reader .clause)) hrest)
  rw [Rule.reader_program, Rule.conclude_of_silent rfl]
  refine hprogram.mono (Nat.le_refl _) ?_
  rintro _ _ ⟨_, _, _, _, rfl, rfl, ⟨rfl, rfl⟩, _, _, _, _, rfl, rfl, hmany, _, _, _, _, rfl, rfl,
    ⟨_, _, _, _, _, _, _, _, items, goals, rfl, hgoals, hne, hall, rfl⟩, _, _, _, rfl, rfl, rfl⟩
  rw [List.nil_append, List.nil_append]
  refine madeProgram_of_repeated hmany ⟨⟨[], goals⟩, ?_, ?_, ?_⟩
  · simp [Program.ofNodes?, hgoals]
  · simpa [Program.wellFormed, hne, List.all_eq_true] using hall
  · simp [Program.tokens]

end

/-- The one result of parsing: a tree of the text, or the error of recognizing it. -/
theorem Program.parse_cases (text : Text) :
    (∃ p, parse text = .ok p ∧ recognize text = .ok () ∧ p.wellFormed = true ∧
      Spelled p.tokens text) ∨
      ∃ e, parse text = .error (.mismatch e) ∧ recognize text = .error e := by
  rcases Option.eq_none_or_eq_some (Rule.program.reader 0 text).found with hfound | ⟨m, hfound⟩
  · refine Or.inr ⟨_, ?_, recognize_of_none hfound⟩
    unfold parse
    rw [Rule.matchText_of_none hfound]
  · obtain ⟨ts, hspelled, p, hp, hwf, rfl⟩ := makes_program 0 text m (Nat.le_refl _) hfound
    have htext := Rule.splits_reader .program _ _ _ hfound
    rw [Rule.finishes_program _ _ _ hfound, List.append_nil] at htext
    refine Or.inl ⟨p, ?_, recognize_of_some hfound, hwf, htext ▸ hspelled⟩
    unfold parse
    simp only [Rule.matchText_of_some hfound, hp]

end HornSyntax
