import HornSyntax.Proofs.Token

/-!
How far a program has been read, as far as it decides what may come next. A
stage knows the place of the predicate it is in and how many argument lists
are open, and a token leads from one stage to at most one other. The tokens of
a program lead from the start to the end, and every stage can be completed.
-/

namespace HornSyntax

/-- Where a predicate stands. -/
inductive Place where
  | head
  | body
  | goals
  deriving DecidableEq

/-- The depth counts the argument lists that are open around the innermost one.
An argument that is a bare atom may still be followed by a list of its own. -/
inductive Stage where
  | start
  | predicate (place : Place)
  | predicateEnd (place : Place)
  | argument (place : Place) (depth : Nat)
  | argumentEnd (place : Place) (depth : Nat) (bare : Bool)
  | finished
  deriving DecidableEq

namespace Stage

/-- The stage after the end of an argument list. -/
def closed (place : Place) : Nat → Stage
  | 0 => predicateEnd place
  | depth + 1 => argumentEnd place depth false

def next : Stage → Token → Option Stage
  | start, .name _ => some (predicateEnd .head)
  | start, .queryStart => some (predicate .goals)
  | predicate place, .name _ => some (predicateEnd place)
  | predicateEnd place, .lparen => some (argument place 0)
  | predicateEnd .head, .neck => some (predicate .body)
  | predicateEnd .head, .dot => some start
  | predicateEnd .body, .comma => some (predicate .body)
  | predicateEnd .body, .dot => some start
  | predicateEnd .goals, .comma => some (predicate .goals)
  | predicateEnd .goals, .dot => some finished
  | argument place depth, .symbol _ => some (argumentEnd place depth true)
  | argument place depth, .var _ => some (argumentEnd place depth false)
  | argument place depth, .numeral _ => some (argumentEnd place depth false)
  | argumentEnd place depth true, .lparen => some (argument place (depth + 1))
  | argumentEnd place depth _, .comma => some (argument place depth)
  | argumentEnd place depth _, .rparen => some (closed place depth)
  | _, _ => none

/-- What may come next, under the names by which an error lists it. -/
def expected : Stage → List Rule
  | start => [.atom, .queryStart]
  | predicate _ => [.atom]
  | predicateEnd .head => [.lparen, .neck, .dot]
  | predicateEnd _ => [.lparen, .comma, .dot]
  | argument _ _ => [.term]
  | argumentEnd _ _ true => [.lparen, .comma, .rparen]
  | argumentEnd _ _ false => [.comma, .rparen]
  | finished => [.endOfInput]

theorem next_lparen_predicateEnd (place : Place) :
    (predicateEnd place).next .lparen = some (argument place 0) := by
  cases place <;> rfl

def run (s : Stage) : List Token → Option Stage
  | [] => some s
  | t :: ts => (s.next t).bind fun s' => s'.run ts

@[simp] theorem run_nil (s : Stage) : s.run [] = some s := rfl

theorem run_cons {s s' : Stage} {t : Token} (h : s.next t = some s') (ts : List Token) :
    s.run (t :: ts) = s'.run ts := by
  rw [run, h, Option.bind_some]

theorem run_append {s s' : Stage} {ts : List Token} (h : s.run ts = some s') (us : List Token) :
    s.run (ts ++ us) = s'.run us := by
  induction ts generalizing s with
  | nil =>
    obtain rfl := Option.some.inj h
    rfl
  | cons t ts ih =>
    obtain ⟨s₁, hnext, hrun⟩ := Option.bind_eq_some_iff.mp h
    rw [List.cons_append, run_cons hnext, ih hrun]

theorem run_append_eq_some_iff {s s' : Stage} {ts us : List Token} :
    s.run (ts ++ us) = some s' ↔ ∃ s₁, s.run ts = some s₁ ∧ s₁.run us = some s' := by
  constructor
  · intro h
    induction ts generalizing s with
    | nil => exact ⟨s, rfl, h⟩
    | cons t ts ih =>
      obtain ⟨s₁, hnext, hrun⟩ := Option.bind_eq_some_iff.mp h
      obtain ⟨s₂, hts, hus⟩ := ih hrun
      exact ⟨s₂, by rw [run_cons hnext, hts], hus⟩
  · rintro ⟨s₁, hts, hus⟩
    rw [run_append hts, hus]

theorem rule_mem_expected {s s' : Stage} {t : Token} (h : s.next t = some s') :
    t.rule ∈ s.expected := by
  rcases s with _ | _ | ⟨⟨⟩⟩ | _ | ⟨_, _, ⟨⟩⟩ | _ <;> cases t <;>
    simp_all [next, expected, Token.rule]

theorem endOfInput_mem_expected {s : Stage} : .endOfInput ∈ s.expected ↔ s = finished := by
  rcases s with _ | _ | ⟨⟨⟩⟩ | _ | ⟨_, _, ⟨⟩⟩ | _ <;> simp [expected]

theorem expected_ne_nil (s : Stage) : s.expected ≠ [] := by
  rcases s with _ | _ | ⟨⟨⟩⟩ | _ | ⟨_, _, ⟨⟩⟩ | _ <;> simp [expected]

/-- Everything that is listed as expected is a class of tokens that fit. -/
theorem exists_next {s : Stage} {r : Rule} (hr : r ∈ s.expected) (hend : r ≠ .endOfInput) :
    ∃ t s', t.wellFormed = true ∧ t.rule = r ∧ s.next t = some s' := by
  have hname : (Token.name (.name ['a'])).wellFormed = true := by decide
  have hsymbol : (Token.symbol (.name ['a'])).wellFormed = true := by decide
  rcases s with _ | place | ⟨⟨⟩⟩ | _ | ⟨_, _, ⟨⟩⟩ | _ <;>
    simp only [expected, List.mem_cons, List.not_mem_nil, or_false] at hr
  · rcases hr with rfl | rfl
    · exact ⟨_, _, hname, rfl, rfl⟩
    · exact ⟨.queryStart, _, rfl, rfl, rfl⟩
  · subst hr
    exact ⟨_, _, hname, rfl, rfl⟩
  · rcases hr with rfl | rfl | rfl
    · exact ⟨.lparen, _, rfl, rfl, rfl⟩
    · exact ⟨.neck, _, rfl, rfl, rfl⟩
    · exact ⟨.dot, _, rfl, rfl, rfl⟩
  · rcases hr with rfl | rfl | rfl
    · exact ⟨.lparen, _, rfl, rfl, rfl⟩
    · exact ⟨.comma, _, rfl, rfl, rfl⟩
    · exact ⟨.dot, _, rfl, rfl, rfl⟩
  · rcases hr with rfl | rfl | rfl
    · exact ⟨.lparen, _, rfl, rfl, rfl⟩
    · exact ⟨.comma, _, rfl, rfl, rfl⟩
    · exact ⟨.dot, _, rfl, rfl, rfl⟩
  · subst hr
    exact ⟨_, _, hsymbol, rfl, rfl⟩
  · rcases hr with rfl | rfl
    · exact ⟨.comma, _, rfl, rfl, rfl⟩
    · exact ⟨.rparen, _, rfl, rfl, rfl⟩
  · rcases hr with rfl | rfl | rfl
    · exact ⟨.lparen, _, rfl, rfl, rfl⟩
    · exact ⟨.comma, _, rfl, rfl, rfl⟩
    · exact ⟨.rparen, _, rfl, rfl, rfl⟩
  · exact absurd hr hend

/-- Items that all lead to a stage where a comma leads back do so as a list. -/
theorem run_separated {s : Stage} {ends : Stage → Prop} {items : List (List Token)}
    (hcomma : ∀ e, ends e → e.next .comma = some s)
    (hitems : ∀ ts ∈ items, ∃ e, ends e ∧ s.run ts = some e) (hne : items ≠ []) :
    ∃ e, ends e ∧ s.run (Token.separated items) = some e := by
  have hmore : ∀ (more : List (List Token)) e, (∀ ts ∈ more, ts ∈ items) → ends e →
      ∃ e', ends e' ∧ e.run (more.flatMap (Token.comma :: ·)) = some e' := by
    intro more
    induction more with
    | nil => exact fun e _ he => ⟨e, he, rfl⟩
    | cons ts rest ih =>
      intro e hmem he
      obtain ⟨e₁, he₁, hrun⟩ := hitems ts (hmem ts List.mem_cons_self)
      obtain ⟨e₂, he₂, hrest⟩ := ih e₁ (fun us hus => hmem us (List.mem_cons_of_mem _ hus)) he₁
      refine ⟨e₂, he₂, ?_⟩
      rw [List.flatMap_cons, List.cons_append, run_cons (hcomma e he), run_append hrun, hrest]
  cases items with
  | nil => exact absurd rfl hne
  | cons first more =>
    obtain ⟨e, he, hrun⟩ := hitems first List.mem_cons_self
    obtain ⟨e', he', hrest⟩ := hmore more e (fun _ h => List.mem_cons_of_mem _ h) he
    exact ⟨e', he', by rw [Token.separated, run_append hrun, hrest]⟩

theorem run_terms {place : Place} {depth : Nat} {terms : List Term} (hne : terms ≠ [])
    (hterms : ∀ t ∈ terms, ∃ bare,
      (argument place depth).run t.tokens = some (argumentEnd place depth bare)) :
    ∃ bare, (argument place depth).run (Token.separated (terms.map Term.tokens)) =
      some (argumentEnd place depth bare) := by
  have hitems : ∀ ts ∈ terms.map Term.tokens, ∃ e, (∃ bare, e = argumentEnd place depth bare) ∧
      (argument place depth).run ts = some e := by
    intro ts hts
    obtain ⟨t, ht, rfl⟩ := List.mem_map.mp hts
    obtain ⟨bare, hrun⟩ := hterms t ht
    exact ⟨_, ⟨bare, rfl⟩, hrun⟩
  have hcomma : ∀ e, (∃ bare, e = argumentEnd place depth bare) →
      e.next .comma = some (argument place depth) := by
    rintro _ ⟨bare, rfl⟩
    cases bare <;> rfl
  obtain ⟨_, ⟨bare, rfl⟩, hrun⟩ := run_separated hcomma hitems (by simpa using hne)
  exact ⟨bare, hrun⟩

theorem run_group {s : Stage} {place : Place} {depth : Nat} {terms : List Term}
    (hopen : s.next .lparen = some (argument place depth)) (hne : terms ≠ [])
    (hterms : ∀ t ∈ terms, ∃ bare,
      (argument place depth).run t.tokens = some (argumentEnd place depth bare)) :
    s.run (Token.group terms) = some (closed place depth) := by
  obtain ⟨bare, hrun⟩ := run_terms hne hterms
  have hclose : (argumentEnd place depth bare).next .rparen = some (closed place depth) := by
    cases bare <;> rfl
  rw [Token.group, run_cons hopen, run_append hrun, run_cons hclose, run_nil]

theorem run_term (t : Term) (h : t.wellFormed = true) (place : Place) (depth : Nat) :
    ∃ bare, (argument place depth).run t.tokens = some (argumentEnd place depth bare) := by
  induction t using Term.induction generalizing depth with
  | atom a => exact ⟨true, by rw [Term.tokens]; rfl⟩
  | var letters => exact ⟨false, by rw [Term.tokens]; rfl⟩
  | numeral digits => exact ⟨false, by rw [Term.tokens]; rfl⟩
  | compound functor arguments ih =>
    obtain ⟨-, hne, hargs⟩ := Term.wellFormed_compound.mp h
    have hsymbol : (argument place depth).next (.symbol functor) =
        some (argumentEnd place depth true) := rfl
    have hgroup : (argumentEnd place depth true).run (Token.group arguments) =
        some (closed place (depth + 1)) :=
      run_group rfl hne fun t ht => ih t ht (hargs t ht) (depth + 1)
    exact ⟨false, by rw [Term.tokens_compound, run_cons hsymbol, hgroup]; rfl⟩

theorem run_predicate {s : Stage} {place : Place} {p : Predicate} (h : p.wellFormed = true)
    (hname : s.next (.name p.name) = some (predicateEnd place)) :
    s.run p.tokens = some (predicateEnd place) := by
  simp only [Predicate.wellFormed, Bool.and_eq_true, List.all_eq_true, Bool.not_eq_true',
    List.isEmpty_eq_false_iff] at h
  rw [Predicate.tokens, run_cons hname]
  have hgroups : ∀ groups : List (List Term), (∀ g ∈ groups, g ∈ p.arguments) →
      (predicateEnd place).run (groups.flatMap Token.group) = some (predicateEnd place) := by
    intro groups hmem
    induction groups with
    | nil => rfl
    | cons g rest ih =>
      obtain ⟨hne, hterms⟩ := h.2 g (hmem g List.mem_cons_self)
      have hgroup : (predicateEnd place).run (Token.group g) = some (closed place 0) :=
        run_group (next_lparen_predicateEnd place) hne fun t ht => run_term t (hterms t ht) place 0
      rw [List.flatMap_cons, run_append hgroup]
      exact ih fun g' hg' => hmem g' (List.mem_cons_of_mem _ hg')
  exact hgroups p.arguments fun g hg => hg

theorem run_predicates {place : Place} {ps : List Predicate} (hplace : place ≠ .head)
    (h : ∀ p ∈ ps, p.wellFormed = true) (hne : ps ≠ []) :
    (predicate place).run (Token.separated (ps.map Predicate.tokens)) =
      some (predicateEnd place) := by
  have hitems : ∀ ts ∈ ps.map Predicate.tokens, ∃ e, e = predicateEnd place ∧
      (predicate place).run ts = some e := by
    intro ts hts
    obtain ⟨p, hp, rfl⟩ := List.mem_map.mp hts
    exact ⟨_, rfl, run_predicate (h p hp) rfl⟩
  have hcomma : ∀ e, e = predicateEnd place → e.next .comma = some (predicate place) := by
    rintro _ rfl
    cases place with
    | head => exact absurd rfl hplace
    | body => rfl
    | goals => rfl
  obtain ⟨_, rfl, hrun⟩ := run_separated hcomma hitems (by simpa using hne)
  exact hrun

theorem run_clause {c : Clause} (h : c.wellFormed = true) : start.run c.tokens = some start := by
  simp only [Clause.wellFormed, Bool.and_eq_true, List.all_eq_true] at h
  have hhead : start.run c.head.tokens = some (predicateEnd .head) := run_predicate h.1 rfl
  by_cases hbody : c.body = []
  · simp only [Clause.tokens, hbody, List.isEmpty_nil, if_true, List.append_nil]
    rw [run_append hhead]
    rfl
  · have hneck : (predicateEnd .head).run
        (.neck :: Token.separated (c.body.map Predicate.tokens)) = some (predicateEnd .body) :=
      run_predicates (by decide) h.2 hbody
    simp only [Clause.tokens, List.isEmpty_iff, hbody, if_false]
    rw [List.append_assoc, run_append hhead, run_append hneck]
    rfl

theorem run_query {goals : List Predicate} (h : ∀ p ∈ goals, p.wellFormed = true)
    (hne : goals ≠ []) : start.run (Program.queryTokens goals) = some finished := by
  have hstart : start.next .queryStart = some (predicate .goals) := rfl
  rw [Program.queryTokens, run_cons hstart, run_append (run_predicates (by decide) h hne)]
  rfl

theorem run_clauses {clauses : List Clause} (h : ∀ c ∈ clauses, c.wellFormed = true) :
    start.run (clauses.flatMap Clause.tokens) = some start := by
  induction clauses with
  | nil => rfl
  | cons c rest ih =>
    rw [List.flatMap_cons, run_append (run_clause (h c List.mem_cons_self))]
    exact ih fun c' hc' => h c' (List.mem_cons_of_mem _ hc')

/-- The tokens of a program lead from the start to the end. -/
theorem run_program {p : Program} (h : p.wellFormed = true) :
    start.run p.tokens = some finished := by
  simp only [Program.wellFormed, Bool.and_eq_true, List.all_eq_true, Bool.not_eq_true',
    List.isEmpty_eq_false_iff] at h
  rw [Program.tokens, run_append (run_clauses h.1.1), run_query h.2 h.1.2]

theorem exists_run_of_predicateEnd (place : Place) :
    ∃ ts, (∀ t ∈ ts, t.wellFormed = true) ∧ (predicateEnd place).run ts = some finished := by
  cases place with
  | head => exact ⟨[.dot, .queryStart, .name (.name ['a']), .dot], by decide, rfl⟩
  | body => exact ⟨[.dot, .queryStart, .name (.name ['a']), .dot], by decide, rfl⟩
  | goals => exact ⟨[.dot], by decide, rfl⟩

theorem exists_run_of_argumentEnd (place : Place) (depth : Nat) (bare : Bool) :
    ∃ ts, (∀ t ∈ ts, t.wellFormed = true) ∧
      (argumentEnd place depth bare).run ts = some finished := by
  induction depth generalizing bare with
  | zero =>
    obtain ⟨ts, hwf, hrun⟩ := exists_run_of_predicateEnd place
    refine ⟨.rparen :: ts, List.forall_mem_cons.mpr ⟨rfl, hwf⟩, ?_⟩
    cases bare <;> exact hrun
  | succ depth ih =>
    obtain ⟨ts, hwf, hrun⟩ := ih false
    refine ⟨.rparen :: ts, List.forall_mem_cons.mpr ⟨rfl, hwf⟩, ?_⟩
    cases bare <;> exact hrun

/-- Every stage can be completed. -/
theorem exists_run_finished (s : Stage) :
    ∃ ts, (∀ t ∈ ts, t.wellFormed = true) ∧ s.run ts = some finished := by
  cases s with
  | start => exact ⟨[.queryStart, .name (.name ['a']), .dot], by decide, rfl⟩
  | predicate place =>
    obtain ⟨ts, hwf, hrun⟩ := exists_run_of_predicateEnd place
    exact ⟨.name (.name ['a']) :: ts, List.forall_mem_cons.mpr ⟨by decide, hwf⟩, hrun⟩
  | predicateEnd place => exact exists_run_of_predicateEnd place
  | argument place depth =>
    obtain ⟨ts, hwf, hrun⟩ := exists_run_of_argumentEnd place depth true
    exact ⟨.symbol (.name ['a']) :: ts, List.forall_mem_cons.mpr ⟨by decide, hwf⟩, hrun⟩
  | argumentEnd place depth bare => exact exists_run_of_argumentEnd place depth bare
  | finished => exact ⟨[], by simp, rfl⟩

end Stage

end HornSyntax
