import HornSyntax.Proofs.Token

/-!
Unique readability. The tokens of a phrase determine the phrase and where it
ends, as long as no bracket follows that could open another argument list. So
two well-formed programs with the same tokens are the same.
-/

namespace HornSyntax

open Token (separated group)

/-- No argument list opens here. -/
def Closes (rest : List Token) : Prop := ∀ t ∈ rest.head?, t ≠ .lparen

/-- The tokens of a phrase tell the phrase from all others and from what follows. -/
def Readable {α : Type} (wellFormed : α → Bool) (tokens : α → List Token) (a : α) : Prop :=
  ∀ b rest rest', wellFormed b = true → Closes rest → Closes rest' →
    tokens a ++ rest = tokens b ++ rest' → a = b ∧ rest = rest'

section

variable {α : Type} {wellFormed : α → Bool} {tokens : α → List Token}

theorem eq_of_flatMap_append {close : Token} (hclose : close ≠ .comma) (hparen : close ≠ .lparen)
    {as bs : List α} {rest rest' : List Token} (has : ∀ a ∈ as, Readable wellFormed tokens a)
    (hbs : ∀ b ∈ bs, wellFormed b = true)
    (h : (as.map tokens).flatMap (.comma :: ·) ++ close :: rest =
      (bs.map tokens).flatMap (.comma :: ·) ++ close :: rest') : as = bs ∧ rest = rest' := by
  have hcloses : ∀ (cs : List α) (rest : List Token),
      Closes ((cs.map tokens).flatMap (.comma :: ·) ++ close :: rest) := by
    intro cs rest t ht
    cases cs with
    | nil =>
      obtain rfl : close = t := by simpa using ht
      exact hparen
    | cons c more =>
      obtain rfl : Token.comma = t := by simpa using ht
      simp
  induction as generalizing bs with
  | nil =>
    cases bs with
    | nil => exact ⟨rfl, (List.cons.inj h).2⟩
    | cons b more => exact absurd (List.cons.inj h).1 hclose
  | cons a as ih =>
    cases bs with
    | nil => exact absurd (List.cons.inj h).1.symm hclose
    | cons b bs =>
      simp only [List.map_cons, List.flatMap_cons, List.cons_append, List.append_assoc] at h
      obtain ⟨rfl, hrest⟩ := has a List.mem_cons_self b _ _ (hbs b List.mem_cons_self)
        (hcloses as rest) (hcloses bs rest') (List.cons.inj h).2
      obtain ⟨rfl, rfl⟩ := ih (fun a' ha' => has a' (List.mem_cons_of_mem _ ha'))
        (fun b' hb' => hbs b' (List.mem_cons_of_mem _ hb')) hrest
      exact ⟨rfl, rfl⟩

theorem eq_of_separated_append {close : Token} (hclose : close ≠ .comma) (hparen : close ≠ .lparen)
    {as bs : List α} {rest rest' : List Token} (has : ∀ a ∈ as, Readable wellFormed tokens a)
    (hbs : ∀ b ∈ bs, wellFormed b = true) (hne : as ≠ []) (hne' : bs ≠ [])
    (h : separated (as.map tokens) ++ close :: rest = separated (bs.map tokens) ++ close :: rest') :
    as = bs ∧ rest = rest' := by
  have hcomma : ∀ {cs : List α}, cs ≠ [] →
      (cs.map tokens).flatMap (.comma :: ·) = .comma :: separated (cs.map tokens) := by
    intro cs hcs
    cases cs with
    | nil => exact absurd rfl hcs
    | cons c more => simp [separated]
  refine eq_of_flatMap_append hclose hparen has hbs ?_
  rw [hcomma hne, hcomma hne', List.cons_append, List.cons_append, h]

end

theorem not_closes_group (g : List Term) (rest : List Token) : ¬ Closes (group g ++ rest) :=
  fun h => h .lparen rfl rfl

theorem eq_of_group_append {g g' : List Term} {rest rest' : List Token}
    (hg : ∀ t ∈ g, Readable Term.wellFormed Term.tokens t)
    (hg' : ∀ t ∈ g', t.wellFormed = true) (hne : g ≠ []) (hne' : g' ≠ [])
    (h : group g ++ rest = group g' ++ rest') : g = g' ∧ rest = rest' := by
  simp only [group, List.cons_append, List.append_assoc, List.nil_append, List.cons.injEq,
    true_and] at h
  exact eq_of_separated_append (by decide) (by decide) hg hg' hne hne' h

/-- A bare atom is told from a compound term by the bracket that follows. -/
theorem Term.readable {t : Term} (ht : t.wellFormed = true) :
    Readable Term.wellFormed Term.tokens t := by
  induction t using Term.induction with
  | atom a =>
    intro u rest rest' hu hrest hrest' h
    cases u with
    | atom b => simpa [tokens] using h
    | var letters => simp [tokens] at h
    | numeral digits => simp [tokens] at h
    | compound functor arguments =>
      rw [tokens_compound] at h
      have hparen : rest = group arguments ++ rest' := (List.cons.inj h).2
      exact absurd (hparen ▸ hrest) (not_closes_group arguments rest')
  | var letters =>
    intro u rest rest' hu hrest hrest' h
    cases u with
    | var letters' => simpa [tokens] using h
    | _ => simp [tokens] at h
  | numeral digits =>
    intro u rest rest' hu hrest hrest' h
    cases u with
    | numeral digits' => simpa [tokens] using h
    | _ => simp [tokens] at h
  | compound functor arguments ih =>
    intro u rest rest' hu hrest hrest' h
    obtain ⟨-, hne, hall⟩ := wellFormed_compound.mp ht
    rw [tokens_compound] at h
    cases u with
    | atom b =>
      have hparen : group arguments ++ rest = rest' := (List.cons.inj h).2
      exact absurd (hparen ▸ hrest') (not_closes_group arguments rest)
    | var letters => simp [tokens] at h
    | numeral digits => simp [tokens] at h
    | compound functor' arguments' =>
      obtain ⟨-, hne', hall'⟩ := wellFormed_compound.mp hu
      rw [tokens_compound] at h
      obtain ⟨hfunctor, hgroup⟩ := List.cons.inj h
      obtain rfl := Token.symbol.inj hfunctor
      obtain ⟨rfl, rfl⟩ := eq_of_group_append (fun t ht => ih t ht (hall t ht)) hall' hne hne' hgroup
      exact ⟨rfl, rfl⟩

theorem eq_of_groups_append {gs gs' : List (List Term)} {rest rest' : List Token}
    (hgs : ∀ g ∈ gs, g ≠ [] ∧ ∀ t ∈ g, t.wellFormed = true)
    (hgs' : ∀ g ∈ gs', g ≠ [] ∧ ∀ t ∈ g, t.wellFormed = true) (hrest : Closes rest)
    (hrest' : Closes rest') (h : gs.flatMap group ++ rest = gs'.flatMap group ++ rest') :
    gs = gs' ∧ rest = rest' := by
  induction gs generalizing gs' with
  | nil =>
    cases gs' with
    | nil => exact ⟨rfl, h⟩
    | cons g' more =>
      have hparen : rest = group g' ++ (more.flatMap group ++ rest') := by
        rw [← List.append_assoc]
        exact h
      exact absurd (hparen ▸ hrest) (not_closes_group g' _)
  | cons g gs ih =>
    cases gs' with
    | nil =>
      have hparen : rest' = group g ++ (gs.flatMap group ++ rest) := by
        rw [← List.append_assoc]
        exact h.symm
      exact absurd (hparen ▸ hrest') (not_closes_group g _)
    | cons g' gs' =>
      obtain ⟨⟨hne, hall⟩, hmore⟩ := List.forall_mem_cons.mp hgs
      obtain ⟨⟨hne', hall'⟩, hmore'⟩ := List.forall_mem_cons.mp hgs'
      simp only [List.flatMap_cons, List.append_assoc] at h
      obtain ⟨rfl, hgroups⟩ :=
        eq_of_group_append (fun t ht => Term.readable (hall t ht)) hall' hne hne' h
      obtain ⟨rfl, rfl⟩ := ih hmore hmore' hgroups
      exact ⟨rfl, rfl⟩

theorem Predicate.readable {p : Predicate} (hp : p.wellFormed = true) :
    Readable Predicate.wellFormed Predicate.tokens p := by
  intro q rest rest' hq hrest hrest' h
  simp only [wellFormed, Bool.and_eq_true, List.all_eq_true, Bool.not_eq_true',
    List.isEmpty_eq_false_iff] at hp hq
  obtain ⟨hname, hgroups⟩ := List.cons.inj h
  obtain ⟨hgs, rfl⟩ := eq_of_groups_append hp.2 hq.2 hrest hrest' hgroups
  obtain ⟨a, gs⟩ := p
  obtain ⟨b, gs'⟩ := q
  obtain rfl : a = b := Token.name.inj hname
  obtain rfl : gs = gs' := hgs
  exact ⟨rfl, rfl⟩

theorem Clause.eq_of_tokens_append {c d : Clause} {rest rest' : List Token}
    (hc : c.wellFormed = true) (hd : d.wellFormed = true)
    (h : c.tokens ++ rest = d.tokens ++ rest') : c = d ∧ rest = rest' := by
  simp only [wellFormed, Bool.and_eq_true, List.all_eq_true] at hc hd
  obtain ⟨p, ps⟩ := c
  obtain ⟨q, qs⟩ := d
  simp only [tokens, List.append_assoc] at h
  have hcloses : ∀ (ps : List Predicate) (rest : List Token),
      Closes ((if ps.isEmpty then [] else .neck :: separated (ps.map Predicate.tokens)) ++
        ([.dot] ++ rest)) := by
    intro ps rest t ht
    cases ps with
    | nil =>
      obtain rfl : Token.dot = t := by simpa using ht
      simp
    | cons p more =>
      obtain rfl : Token.neck = t := by simpa using ht
      simp
  obtain ⟨rfl, hbody⟩ := Predicate.readable hc.1 q _ _ hd.1 (hcloses ps rest) (hcloses qs rest') h
  by_cases hps : ps = [] <;> by_cases hqs : qs = [] <;>
    simp only [hps, hqs, List.isEmpty_iff, if_true, if_false, List.nil_append, List.cons_append,
      List.cons.injEq, reduceCtorEq, false_and, true_and] at hbody
  · exact ⟨by rw [hps, hqs], hbody⟩
  · obtain ⟨rfl, rfl⟩ := eq_of_separated_append (by decide) (by decide)
      (fun p hp => Predicate.readable (hc.2 p hp)) hd.2 hps hqs hbody
    exact ⟨rfl, rfl⟩

theorem Program.eq_of_tokens {p q : Program} (hp : p.wellFormed = true) (hq : q.wellFormed = true)
    (h : p.tokens = q.tokens) : p = q := by
  obtain ⟨cs, goals⟩ := p
  obtain ⟨ds, goals'⟩ := q
  simp only [wellFormed, Bool.and_eq_true, List.all_eq_true, Bool.not_eq_true',
    List.isEmpty_eq_false_iff] at hp hq
  obtain ⟨⟨hcs, hne⟩, hgoals⟩ := hp
  obtain ⟨⟨hds, hne'⟩, hgoals'⟩ := hq
  simp only [tokens] at h
  induction cs generalizing ds with
  | nil =>
    cases ds with
    | nil =>
      simp only [List.flatMap_nil, List.nil_append, queryTokens, List.cons.injEq, true_and] at h
      obtain ⟨rfl, -⟩ := eq_of_separated_append (by decide) (by decide)
        (fun p hp => Predicate.readable (hgoals p hp)) hgoals' hne hne' h
      rfl
    | cons d more => simp [queryTokens, Clause.tokens, Predicate.tokens] at h
  | cons c cs ih =>
    cases ds with
    | nil => simp [queryTokens, Clause.tokens, Predicate.tokens] at h
    | cons d ds =>
      obtain ⟨hc, hmore⟩ := List.forall_mem_cons.mp hcs
      obtain ⟨hd, hmore'⟩ := List.forall_mem_cons.mp hds
      simp only [List.flatMap_cons, List.append_assoc] at h
      obtain ⟨rfl, hrest⟩ := Clause.eq_of_tokens_append hc hd h
      obtain ⟨rfl, rfl⟩ := Program.mk.inj (ih ds hrest hmore hmore')
      rfl

end HornSyntax
