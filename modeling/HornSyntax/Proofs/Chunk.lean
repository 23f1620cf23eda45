import HornSyntax.Proofs.Acceptance

/-!
Texts cut at their dots. Where there are no quotations a dot ends a clause or
the query, so the text up to the next dot is a clause, or it is a query, or the
reading of it gets stuck before or at the dot. The clauses in front of such a
text leave no trace in the error but its distance from the start.
-/

namespace HornSyntax

open CharacterClass
open Token (separated group)

section

variable {α : Type} {x : α} {first left right rest : List α}

/-- What does not hold an element lies before its first place. -/
theorem exists_append_of_notMem (hx : x ∉ first) (h : first ++ rest = left ++ x :: right) :
    ∃ between, left = first ++ between ∧ rest = between ++ x :: right := by
  rcases List.append_eq_append_iff.mp h with ⟨between, hleft, hrest⟩ | ⟨between, hfirst, hright⟩
  · exact ⟨between, hleft, hrest⟩
  · cases between with
    | nil => exact ⟨[], by simpa using hfirst.symm, by simpa using hright.symm⟩
    | cons y more =>
      obtain ⟨rfl, -⟩ := List.cons.inj hright
      exact absurd (by simp [hfirst]) hx

theorem eq_of_append_cons (hfirst : x ∉ first) (hleft : x ∉ left)
    (h : first ++ x :: rest = left ++ x :: right) : first = left ∧ rest = right := by
  obtain ⟨between, rfl, hrest⟩ := exists_append_of_notMem hfirst h
  cases between with
  | nil =>
    obtain ⟨-, rfl⟩ := List.cons.inj hrest
    exact ⟨by simp, rfl⟩
  | cons y more =>
    obtain ⟨rfl, -⟩ := List.cons.inj hrest
    exact absurd (by simp) hleft

end

theorem Text.eq_nil_of_bytes_eq_zero {text : Text} (h : text.bytes = 0) : text = [] := by
  cases text with
  | nil => rfl
  | cons c rest =>
    have hpos := c.utf8Size_pos
    rw [bytes_cons] at h
    omega

/-- A text of one clause with its dot. -/
def Text.IsClause (text : Text) : Prop :=
  ∃ c : Clause, c.wellFormed = true ∧ Spelled c.tokens text

/-- A text of any number of clauses, each with its dot. -/
def Text.IsClauses (text : Text) : Prop :=
  ∃ clauses : List Clause, (∀ k ∈ clauses, k.wellFormed = true) ∧
    Spelled (clauses.flatMap Clause.tokens) text

/-- A text of one query with its dot. -/
def Text.IsQuery (text : Text) : Prop :=
  ∃ goals : List Predicate, goals ≠ [] ∧ (∀ p ∈ goals, p.wellFormed = true) ∧
    Spelled (Program.queryTokens goals) text

namespace Token

theorem dot_notMem_separated {items : List (List Token)} (h : ∀ ts ∈ items, dot ∉ ts) :
    dot ∉ separated items := by
  intro hmem
  rcases mem_separated hmem with heq | ⟨ts, hts, hdot⟩
  · cases heq
  · exact h ts hts hdot

theorem dot_notMem_group {g : List Term} (h : ∀ t ∈ g, dot ∉ t.tokens) : dot ∉ group g := by
  have hlist : dot ∉ separated (g.map Term.tokens) := by
    apply dot_notMem_separated
    intro ts hts
    obtain ⟨t, ht, rfl⟩ := List.mem_map.mp hts
    exact h t ht
  simpa [group] using hlist

end Token

theorem Term.dot_notMem_tokens (t : Term) : .dot ∉ t.tokens := by
  induction t using Term.induction with
  | atom a => simp [tokens]
  | var letters => simp [tokens]
  | numeral digits => simp [tokens]
  | compound functor arguments ih =>
    rw [tokens_compound]
    simpa using Token.dot_notMem_group ih

theorem Predicate.dot_notMem_tokens (p : Predicate) : .dot ∉ p.tokens := by
  intro hmem
  rcases List.mem_cons.mp hmem with heq | hgroups
  · cases heq
  · obtain ⟨g, -, hg⟩ := List.mem_flatMap.mp hgroups
    exact Token.dot_notMem_group (fun t _ => t.dot_notMem_tokens) hg

theorem Predicate.dot_notMem_separated (ps : List Predicate) :
    .dot ∉ separated (ps.map Predicate.tokens) := by
  apply Token.dot_notMem_separated
  intro ts hts
  obtain ⟨p, -, rfl⟩ := List.mem_map.mp hts
  exact p.dot_notMem_tokens

/-- The dot of a clause is its last token. -/
theorem Clause.exists_front (c : Clause) : ∃ front, c.tokens = front ++ [.dot] ∧ .dot ∉ front := by
  refine ⟨_, rfl, ?_⟩
  intro hmem
  rcases List.mem_append.mp hmem with hhead | hbody
  · exact c.head.dot_notMem_tokens hhead
  · by_cases hempty : c.body = []
    · simp [hempty] at hbody
    · have hlist := Predicate.dot_notMem_separated c.body
      simp [hempty, hlist] at hbody

/-- A last token of clauses is a dot. -/
theorem Clause.eq_dot_of_mem_getLast? {clauses : List Clause} :
    ∀ t ∈ (clauses.flatMap Clause.tokens).getLast?, t = .dot := by
  intro t ht
  by_cases hnil : clauses = []
  · simp [hnil] at ht
  · obtain ⟨init, k, rfl⟩ := List.eq_nil_or_concat clauses |>.resolve_left hnil
    obtain ⟨front, hfront, -⟩ := k.exists_front
    simpa [hfront] using ht.symm

/-- Clauses are walked over from the start to the start, whatever follows them. -/
theorem Text.IsClauses.walk {text : Text} (h : text.IsClauses) (after : Text) :
    Walk (.start, (text ++ after).dropBlanks) (.start, after.dropBlanks) := by
  obtain ⟨clauses, hwf, hspelled⟩ := h
  apply Walk.of_spelled_append hspelled (Stage.run_clauses hwf)
  · intro t ht
    obtain ⟨k, hk, hmem⟩ := List.mem_flatMap.mp ht
    exact k.wellFormed_of_mem_tokens (hwf k hk) t hmem
  · intro t ht
    rw [Clause.eq_dot_of_mem_getLast? t ht]
    exact Token.endsBefore_of_isMark rfl after

theorem Program.exists_front_queryTokens (goals : List Predicate) :
    ∃ front, queryTokens goals = front ++ [.dot] ∧ .dot ∉ front := by
  refine ⟨.queryStart :: separated (goals.map Predicate.tokens), rfl, ?_⟩
  simpa using Predicate.dot_notMem_separated goals

/-- Tokens up to the first dot after the start are a clause or a query. -/
theorem exists_tokens_of_run {ts : List Token} {used : Text} {s : Stage} (hts : Spelled ts used)
    (hwf : ∀ t ∈ ts, t.wellFormed = true) (hdot : .dot ∉ ts)
    (hrun : Stage.start.run (ts ++ [.dot]) = some s) :
    (∃ c : Clause, c.wellFormed = true ∧ c.tokens = ts ++ [.dot]) ∨
      ∃ goals : List Predicate, goals ≠ [] ∧ (∀ p ∈ goals, p.wellFormed = true) ∧
        Program.queryTokens goals = ts ++ [.dot] := by
  obtain ⟨s₁, hfront, hlast⟩ := Stage.run_append_eq_some_iff.mp hrun
  obtain ⟨s₂, hnext, -⟩ := Option.bind_eq_some_iff.mp hlast
  obtain ⟨p, us, -, hp, htokens, -⟩ := Program.exists_completion hts hwf hfront rfl hnext
  obtain ⟨clauses, goals⟩ := p
  simp only [Program.wellFormed, Bool.and_eq_true, List.all_eq_true, Bool.not_eq_true',
    List.isEmpty_eq_false_iff] at hp
  cases clauses with
  | nil =>
    obtain ⟨front, hquery, hfrontDot⟩ := Program.exists_front_queryTokens goals
    have heq : front ++ .dot :: [] = ts ++ .dot :: us := by
      rw [← htokens, ← hquery]
      rfl
    obtain ⟨rfl, -⟩ := eq_of_append_cons hfrontDot hdot heq
    exact Or.inr ⟨goals, hp.1.2, hp.2, hquery⟩
  | cons c more =>
    obtain ⟨front, hclause, hfrontDot⟩ := c.exists_front
    have heq : front ++ .dot :: (Program.tokens ⟨more, goals⟩) = ts ++ .dot :: us := by
      rw [← htokens]
      simp [Program.tokens, hclause]
    obtain ⟨rfl, -⟩ := eq_of_append_cons hfrontDot hdot heq
    exact Or.inl ⟨c, hp.1.1 c List.mem_cons_self, hclause⟩

/-- A dot stands in no token but the dot itself and quotations. -/
theorem Token.eq_dot_of_mem_text {t : Token} (hwf : t.wellFormed = true) (h : '.' ∈ t.text) :
    t = .dot ∨ ∃ more, t.text = '\'' :: more := by
  rcases t.text_cases hwf with hword | ⟨letters, hquotation, -⟩ | hmark
  · exact absurd (hword '.' h) (by decide)
  · exact Or.inr ⟨_, hquotation⟩
  · refine Or.inl ?_
    cases t with
    | name a | symbol a | var letters | numeral digits => cases hmark
    | dot => rfl
    | _ => simp [text] at h

/-- Where there are no quotations, the first dot of a text is its first dot among the tokens. -/
theorem Spelled.exists_split_dot {ts : List Token} {text body rest : Text} (h : Spelled ts text)
    (hwf : ∀ t ∈ ts, t.wellFormed = true) (htext : text = body ++ '.' :: rest) (hdot : '.' ∉ body)
    (hquote : '\'' ∉ body) :
    ∃ us vs, ts = us ++ .dot :: vs ∧ Spelled us body ∧ .dot ∉ us := by
  induction h generalizing body with
  | @nil gap hgap =>
    have hmem : '.' ∈ gap := by simp [htext]
    exact absurd (List.all_eq_true.mp hgap _ hmem) (by decide)
  | @cons gap more t ts hgap hmore ih =>
    have hgapDot : '.' ∉ gap := fun hmem => absurd (List.all_eq_true.mp hgap _ hmem) (by decide)
    obtain ⟨body, rfl, hbody⟩ := exists_append_of_notMem hgapDot htext
    obtain ⟨ht, hts⟩ := List.forall_mem_cons.mp hwf
    by_cases heq : t = .dot
    · subst heq
      cases body with
      | nil => exact ⟨[], ts, rfl, .nil (by simpa using hgap), by simp⟩
      | cons c body =>
        obtain ⟨rfl, -⟩ := List.cons.inj hbody
        exact absurd (by simp) hdot
    · have hquoteBody : ∀ more, t.text ≠ '\'' :: more := by
        intro tail htail
        rw [htail] at hbody
        cases body with
        | nil => exact absurd (List.cons.inj hbody).1 (by decide)
        | cons c body =>
          obtain ⟨rfl, -⟩ := List.cons.inj hbody
          exact hquote (by simp)
      have htDot : '.' ∉ t.text := by
        intro hmem
        rcases Token.eq_dot_of_mem_text ht hmem with hdot' | ⟨tail, htail⟩
        · exact heq hdot'
        · exact hquoteBody tail htail
      obtain ⟨body, rfl, hrest⟩ := exists_append_of_notMem htDot hbody
      obtain ⟨us, vs, rfl, hus, hnone⟩ := ih hts hrest (by simp_all) (by simp_all)
      refine ⟨t :: us, vs, rfl, .cons hgap hus, ?_⟩
      simp [Ne.symm heq, hnone]

/-- A part of a text up to one of its dots, without dots and quotations inside. -/
structure Text.IsBody (body : Text) : Prop where
  ne_nil : body ≠ []
  dot : '.' ∉ body
  quote : '\'' ∉ body

instance (body : Text) : Decidable body.IsBody :=
  decidable_of_iff (body ≠ [] ∧ '.' ∉ body ∧ '\'' ∉ body)
    ⟨fun ⟨hne, hdot, hquote⟩ => ⟨hne, hdot, hquote⟩, fun h => ⟨h.ne_nil, h.dot, h.quote⟩⟩

section

variable {body rest : Text} {c : Stage × Text}

/-- A walk from the start past the first dot has passed a clause or a query. -/
theorem Walk.isClause_or_isQuery (hwalk : Walk (.start, (body ++ '.' :: rest).dropBlanks) c)
    (hbody : body.IsBody) (hle : c.2.bytes ≤ rest.bytes) :
    (body ++ ['.']).IsClause ∨ (body ++ ['.']).IsQuery := by
  obtain ⟨used, ts, hused, hspelled, hwf, hrun, -⟩ := hwalk.exists_spelled
  obtain ⟨gap, hgap, htext⟩ := Text.exists_blanks_append_dropBlanks (body ++ '.' :: rest)
  have hused' : (body ++ '.' :: rest).dropBlanks = used ++ c.2 := hused
  rw [hused', ← List.append_assoc] at htext
  have hpast : ∃ more, gap ++ used = body ++ '.' :: more := by
    have hsame : (body ++ ['.']) ++ rest = (gap ++ used) ++ c.2 := by simpa using htext
    rcases List.append_eq_append_iff.mp hsame with ⟨more, hmore, -⟩ | ⟨more, hbody', hleft⟩
    · exact ⟨more, by simpa using hmore⟩
    · have hzero : Text.bytes more = 0 := by
        rw [hleft, Text.bytes_append] at hle
        omega
      rw [Text.eq_nil_of_bytes_eq_zero hzero, List.append_nil] at hbody'
      exact ⟨[], hbody'.symm⟩
  obtain ⟨more, hpast⟩ := hpast
  obtain ⟨us, vs, rfl, hus, hdot⟩ :=
    (hspelled.blanks_append hgap).exists_split_dot hwf hpast hbody.dot hbody.quote
  have hall : ∀ t ∈ us, t.wellFormed = true := fun t ht => hwf t (List.mem_append_left _ ht)
  have hfront : ∃ s, Stage.start.run (us ++ [.dot]) = some s := by
    rw [show us ++ .dot :: vs = (us ++ [.dot]) ++ vs by simp] at hrun
    obtain ⟨s, hs, -⟩ := Stage.run_append_eq_some_iff.mp hrun
    exact ⟨s, hs⟩
  obtain ⟨s, hfront⟩ := hfront
  have hend : Spelled (us ++ [.dot]) (body ++ ['.']) := hus.append (Spelled.token .dot)
  rcases exists_tokens_of_run hus hall hdot hfront with ⟨c, hc, heq⟩ | ⟨goals, hne, hgoals, heq⟩
  · exact Or.inl ⟨c, hc, heq ▸ hend⟩
  · exact Or.inr ⟨goals, hne, hgoals, heq ▸ hend⟩

/-- A walk that has not passed a dot leaves it with the end of the body before it. -/
theorem Walk.exists_left (hwalk : Walk (.start, (body ++ '.' :: rest).dropBlanks) c)
    (hlt : rest.bytes < c.2.bytes) :
    ∃ read left, body = read ++ left ∧ c.2 = left ++ '.' :: rest := by
  obtain ⟨used, ts, hused, -⟩ := hwalk.exists_spelled
  obtain ⟨gap, -, htext⟩ := Text.exists_blanks_append_dropBlanks (body ++ '.' :: rest)
  have hused' : (body ++ '.' :: rest).dropBlanks = used ++ c.2 := hused
  rw [hused', ← List.append_assoc] at htext
  rcases List.append_eq_append_iff.mp htext with ⟨more, -, hrest⟩ | ⟨left, hbody, hleft⟩
  · cases more with
    | nil => exact ⟨body, [], by simp, by simpa using hrest.symm⟩
    | cons d more =>
      obtain ⟨-, rfl⟩ := List.cons.inj hrest
      rw [List.append_eq, Text.bytes_append] at hlt
      omega
  · exact ⟨gap ++ used, left, hbody, hleft⟩

/-- The bodies one after another, each with its dot. -/
def Text.chunks (bodies : List Text) : Text := bodies.flatMap (· ++ ['.'])

@[simp] theorem Text.chunks_nil : chunks [] = [] := rfl

@[simp] theorem Text.chunks_cons (body : Text) (more : List Text) :
    chunks (body :: more) = body ++ '.' :: chunks more := by
  simp [chunks]

theorem Text.chunks_append (front more : List Text) :
    chunks (front ++ more) = chunks front ++ chunks more := by
  simp [chunks]

variable {front : List Text}

theorem Text.isClauses_chunks (hfront : ∀ g ∈ front, Text.IsClause (g ++ ['.'])) :
    (chunks front).IsClauses := by
  induction front with
  | nil => exact ⟨[], by simp, .nil rfl⟩
  | cons g more ih =>
    obtain ⟨⟨k, hk, hspelled⟩, hmore⟩ := List.forall_mem_cons.mp hfront
    obtain ⟨clauses, hclauses, hrest⟩ := ih hmore
    refine ⟨k :: clauses, List.forall_mem_cons.mpr ⟨hk, hclauses⟩, ?_⟩
    rw [chunks_cons, List.append_cons, List.flatMap_cons]
    exact hspelled.append hrest

theorem recognize_of_chunks {query : Text} (hfront : ∀ g ∈ front, Text.IsClause (g ++ ['.']))
    (hquery : query.IsQuery) : recognize (Text.chunks front ++ query) = .ok () := by
  obtain ⟨goals, hne, hgoals, hspelled⟩ := hquery
  apply recognize_eq_ok_iff.mpr
  exact ((Text.isClauses_chunks hfront).walk query).trans (Walk.of_spelled hspelled
    (Stage.run_query hgoals hne) (Program.wellFormed_of_mem_queryTokens hgoals))

theorem Text.IsQuery.recognize {query : Text} (h : query.IsQuery) : recognize query = .ok () := by
  obtain ⟨goals, hne, hgoals, hspelled⟩ := h
  exact recognize_of_spelled hspelled (Stage.run_query hgoals hne)
    (Program.wellFormed_of_mem_queryTokens hgoals)

/-- Where a body is neither a clause nor a query, an error lies between its
first character and its dot. -/
theorem exists_error_of_body (hfront : ∀ g ∈ front, Text.IsClause (g ++ ['.']))
    (hbody : body.IsBody) (hclause : ¬ (body ++ ['.']).IsClause)
    (hquery : ¬ (body ++ ['.']).IsQuery)
    (rest : Text) :
    ∃ e read left, recognize (Text.chunks front ++ (body ++ '.' :: rest)) = .error e ∧
      body = read ++ left ∧ e.before = Text.chunks front ++ read ∧
        e.after = left ++ '.' :: rest := by
  have hclauses := (Text.isClauses_chunks hfront).walk (body ++ '.' :: rest)
  have hstuck : ∀ c, Walk (.start, (body ++ '.' :: rest).dropBlanks) c →
      rest.bytes < c.2.bytes := by
    intro c hwalk
    apply Nat.lt_of_not_le
    intro hle
    rcases hwalk.isClause_or_isQuery hbody hle with h | h
    · exact hclause h
    · exact hquery h
  rcases recognize_cases (Text.chunks front ++ (body ++ '.' :: rest)) with
    ⟨-, hend⟩ | ⟨e, c, herror, hat⟩
  · rcases hclauses.total hend with hwalk | hwalk
    · exact absurd (hstuck _ hwalk) (by simp)
    · cases hwalk.eq_of_text_nil rfl
  · have hwalk : Walk (.start, (body ++ '.' :: rest).dropBlanks) c := hat.walk_of_walk hclauses
    obtain ⟨read, left, rfl, hleft⟩ := hwalk.exists_left (hstuck c hwalk)
    have hafter : e.after = left ++ '.' :: rest := by
      rw [← hleft]
      have hhalts := hat.halts
      obtain ⟨s, place⟩ := c
      cases hhalts with
      | outside => rfl
      | inside =>
        cases left with
        | nil => exact absurd (List.cons.inj hleft).1 (by decide)
        | cons d more =>
          obtain ⟨rfl, -⟩ := List.cons.inj hleft
          exact absurd (by simp) hbody.quote
    have hbefore : (Text.chunks front ++ read) ++ e.after = e.before ++ e.after := by
      rw [← hat.text_eq, hafter]
      simp
    exact ⟨e, read, left, herror, rfl, (List.append_cancel_right hbefore).symm, hafter⟩

end

end HornSyntax
