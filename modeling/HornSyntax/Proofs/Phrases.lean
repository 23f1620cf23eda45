import HornSyntax.Proofs.Coverage

/-!
How each rule covers the phrases of its nonterminal. A mark is taken wherever it
stands, and a word as far as it goes. An atom among the arguments is tried as the
name of a compound term first, and a list goes on while commas or brackets do.
-/

namespace HornSyntax

open Reader CharacterClass
open Token (separated)

section

variable {t : Token} {a : Atom} {text : Text} {first more : Char → Bool}

theorem opens_mark (ht : t.isMark = true) : t.rule.reader.Opens [t.opening] := by
  rw [Token.reader_rule ht]
  refine Opens.conclude ?_ t.rule
  intro total text rest hleft
  by_cases hstarts : t.text <+: text
  · obtain ⟨after, rfl⟩ := hstarts
    obtain ⟨c, more, htext, hopen⟩ := Token.exists_text_eq_cons (Token.wellFormed_of_isMark ht)
    exact ⟨c, by rw [htext]; rfl, List.mem_singleton.mpr hopen⟩
  · rw [Reader.view, word_of_not_prefix hstarts] at hleft
    cases hleft

theorem covers_mark (ht : t.isMark = true) : t.rule.reader.Covers (fun _ => True) [t] := by
  refine ⟨List.cons_ne_nil _ _, by simpa using Token.wellFormed_of_isMark ht, ?_⟩
  intro total used rest hused _
  have hview : (word t.text).view total (t.text ++ rest) = ⟨some rest.dropBlanks, none⟩ := by
    rw [Reader.view, word_append]
    rfl
  rw [hused.text_eq, Token.reader_rule ht, left_conclude, hview]
  exact ⟨_, rfl, List.suffix_refl _, fun _ => rfl⟩

/-- After a mark the phrase begins wherever its first token stands. -/
theorem Reader.Covers.after_mark {q : Reader} {ends : Text → Prop} {us : List Token}
    (h : q.Covers ends us) (ht : t.isMark = true) :
    (t.rule.reader.spaced q).Covers ends (t :: us) :=
  (covers_mark ht).spaced (Rule.splits_reader _) h fun _ _ _ _ _ => trivial

theorem opens_run {r : Rule} {opening : Opening}
    (hr : r.reader = r.conclude (Reader.run first more)) (hsilent : r.silent = false)
    (hfirst : ∀ c, first c = true → Opening.ofChar c = opening) :
    r.reader.Opens [opening] := by
  intro total text rest hleft
  rcases Rule.run_cases hr hsilent (total - text.bytes) text with
    ⟨run, after, rfl, hrun, -, -⟩ | ⟨-, hread⟩
  · cases run with
    | nil => cases hrun
    | cons c tail =>
      exact ⟨c, rfl, List.mem_singleton.mpr (hfirst c (Bool.and_eq_true_iff.mp hrun).1)⟩
  · rw [Reader.view, hread] at hleft
    cases hleft

theorem opens_smallAtom : Rule.smallAtom.reader.Opens [.lower] :=
  opens_run Rule.reader_smallAtom rfl fun _ => Opening.ofChar_of_isLower

theorem opens_var : Rule.var.reader.Opens [.upper] :=
  opens_run Rule.reader_var rfl fun _ => Opening.ofChar_of_isUpper

theorem opens_numeral : Rule.numeral.reader.Opens [.digit] :=
  opens_run Rule.reader_numeral rfl fun _ => Opening.ofChar_of_isDigit

theorem covers_run {r : Rule} (hr : r.reader = r.conclude (Reader.run first more))
    (hsilent : r.silent = false) (hmore : ∀ c, more c = true → isAlnum c = true)
    (hwf : t.wellFormed = true) (hrun : t.text.isRun first more = true) :
    r.reader.Covers (Text.EndsBefore []) [t] := by
  refine ⟨List.cons_ne_nil _ _, by simpa using hwf, ?_⟩
  intro total used rest hused _
  rw [hused.text_eq, Reader.view]
  rcases Rule.run_cases hr hsilent (total - Text.bytes (t.text ++ rest)) (t.text ++ rest) with
    ⟨run, after, htext, hrun', hafter, hread⟩ | ⟨hhead, -⟩
  · have hdrop := Text.dropWhile_of_isRun hrun hrun' hafter htext
    rw [hread]
    refine ⟨after.dropBlanks, rfl, ?_, ?_⟩
    · rw [hdrop]
      exact Text.suffix_dropBlanks (List.dropWhile_suffix _)
    · intro hends
      have hrest : ∀ c ∈ rest.head?, more c = false := by
        intro c hc
        apply Bool.eq_false_iff.mpr
        intro hword
        have halnum := hends.1 c hc
        rw [hmore c hword] at halnum
        cases halnum
      rw [hdrop]
      exact congrArg Text.dropBlanks (@Text.dropWhile_append_eq more [] rest rfl hrest)
  · cases htext : t.text with
    | nil =>
      rw [htext] at hrun
      cases hrun
    | cons c tail =>
      rw [htext] at hrun hhead
      have hc := hhead c rfl
      rw [(Bool.and_eq_true_iff.mp hrun).1] at hc
      cases hc

theorem opens_quotedAtom : Rule.quotedAtom.reader.Opens [.mark '\''] := by
  intro total text rest hleft
  rcases Rule.quotedAtom_cases (total - text.bytes) text with
    ⟨letters, after, rfl, -, -⟩ | ⟨after, -, -, hread⟩ | ⟨-, -, hread⟩
  · exact ⟨'\'', rfl, List.mem_singleton.mpr (by decide)⟩
  · rw [Reader.view, hread] at hleft
    cases hleft
  · rw [Reader.view, hread] at hleft
    cases hleft

/-- A quotation ends at its second mark, whatever follows. -/
theorem covers_quotedAtom {letters : Text} (hwf : t.wellFormed = true)
    (hrun : letters.isRun isQuotable isQuotable = true)
    (htext : t.text = '\'' :: letters ++ ['\'']) :
    Rule.quotedAtom.reader.Covers (fun _ => True) [t] := by
  have hquote : ∀ rest : Text, ∀ c ∈ ('\'' :: rest).head?, isQuotable c = false := by
    rintro rest _ ⟨⟩
    decide
  refine ⟨List.cons_ne_nil _ _, by simpa using hwf, ?_⟩
  intro total used rest hused _
  have hused' : used ++ rest = '\'' :: (letters ++ '\'' :: rest) := by
    rw [hused.text_eq, htext]
    simp
  rw [hused', Reader.view]
  rcases Rule.quotedAtom_cases (total - Text.bytes ('\'' :: (letters ++ '\'' :: rest)))
    ('\'' :: (letters ++ '\'' :: rest)) with
    ⟨letters', after, heq, hrun', hread⟩ | ⟨after, heq, hhead, -⟩ | ⟨hnone, -, -⟩
  · have hdrop := Text.dropWhile_of_isRun hrun hrun' (hquote after) (List.cons.inj heq).2
    have hsame := @Text.dropWhile_append_eq isQuotable [] _ rfl (hquote rest)
    rw [List.nil_append, ← hdrop] at hsame
    obtain rfl := (List.cons.inj hsame).2
    rw [hread]
    exact ⟨_, rfl, List.suffix_refl _, fun _ => rfl⟩
  · obtain rfl := (List.cons.inj heq).2
    cases letters with
    | nil => cases hrun
    | cons c more =>
      have hc := hhead c rfl
      rw [(Bool.and_eq_true_iff.mp hrun).1] at hc
      cases hc
  · exact absurd rfl (hnone letters rest hrun)

theorem opens_atom : Rule.atom.reader.Opens [.lower, .mark '\''] := by
  rw [Rule.reader_atom]
  exact (opens_smallAtom.orElse opens_quotedAtom).conclude .atom

theorem covers_atom (ha : a.wellFormed = true) (ht : t = .name a ∨ t = .symbol a) :
    Rule.atom.reader.Covers (Text.EndsBefore []) [t] := by
  have htext : t.text = a.text := by rcases ht with rfl | rfl <;> rfl
  have hwf : t.wellFormed = true := by rcases ht with rfl | rfl <;> exact ha
  have hopen : t.opening = a.opening := by rcases ht with rfl | rfl <;> rfl
  rw [Rule.reader_atom]
  refine Covers.conclude ?_ .atom
  cases a with
  | name letters =>
    have hsmall := covers_run Rule.reader_smallAtom rfl (fun _ hc => hc) hwf (htext ▸ ha)
    exact hsmall.orElse _
  | quoted letters =>
    have hquoted := (covers_quotedAtom hwf ha htext).orElse_of_opens opens_smallAtom
      (by simp [hopen, Atom.opening])
    exact hquoted.mono fun _ _ => trivial

theorem opens_group : Rule.group.Opens [.mark '('] := (opens_mark (t := .lparen) rfl).spaced _

theorem opens_compound : Rule.compound.reader.Opens [.lower, .mark '\''] := by
  rw [Rule.reader_compound]
  exact (opens_atom.spaced _).conclude .compound

theorem covers_group {list : List Token}
    (h : Rule.termList.reader.Covers (Text.EndsBefore [',', '(']) list) :
    Rule.group.Covers (fun _ => True) (.lparen :: (list ++ [.rparen])) := by
  have hclose := h.before (Rule.splits_reader .termList) (covers_mark (t := .rparen) rfl) rfl
    (by decide)
  exact hclose.after_mark (t := .lparen) rfl

theorem covers_compound {list : List Token} (ha : a.wellFormed = true)
    (h : Rule.termList.reader.Covers (Text.EndsBefore [',', '(']) list) :
    Rule.compound.reader.Covers (fun _ => True) (.symbol a :: .lparen :: (list ++ [.rparen])) := by
  have hatom := covers_atom ha (t := .symbol a) (Or.inr rfl)
  rw [Rule.reader_compound]
  exact (hatom.before (Rule.splits_reader .atom) (covers_group h) rfl (by simp)).conclude .compound

/-- An atom is tried as the name of a compound term first. If that takes more than
the atom, then what follows goes on with it. -/
theorem covers_term_atom (ha : a.wellFormed = true) :
    Rule.term.reader.Covers (Text.EndsBefore ['(']) [.symbol a] := by
  have hatom := covers_atom ha (t := .symbol a) (Or.inr rfl)
  rw [Rule.reader_term]
  refine Covers.conclude ⟨hatom.ne_nil, hatom.wellFormed, ?_⟩ .term
  intro total used rest hused hbytes
  obtain ⟨left, hleft, hsuffix, hexact⟩ := hatom.exists_left total used rest hused hbytes
  have hcompound : (Rule.compound.reader.view total (used ++ rest)).left =
      (Rule.group.view total left).left := by
    rw [Rule.reader_compound, left_conclude,
      view_spaced_of_some (Rule.splits_reader .atom) hbytes hleft, View.after_left]
  cases hgroup : (Rule.group.view total left).left with
  | none =>
    rw [view_orElse_of_none (hcompound.trans hgroup), View.after_left, view_orElse_of_some hleft]
    exact ⟨left, hleft, hsuffix, fun hends => hexact (hends.mono (by simp))⟩
  | some last =>
    -- Where the rest does not begin with a bracket, no argument list is read.
    rw [view_orElse_of_some (hcompound.trans hgroup)]
    refine ⟨last, hcompound.trans hgroup, Rule.splits_group.suffix_of_suffix hgroup hsuffix, ?_⟩
    intro hends
    obtain rfl := hexact (hends.mono (by simp))
    obtain ⟨c, hc, hopen⟩ := opens_group total _ last hgroup
    obtain rfl := Opening.eq_of_ofChar (List.mem_singleton.mp hopen)
    exact absurd List.mem_cons_self (hends.2 _ hc)

theorem covers_commaSeparated {r : Rule} {items : List (List Token)} {marks : List Char}
    (hne : items ≠ []) (hcomma : ',' ∉ marks)
    (h : ∀ ts ∈ items, r.reader.Covers (Text.EndsBefore marks) ts) :
    (r.reader.spaced (many blanks (Rule.comma.reader.spaced r.reader))).Covers
      (Text.EndsBefore (',' :: marks)) (separated items) := by
  cases items with
  | nil => exact absurd rfl hne
  | cons first more =>
    obtain ⟨hfirst, hmore⟩ := List.forall_mem_cons.mp h
    refine hfirst.rounds (t := .comma) (Rule.splits_reader r)
      ((Rule.splits_reader .comma).spaced (Rule.splits_reader r))
      ((Rule.takes_reader .comma).spaced _) ((opens_mark (t := .comma) rfl).spaced _) rfl hcomma ?_
    exact fun us hus => (hmore us hus).after_mark (t := .comma) rfl

end

namespace Rule

/-- The marks with which a phrase of the rule may go on. -/
def marks : Rule → List Char
  | predicate | term => ['(']
  | predicateList | termList => [',', '(']
  | _ => []

theorem opens_clauseBody : clauseBody.Opens [.mark ':'] := (opens_mark (t := .neck) rfl).spaced _

end Rule

/-- Each rule takes the phrases of its nonterminal, and just them where what
follows does not go on with them. -/
theorem Phrase.covers {r : Rule} {ts : List Token} (h : Phrase r ts) (hr : r ≠ .program) :
    r.reader.Covers (Text.EndsBefore r.marks) ts := by
  have hdot := covers_mark (t := .dot) rfl
  -- A part of a phrase ends where the next one begins, since this is a mark that
  -- does not go on with it.
  induction h with
  | program => exact absurd rfl hr
  | fact _ hhead =>
    have hend := hdot.optional_spaced Rule.splits_clauseBody Rule.opens_clauseBody (by decide)
    rw [Rule.reader_clause]
    have hclause := (hhead (by decide)).before (Rule.splits_reader .predicate) hend rfl (by decide)
    exact (hclause.conclude .clause).mono fun _ _ => trivial
  | clause _ _ hhead hbody =>
    have hneck : Rule.clauseBody.Covers _ _ := (hbody (by decide)).after_mark (t := .neck) rfl
    have hend := hneck.optional.before Rule.splits_clauseBody.optional hdot rfl (by decide)
    rw [Rule.reader_clause, List.append_assoc]
    have hclause := (hhead (by decide)).before (Rule.splits_reader .predicate) hend rfl (by decide)
    exact (hclause.conclude .clause).mono fun _ _ => trivial
  | query _ hgoals =>
    have hgoals := hgoals (by decide)
    have hend := hgoals.before (Rule.splits_reader .predicateList) hdot rfl (by decide)
    rw [Rule.reader_query]
    exact ((hend.after_mark (t := .queryStart) rfl).conclude .query).mono fun _ _ => trivial
  | predicateList hne _ hitems =>
    rw [Rule.reader_predicateList]
    exact (covers_commaSeparated hne (by decide) fun ts hts => hitems ts hts (by decide)).conclude _
  | @predicate a lists ha _ hlists =>
    have hname := covers_atom ha (t := .name a) (Or.inl rfl)
    have hgroups : ∀ us ∈ lists.map (· ++ [Token.rparen]),
        Rule.group.Covers (Text.EndsBefore []) (.lparen :: us) := by
      intro us hus
      obtain ⟨list, hlist, rfl⟩ := List.mem_map.mp hus
      exact (covers_group (hlists list hlist (by decide))).mono fun _ _ => trivial
    have hrounds := hname.rounds (Rule.splits_reader .atom) Rule.splits_group Rule.takes_group
      opens_group rfl (by simp) hgroups
    rw [List.flatMap_map] at hrounds
    rw [Rule.reader_predicate]
    exact hrounds.conclude .predicate
  | termList hne _ hitems =>
    rw [Rule.reader_termList]
    exact (covers_commaSeparated hne (by decide) fun ts hts => hitems ts hts (by decide)).conclude _
  | atom ha => exact covers_term_atom ha
  | @var letters h =>
    have hvar := covers_run (t := .var letters) Rule.reader_var rfl (fun _ hc => hc) h h
    have hrest := (hvar.orElse Rule.numeral.reader).orElse_of_opens opens_atom
      (by simp [Token.opening])
    have hchoice := hrest.orElse_of_opens opens_compound (by simp [Token.opening])
    rw [Rule.reader_term]
    exact (hchoice.conclude .term).mono fun _ hends => hends.mono (by simp)
  | @numeral digits h =>
    have hnumeral := covers_run (t := .numeral digits) Rule.reader_numeral rfl
      (fun _ => isAlnum_of_isDigit) h h
    have hlast := hnumeral.orElse_of_opens opens_var (by simp [Token.opening])
    have hrest := hlast.orElse_of_opens opens_atom (by simp [Token.opening])
    have hchoice := hrest.orElse_of_opens opens_compound (by simp [Token.opening])
    rw [Rule.reader_term]
    exact (hchoice.conclude .term).mono fun _ hends => hends.mono (by simp)
  | compound ha _ hlist =>
    have hcompound := (covers_compound ha (hlist (by decide))).orElse
      (Rule.atom.reader.orElse (Rule.var.reader.orElse Rule.numeral.reader))
    rw [Rule.reader_term]
    exact (hcompound.conclude .term).mono fun _ _ => trivial

end HornSyntax
