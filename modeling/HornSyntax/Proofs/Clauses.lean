import HornSyntax.Proofs.Arguments

/-!
Reading predicates, clauses and whole programs. A predicate takes all the
argument lists that follow its name, and whatever stops it leaves a text that
begins with a bracket, a comma or a neck, or with an atom, none of which fits
where the reading then goes on. So a program is read to its end, or the walk
over the text has stopped at a place where nothing fits.
-/

namespace HornSyntax

open Reader CharacterClass
open Refusals (Reach)

namespace Rule

theorem reader_predicate :
    predicate.reader = predicate.conclude (atom.reader.spaced (many blanks group)) := by
  have h : predicate.reader = predicate.conclude (atom.reader.spaced
      (many blanks ((lparen.reader.spaced termList.reader).spaced rparen.reader))) :=
    reader_eq predicate
  rw [h, spaced_assoc]
  rfl

theorem reader_predicateList : predicateList.reader = predicateList.conclude
    (predicate.reader.spaced (many blanks (comma.reader.spaced predicate.reader))) :=
  reader_eq predicateList

/-- The neck and the body of a clause. -/
def clauseBody : Reader := neck.reader.spaced predicateList.reader

theorem reader_clause : clause.reader =
    clause.conclude (predicate.reader.spaced (clauseBody.optional.spaced dot.reader)) := by
  have h : clause.reader =
      clause.conclude ((predicate.reader.spaced clauseBody.optional).spaced dot.reader) :=
    reader_eq clause
  rw [h, spaced_assoc]

theorem reader_query : query.reader =
    query.conclude (queryStart.reader.spaced (predicateList.reader.spaced dot.reader)) := by
  have h : query.reader =
      query.conclude ((queryStart.reader.spaced predicateList.reader).spaced dot.reader) :=
    reader_eq query
  rw [h, spaced_assoc]

theorem reader_program : program.reader = program.conclude
    (empty.spaced ((many blanks clause.reader).spaced (query.reader.spaced endOfInput.reader))) := by
  have h : program.reader = program.conclude
      (((empty.spaced (many blanks clause.reader)).spaced query.reader).spaced endOfInput.reader) :=
    reader_eq program
  rw [h]
  simp only [spaced_assoc]

theorem splits_group : group.Splits :=
  (splits_reader lparen).spaced ((splits_reader termList).spaced (splits_reader rparen))

theorem splits_clauseBody : clauseBody.Splits :=
  (splits_reader neck).spaced (splits_reader predicateList)

theorem takes_group : group.Takes 1 := (takes_reader lparen).spaced _

end Rule

section

variable {total : Nat} {text : Text} {s : Stage} {place : Place}

theorem reads_predicate (htext : text.IsPlace total)
    (hnext : ∀ a, s.next (s.atomToken a) = some (.predicateEnd place)) :
    Reads total (s, text) .atom Text.OpensAtom (Stage.EndsAt (.predicateEnd place) [.lparen])
      (['('] <+: ·) (Rule.predicate.reader.view total text) := by
  have hbody : Reads total (s, text) .atom Text.OpensAtom
      (Stage.EndsAt (.predicateEnd place) [.lparen]) (['('] <+: ·)
      ((Rule.atom.reader.spaced (many blanks Rule.group)).view total text) := by
    refine Reads.spaced (Rule.splits_reader .atom) htext (reads_atom htext hnext) ?_ (by simp)
    have hround : ∀ (c : Stage × Text) (rules : List Rule),
        Stage.EndsAt (.predicateEnd place) [] c.1 rules →
        c.2.IsPlace total → c.2.bytes < text.bytes →
        Reads total c .lparen (['('] <+: ·) (Stage.EndsAt (.predicateEnd place) [])
          (fun _ => False) (Rule.group.view total c.2) := by
      rintro ⟨_, rest⟩ rules ⟨rfl, rfl⟩ hrest hless
      exact reads_group hrest (Stage.next_lparen_predicateEnd place)
        fun _ hrest _ => reads_termList hrest
    intro c rules earlier hends hplace hlt hearlier
    refine (Reads.many Rule.splits_group Rule.takes_group hround (fun _ => False.elim)
      hends hplace hlt hearlier).mono ?_ (by simp)
    rintro e _ ⟨_, ⟨he, rfl⟩, rfl⟩
    exact ⟨he, rfl⟩
  rw [Rule.reader_predicate]
  exact hbody.conclude .predicate htext.bytes_le

/-- The predicates of a body or of a query. -/
theorem reads_predicateList (hplace : place ≠ .head) (htext : text.IsPlace total) :
    Reads total (.predicate place, text) .atom Text.OpensAtom
      (fun e rules => ∃ rules', (e = .predicateEnd place ∧ rules' = [.lparen]) ∧
        rules = rules' ++ [.comma])
      Text.OpensArgument (Rule.predicateList.reader.view total text) := by
  have hlist := reads_commaSeparated (s := .predicate place) (Rule.splits_reader .predicate) htext
    (Nat.lt_succ_self _) rfl ?_ (fun rest hrest _ => reads_predicate hrest fun _ => rfl)
    (by rintro _ ⟨tail, rfl⟩; simp)
  · rw [Rule.reader_predicateList]
    exact hlist.conclude .predicateList htext.bytes_le
  · rintro _ rules ⟨rfl, -⟩
    cases place with
    | head => exact absurd rfl hplace
    | body => rfl
    | goals => rfl

theorem not_isPrefix_of_opensArgument {t : Token} (ht : t.isMark = true) (hparen : t ≠ .lparen)
    (hcomma : t ≠ .comma) (h : text.OpensArgument) : ¬ t.text <+: text := by
  rcases h with ⟨tail, rfl⟩ | ⟨tail, rfl⟩ <;> cases t <;> simp_all [Token.text, Token.isMark]

/-- A dot ends a clause or a query. -/
theorem proceeds_dot {bound : Nat} {s' : Stage} {rules : List Rule} {earlier : Option Refusals}
    (htext : text.IsPlace total) (hbound : text.bytes < bound) (hnext : s.next .dot = some s')
    (hexpected : s.expected = rules ++ [.dot]) (hearlier : Reach total text rules earlier) :
    Proceeds total bound (s, text) (Stage.EndsAt s' []) (fun _ => False)
      ((Rule.dot.reader.view total text).after earlier) :=
  (reads_mark (t := .dot) rfl htext hnext).proceeds hbound hearlier (by simp [hexpected, Token.rule])

theorem reads_clauseBody (htext : text.IsPlace total) :
    Reads total (.predicateEnd .head, text) .neck ([':', '-'] <+: ·)
      (Stage.EndsAt (.predicateEnd .body) [.lparen, .comma]) Text.OpensArgument
      (Rule.clauseBody.view total text) := by
  refine Reads.spaced (Rule.splits_reader .neck) htext (reads_mark (t := .neck) rfl htext rfl) ?_
    (by simp)
  rintro ⟨_, rest⟩ _ earlier ⟨rfl, rfl⟩ hrest hless hearlier
  refine Proceeds.mono ((reads_predicateList (by decide) hrest).proceeds hless hearlier
    (by simp [Stage.expected])) ?_ fun _ h => h
  rintro e _ ⟨_, ⟨he, rfl⟩, rfl⟩
  exact ⟨he, rfl⟩

/-- What an argument list that is stuck leaves is neither a body nor the end of a clause. -/
theorem refused_clauseEnd (htext : text.IsPlace total) (h : text.OpensArgument) :
    Refused total text [.neck, .dot]
      ((Rule.clauseBody.optional.spaced Rule.dot.reader).view total text) := by
  have hbody : Refused total text [.neck] (Rule.clauseBody.view total text) :=
    refused_mark_spaced (t := .neck) rfl htext
      (not_isPrefix_of_opensArgument rfl (by decide) (by decide) h) _
  have hdot : Refused total text [.dot] (Rule.dot.reader.view total text) :=
    refused_mark (t := .dot) rfl htext.bytes_le
      (not_isPrefix_of_opensArgument rfl (by decide) (by decide) h)
  have hview := view_optional_of_none hbody.left
  have hleft : (Rule.clauseBody.optional.view total text).left = some text := by
    rw [hview, htext.dropBlanks_eq]
  rw [view_spaced_of_some Rule.splits_clauseBody.optional htext.bytes_le hleft, hview]
  exact hdot.after hbody.reach

theorem reads_clause (htext : text.IsPlace total) :
    Reads total (.start, text) .atom Text.OpensAtom (Stage.EndsAt .start []) (fun _ => False)
      (Rule.clause.reader.view total text) := by
  have hbody : Reads total (.start, text) .atom Text.OpensAtom (Stage.EndsAt .start [])
      (fun _ => False)
      ((Rule.predicate.reader.spaced (Rule.clauseBody.optional.spaced Rule.dot.reader)).view
        total text) := by
    refine Reads.spaced (Rule.splits_reader .predicate) htext (reads_predicate htext fun _ => rfl)
      ?_ ?_
    · rintro ⟨_, rest⟩ _ earlier ⟨rfl, rfl⟩ hrest hless hearlier
      have hoptional := (reads_clauseBody hrest).optional hrest hless hearlier
      refine Proceeds.spaced Rule.splits_clauseBody.optional hrest hoptional ?_ ?_
      · rintro ⟨e, rest'⟩ rules earlier hends hrest' hle hearlier
        rcases hends with ⟨rfl, rfl⟩ | ⟨rfl, rfl⟩
        · exact proceeds_dot hrest' (Nat.lt_of_le_of_lt hle hless) rfl rfl hearlier
        · exact proceeds_dot hrest' (Nat.lt_of_le_of_lt hle hless) rfl rfl hearlier
      · intro left hleft hplace
        refine Or.inl ⟨[.dot], refused_mark (t := .dot) rfl hplace.bytes_le ?_⟩
        rcases hleft with hopens | ⟨tail, rfl⟩
        · exact not_isPrefix_of_opensArgument rfl (by decide) (by decide) hopens
        · simp [Token.text]
    · exact fun left hleft hplace => Or.inl ⟨_, refused_clauseEnd hplace (Or.inl hleft)⟩
  rw [Rule.reader_clause]
  exact hbody.conclude .clause htext.bytes_le

theorem refused_query (htext : text.IsPlace total) (h : ¬ ['?', '-'] <+: text) :
    Refused total text [.queryStart] (Rule.query.reader.view total text) := by
  have hbody : Refused total text [.queryStart] ((Rule.queryStart.reader.spaced
      (Rule.predicateList.reader.spaced Rule.dot.reader)).view total text) :=
    refused_mark_spaced (t := .queryStart) rfl htext h _
  rw [Rule.reader_query]
  exact hbody.conclude .query

theorem reads_query (htext : text.IsPlace total) :
    Reads total (.start, text) .queryStart (['?', '-'] <+: ·) (Stage.EndsAt .finished [])
      (fun _ => False) (Rule.query.reader.view total text) := by
  have hbody : Reads total (.start, text) .queryStart (['?', '-'] <+: ·)
      (Stage.EndsAt .finished []) (fun _ => False)
      ((Rule.queryStart.reader.spaced (Rule.predicateList.reader.spaced Rule.dot.reader)).view
        total text) := by
    refine Reads.spaced (Rule.splits_reader .queryStart) htext
      (reads_mark (t := .queryStart) rfl htext rfl) ?_ (by simp)
    rintro ⟨_, rest⟩ _ earlier ⟨rfl, rfl⟩ hrest hless hearlier
    have hgoals := (@reads_predicateList _ _ .goals (by decide) hrest).proceeds hless hearlier
      (by simp [Stage.expected])
    refine Proceeds.spaced (Rule.splits_reader .predicateList) hrest hgoals ?_ ?_
    · rintro ⟨_, rest'⟩ _ earlier ⟨_, ⟨rfl, rfl⟩, rfl⟩ hrest' hle hearlier
      exact proceeds_dot hrest' (Nat.lt_of_le_of_lt hle hless) rfl rfl hearlier
    · intro left hleft hplace
      exact Or.inl ⟨[.dot], refused_mark (t := .dot) rfl hplace.bytes_le
        (not_isPrefix_of_opensArgument rfl (by decide) (by decide) hleft)⟩
  rw [Rule.reader_query]
  exact hbody.conclude .query htext.bytes_le

theorem proceeds_endOfInput {bound : Nat} {earlier : Option Refusals} (htext : text.IsPlace total)
    (hbound : text.bytes < bound) (hearlier : Reach total text [] earlier) :
    Proceeds total bound (.finished, text) (Stage.EndsAt .finished []) (fun _ => False)
      ((Rule.endOfInput.reader.view total text).after earlier) := by
  have hreader : Rule.endOfInput.reader = Rule.endOfInput.conclude ending :=
    Rule.reader_eq .endOfInput
  rw [hreader]
  cases text with
  | nil =>
    have hview : (Rule.endOfInput.conclude ending).view total [] = ⟨some [], none⟩ := rfl
    rw [hview]
    exact .passed ⟨rfl, rfl⟩ ⟨rfl, .refl, by simpa using hearlier⟩
  | cons c rest =>
    have hrefused : Refused total (c :: rest) [.endOfInput]
        ((Rule.endOfInput.conclude ending).view total (c :: rest)) :=
      ⟨rfl, .of_blame_none htext.bytes_le (by simp [Rule.Fits])⟩
    exact .stopped ((hrefused.after hearlier).stopped hbound (by simp [Stage.expected]) _)

/-- A program is read from behind the blanks at its start. -/
theorem view_program (text : Text) : (Rule.program.reader 0 text).view =
    ((many blanks Rule.clause.reader).spaced
      (Rule.query.reader.spaced Rule.endOfInput.reader)).view text.bytes text.dropBlanks := by
  have hzero : (Rule.program.reader 0 text).view = Rule.program.reader.view text.bytes text := by
    rw [Reader.view, Nat.sub_self]
  have hempty : empty.view text.bytes text = ⟨some text.dropBlanks, none⟩ := rfl
  rw [hzero, Rule.reader_program, Rule.conclude_of_silent rfl,
    view_spaced_of_some splits_empty (Nat.le_refl _) (by rw [hempty]), hempty, View.after_none]

theorem not_isPrefix_of_opensAtom (h : text.OpensAtom) : ¬ ['?', '-'] <+: text := by
  rintro ⟨tail, rfl⟩
  obtain ⟨c, hc, hatom⟩ := h
  obtain rfl : '?' = c := Option.some.inj hc
  rcases hatom with hlower | hquote
  · cases hlower
  · cases hquote

/-- A program is read to its end, or the walk over the text stops. -/
theorem proceeds_program (text : Text) :
    Proceeds text.bytes (text.bytes + 1) (.start, text.dropBlanks) (Stage.EndsAt .finished [])
      (fun _ => False) (Rule.program.reader 0 text).view := by
  have hplace : text.dropBlanks.IsPlace text.bytes :=
    ⟨Text.bytes_dropBlanks_le text, Text.dropBlanks_dropBlanks text⟩
  have hround : ∀ (c : Stage × Text) (rules : List Rule), Stage.EndsAt .start [] c.1 rules →
      c.2.IsPlace text.bytes → c.2.bytes < text.bytes + 1 →
      Reads text.bytes c .atom Text.OpensAtom (Stage.EndsAt .start []) (fun _ => False)
        (Rule.clause.reader.view text.bytes c.2) := by
    rintro ⟨_, rest⟩ _ ⟨rfl, rfl⟩ hrest -
    exact reads_clause hrest
  have hbound : text.dropBlanks.bytes < text.bytes + 1 :=
    Nat.lt_succ_of_le (Text.bytes_dropBlanks_le text)
  have hstart : Stage.EndsAt .start [] (Stage.start, text.dropBlanks).1 [] := ⟨rfl, rfl⟩
  have hclauses := Reads.many (Rule.splits_reader .clause) (Rule.takes_reader .clause) hround
    (fun _ => False.elim) hstart hplace hbound (.none _ _)
  rw [view_program, ← View.after_none (Reader.view _ text.bytes text.dropBlanks)]
  have hsplits := Splits.many splits_blanks (Rule.splits_reader .clause)
  refine Proceeds.spaced hsplits hplace hclauses ?_ ?_
  · rintro ⟨_, rest⟩ _ earlier ⟨_, ⟨rfl, rfl⟩, rfl⟩ hrest hle hearlier
    have hquery := (reads_query hrest).proceeds (Nat.lt_of_le_of_lt hle hbound) hearlier
      (by simp [Stage.expected])
    refine Proceeds.spaced (Rule.splits_reader .query) hrest hquery ?_ (by simp)
    rintro ⟨_, rest'⟩ _ earlier ⟨rfl, rfl⟩ hrest' hle' hearlier
    exact proceeds_endOfInput hrest' (by simp only at hle hle' hbound; omega) hearlier
  · intro left hleft hrest
    have hopens : ¬ ['?', '-'] <+: left := by
      rcases hleft with hfalse | hatom
      · exact False.elim hfalse
      · exact not_isPrefix_of_opensAtom hatom
    have hrefused := refused_query hrest hopens
    exact Or.inl ⟨[.queryStart], hrefused.spaced Rule.endOfInput.reader⟩

end

end HornSyntax
