import HornSyntax.Proofs.Lexeme

/-!
Reading argument lists. A list reads on after each of its items as long as
there are commas. A term reads its atom twice: a failed argument list is given
back, and the bare atom then leaves a bracket that nothing after it takes. The
induction is on the text that is left, since terms and their lists call each
other only after a token.
-/

namespace HornSyntax

open Reader CharacterClass
open Refusals (Reach)

section

variable {total bound : Nat} {text : Text} {s : Stage} {p : Reader} {r : Rule}
  {first doomed : Text → Prop} {ends : Stage → List Rule → Prop}

/-- What refuses its first token refuses as a whole. -/
theorem refused_mark_spaced {t : Token} (ht : t.isMark = true) (hplace : text.IsPlace total)
    (h : ¬ t.text <+: text) (q : Reader) :
    Refused total text [t.rule] ((t.rule.reader.spaced q).view total text) :=
  (refused_mark ht hplace.bytes_le h).spaced q

/-- Items with commas between them read on as long as there are commas. -/
theorem reads_commaSeparated (hp : p.Splits) (htext : text.IsPlace total)
    (hbound : text.bytes < bound) (hexpected : s.expected = [r])
    (hcomma : ∀ e rules, ends e rules → e.next .comma = some s)
    (hitem : ∀ text, Text.IsPlace total text → Text.bytes text < bound →
      Reads total (s, text) r first ends doomed (p.view total text))
    (hdoomed : ∀ left, doomed left → ¬ [','] <+: left) :
    Reads total (s, text) r first
      (fun e rules => ∃ rules', ends e rules' ∧ rules = rules' ++ [.comma])
      (fun left => doomed left ∨ [','] <+: left)
      ((p.spaced (many blanks (Rule.comma.reader.spaced p))).view total text) := by
  have hsplits : (Rule.comma.reader.spaced p).Splits := (Rule.splits_reader .comma).spaced hp
  have htakes : (Rule.comma.reader.spaced p).Takes 1 := (Rule.takes_reader .comma).spaced p
  have hrefused : ∀ left, doomed left → left.IsPlace total →
      Refused total left [.comma] ((Rule.comma.reader.spaced p).view total left) :=
    fun left hleft hplace => refused_mark_spaced (t := .comma) rfl hplace (hdoomed left hleft) p
  refine Reads.spaced hp htext (hitem text htext hbound) ?_ ?_
  · intro c rules earlier hends hplace hlt hearlier
    refine Reads.many hsplits htakes ?_ ?_ hends hplace hlt hearlier
    · intro c rules hends hplace hround
      refine Reads.spaced (Rule.splits_reader .comma) hplace
        (reads_mark (t := .comma) rfl hplace (hcomma c.1 rules hends)) ?_ (by simp)
      rintro ⟨_, rest⟩ _ earlier ⟨rfl, rfl⟩ hrest hless hearlier
      have hread := hitem rest hrest (Nat.lt_trans hless (Nat.lt_trans hround hbound))
      exact hread.proceeds hless hearlier (by simp [hexpected])
    · exact fun left hleft hplace => ⟨_, hrefused left hleft hplace⟩
  · intro left hleft hplace
    have h := hrefused left hleft hplace
    refine Or.inr ⟨Or.inl hleft, ?_, [.comma], ?_⟩
    · rw [view_many_of_none hsplits htakes h.left, hplace.dropBlanks_eq]
    · rw [view_many_of_none hsplits htakes h.left]
      exact h.reach

/-- The end of an argument, and what has been refused there that would have gone on with it. -/
def Stage.ArgumentEnds (place : Place) (depth : Nat) (e : Stage) (rules : List Rule) : Prop :=
  ∃ bare, e = argumentEnd place depth bare ∧ e.expected = rules ++ [.comma, .rparen]

/-- The end of an argument list, where another argument could follow. -/
def Stage.ListEnds (place : Place) (depth : Nat) (e : Stage) (rules : List Rule) : Prop :=
  ∃ rules', ArgumentEnds place depth e rules' ∧ rules = rules' ++ [.comma]

/-- What no argument list leaves to the rest of the text unless it is stuck. -/
def Text.OpensArgument (text : Text) : Prop := ['('] <+: text ∨ [','] <+: text

namespace Rule

def group : Reader := lparen.reader.spaced (termList.reader.spaced rparen.reader)

theorem reader_compound : compound.reader = compound.conclude (atom.reader.spaced group) := by
  have h : compound.reader = compound.conclude
      (((atom.reader.spaced lparen.reader).spaced termList.reader).spaced rparen.reader) :=
    reader_eq compound
  rw [h]
  simp only [spaced_assoc, group]

theorem reader_term : term.reader = term.conclude
    (compound.reader.orElse (atom.reader.orElse (var.reader.orElse numeral.reader))) := by
  have h : term.reader = term.conclude
      (((compound.reader.orElse atom.reader).orElse var.reader).orElse numeral.reader) :=
    reader_eq term
  rw [h]
  simp only [orElse_assoc]

theorem reader_termList : termList.reader = termList.conclude
    (term.reader.spaced (many blanks (comma.reader.spaced term.reader))) :=
  reader_eq termList

end Rule

theorem Stage.next_comma_of_argumentEnds {place : Place} {depth : Nat} {e : Stage}
    {rules : List Rule} (h : ArgumentEnds place depth e rules) :
    e.next .comma = some (argument place depth) := by
  obtain ⟨bare, rfl, -⟩ := h
  cases bare <;> rfl

theorem Stage.next_rparen_of_argumentEnds {place : Place} {depth : Nat} {e : Stage}
    {rules : List Rule} (h : ArgumentEnds place depth e rules) :
    e.next .rparen = some (closed place depth) := by
  obtain ⟨bare, rfl, -⟩ := h
  cases bare <;> rfl

variable {place : Place} {depth : Nat}

/-- An argument list in its brackets, given that the list itself reads. -/
theorem reads_group (htext : text.IsPlace total)
    (hnext : s.next .lparen = some (.argument place depth))
    (hlist : ∀ rest, Text.IsPlace total rest → Text.bytes rest < text.bytes →
      Reads total (.argument place depth, rest) .term (fun _ => True) (Stage.ListEnds place depth)
        Text.OpensArgument (Rule.termList.reader.view total rest)) :
    Reads total (s, text) .lparen (['('] <+: ·) (Stage.EndsAt (Stage.closed place depth) [])
      (fun _ => False) (Rule.group.view total text) := by
  refine Reads.spaced (Rule.splits_reader .lparen) htext (reads_mark (t := .lparen) rfl htext hnext)
    ?_ (by simp)
  rintro ⟨e, rest⟩ _ earlier ⟨rfl, rfl⟩ hrest hless hearlier
  have hproceeds := (hlist rest hrest hless).proceeds hless hearlier (by simp [Stage.expected])
  refine Proceeds.spaced (Rule.splits_reader .termList) hrest hproceeds ?_ ?_
  · rintro ⟨e, rest⟩ _ earlier ⟨rules, hends, rfl⟩ hrest hle hearlier
    have hmark := reads_mark (t := .rparen) rfl hrest (Stage.next_rparen_of_argumentEnds hends)
    refine hmark.proceeds (Nat.lt_of_le_of_lt hle hless) hearlier ?_
    obtain ⟨bare, -, hexpected⟩ := hends
    simp [hexpected, Token.rule]
  · intro left hleft hplace
    refine Or.inl ⟨[.rparen], refused_mark (t := .rparen) rfl hplace.bytes_le ?_⟩
    rcases hleft with ⟨tail, rfl⟩ | ⟨tail, rfl⟩ <;> simp [Token.text]

theorem Rule.not_fits_term (hatom : ¬ Rule.atom.Fits text)
    (hupper : ∀ c ∈ text.head?, isUpper c = false) (hdigit : ∀ c ∈ text.head?, isDigit c = false) :
    ¬ Rule.term.Fits text := by
  rw [Rule.fits_iff (by decide) (by decide)]
  rintro (⟨-, hbare⟩ | ⟨t, rest, hwf, hrule, rfl⟩)
  · exact hatom (Rule.fits_atom_iff.mpr (Or.inl hbare))
  cases t with
  | symbol a => exact hatom (Rule.fits_atom_iff.mpr (Or.inr ⟨a, rest, hwf, rfl⟩))
  | var letters =>
    cases letters with
    | nil => cases hwf
    | cons c tail => simp [hupper c rfl, Token.wellFormed, Text.isRun] at hwf
  | numeral digits =>
    cases digits with
    | nil => cases hwf
    | cons c tail => simp [hdigit c rfl, Token.wellFormed, Text.isRun] at hwf
  | _ => cases hrule

/-- Where there is no atom, a term is a variable or a numeral. -/
theorem reads_term_of_refused (htext : text.IsPlace total)
    (h : Refused total text [.atom] (Rule.atom.reader.view total text)) :
    Reads total (.argument place depth, text) .term (fun _ => True) (Stage.ArgumentEnds place depth)
      (['('] <+: ·) (Rule.term.reader.view total text) := by
  have hcompound : Refused total text [.atom] (Rule.compound.reader.view total text) := by
    rw [Rule.reader_compound]
    exact (h.spaced Rule.group).conclude .compound
  have hends : Stage.ArgumentEnds place depth (.argumentEnd place depth false) [] :=
    ⟨false, rfl, rfl⟩
  rw [Rule.reader_term]
  rcases passed_or_refused_var (s := .argument place depth) htext fun _ => rfl with
    ⟨rest, -, hlt, hvar⟩ | ⟨hupper, hvar⟩
  · have hpassed := hcompound.orElse_passed hlt
      (h.orElse_passed hlt (hvar.orElse Rule.numeral.reader))
    exact .passed trivial hends hlt (hpassed.conclude .term)
  · rcases passed_or_refused_numeral (s := .argument place depth) htext fun _ => rfl with
      ⟨rest, -, hlt, hnumeral⟩ | ⟨hdigit, hnumeral⟩
    · have hpassed := hcompound.orElse_passed hlt
        (h.orElse_passed hlt (hvar.orElse_passed hlt hnumeral))
      exact .passed trivial hends hlt (hpassed.conclude .term)
    · have hrefused := hcompound.orElse (h.orElse (hvar.orElse hnumeral))
      have hterm := Rule.not_fits_term (h.reach.unfit _ List.mem_cons_self) hupper hdigit
      exact .refused (hrefused.conclude_of_two_le (by simp) htext.bytes_le rfl hterm)

theorem Text.OpensAtom.eq_false {accepts : Char → Bool} (h : text.OpensAtom)
    (hlower : ∀ c, accepts c = true → isLower c = false) (hquote : accepts '\'' = false) :
    ∀ c ∈ text.head?, accepts c = false := by
  intro c hc
  obtain ⟨d, hd, hatom⟩ := h
  obtain rfl : c = d := Option.some.inj (hc.symm.trans hd)
  rcases hatom with hfirst | rfl
  · apply Bool.eq_false_iff.mpr
    intro haccepts
    rw [hlower c haccepts] at hfirst
    cases hfirst
  · exact hquote

/-- Where the atom is stuck inside a quotation, the term is. -/
theorem reads_term_of_stopped (htext : text.IsPlace total) (hopens : text.OpensAtom)
    (h : Stopped total text.bytes (.argument place depth, text) (fun _ => False)
      (Rule.atom.reader.view total text)) :
    Reads total (.argument place depth, text) .term (fun _ => True) (Stage.ArgumentEnds place depth)
      (['('] <+: ·) (Rule.term.reader.view total text) := by
  have hnone := h.left_eq_none
  have hcompound : Rule.compound.reader.view total text = Rule.atom.reader.view total text := by
    have hspaced := view_spaced_of_none (q := Rule.group) hnone
    rw [← hspaced] at h
    rw [Rule.reader_compound, h.view_conclude .compound htext.bytes_le, hspaced]
  have hvar : Refused total text [.var] (Rule.var.reader.view total text) := by
    rcases passed_or_refused_var (s := .argument place depth) htext fun _ => rfl with
      ⟨-, ⟨c, hc, hupper⟩, -, -⟩ | ⟨-, hvar⟩
    · rw [hopens.eq_false (fun _ => isLower_eq_false_of_isUpper) rfl c hc] at hupper
      cases hupper
    · exact hvar
  have hnumeral : Refused total text [.numeral] (Rule.numeral.reader.view total text) := by
    rcases passed_or_refused_numeral (s := .argument place depth) htext fun _ => rfl with
      ⟨-, ⟨c, hc, hdigit⟩, -, -⟩ | ⟨-, hnumeral⟩
    · rw [hopens.eq_false (fun _ => isLower_eq_false_of_isDigit) rfl c hc] at hdigit
      cases hdigit
    · exact hnumeral
  have hrest := hvar.orElse hnumeral
  have hview : (Rule.compound.reader.orElse (Rule.atom.reader.orElse
      (Rule.var.reader.orElse Rule.numeral.reader))).view total text =
        (((Rule.var.reader.orElse Rule.numeral.reader).view total text).after
          (Rule.atom.reader.view total text).refusals).after
            (Rule.atom.reader.view total text).refusals := by
    rw [view_orElse_of_none (by rwa [hcompound]), view_orElse_of_none hnone, hcompound]
  obtain ⟨c', stop, rules, hwalk, hhalts, hlt, hreach, -⟩ := h
  have hboth : Stopped total text.bytes (.argument place depth, text) (['('] <+: ·)
      ((Rule.compound.reader.orElse (Rule.atom.reader.orElse
        (Rule.var.reader.orElse Rule.numeral.reader))).view total text) := by
    rw [hview]
    refine ⟨c', stop, rules ++ rules, hwalk, hhalts.congr (by simp), hlt, ?_, by simp [hrest.left]⟩
    exact hreach.merge (hreach.merge_earlier hrest.reach hlt)
  rw [Rule.reader_term, hboth.view_conclude .term htext.bytes_le]
  exact .stopped trivial hboth

/-- After an atom comes an argument list, or the atom is a term by itself. A
list that is stuck is given back with the rest. -/
theorem reads_term_of_passed {rest : Text} (htext : text.IsPlace total)
    (hlt : rest.bytes < text.bytes)
    (h : Passed total (.argument place depth, text) (.argumentEnd place depth true, rest) []
      (Rule.atom.reader.view total text))
    (hgroup : Reads total (.argumentEnd place depth true, rest) .lparen (['('] <+: ·)
      (Stage.EndsAt (.argumentEnd place depth false) []) (fun _ => False)
      (Rule.group.view total rest)) :
    Reads total (.argument place depth, text) .term (fun _ => True) (Stage.ArgumentEnds place depth)
      (['('] <+: ·) (Rule.term.reader.view total text) := by
  have hview := view_spaced_of_some (q := Rule.group) (Rule.splits_reader .atom) htext.bytes_le
    h.left
  rw [Rule.reader_term]
  cases hgroup with
  | refused hgroup =>
    have hrefused := hgroup.after h.reach
    rw [← hview] at hrefused
    have hcompound := Rule.view_conclude_of_beyond .compound htext.bytes_le hrefused.reach
      (List.cons_ne_nil _ _) hlt
    rw [← hcompound, ← Rule.reader_compound] at hrefused
    have hpassed := (h.orElse (Rule.var.reader.orElse Rule.numeral.reader)).after hrefused.reach
    rw [← view_orElse_of_none hrefused.left] at hpassed
    exact .passed trivial ⟨true, rfl, rfl⟩ hlt (hpassed.conclude .term)
  | @passed c rules hfirst hends hless hgroup =>
    obtain ⟨hc, rfl⟩ := hends
    have hcompound := (hgroup.of_walk h.walk).after_before h.reach hless
    rw [← hview] at hcompound
    have hpassed := (hcompound.conclude .compound).orElse
      (Rule.atom.reader.orElse (Rule.var.reader.orElse Rule.numeral.reader))
    rw [← Rule.reader_compound] at hpassed
    exact .passed trivial ⟨false, hc, by rw [hc]; rfl⟩ (Nat.lt_trans hless hlt)
      (hpassed.conclude .term)
  | stopped hfirst hgroup =>
    have hstopped := (hgroup.after (Nat.le_refl _) h.reach).of_walk h.walk
    have hwide := hstopped.mono (Nat.le_of_lt hlt) fun _ hd => hd
    rw [← hview] at hwide
    have hcompound := hwide.view_conclude .compound htext.bytes_le
    rw [← hview, ← hcompound, ← Rule.reader_compound] at hstopped
    have hatom := h.orElse (Rule.var.reader.orElse Rule.numeral.reader)
    have hlater := view_orElse_of_none (q := Rule.atom.reader.orElse
      (Rule.var.reader.orElse Rule.numeral.reader)) hstopped.left_eq_none
    obtain ⟨c', stop, rules, hwalk, hhalts, hless, hreach, -⟩ := hstopped
    have hleft' := hatom.left
    rw [← View.after_left _ (Rule.compound.reader.view total text).refusals, ← hlater] at hleft'
    rw [Rule.view_conclude_of_some hleft']
    refine .stopped trivial ⟨c', stop, rules, hwalk, hhalts, Nat.lt_trans hless hlt, ?_, ?_⟩
    · rw [hlater]
      exact hreach.merge_earlier hatom.reach hless
    · intro left hl
      obtain rfl : rest = left := Option.some.inj (hleft'.symm.trans hl)
      exact ⟨hfirst, h.walk.isPlace htext, hless⟩

/-- A list of terms reads when each of the terms in it does. -/
theorem reads_termList_of_terms (htext : text.IsPlace total)
    (hterm : ∀ rest, Text.IsPlace total rest → Text.bytes rest ≤ text.bytes →
      Reads total (.argument place depth, rest) .term (fun _ => True)
        (Stage.ArgumentEnds place depth) (['('] <+: ·) (Rule.term.reader.view total rest)) :
    Reads total (.argument place depth, text) .term (fun _ => True) (Stage.ListEnds place depth)
      Text.OpensArgument (Rule.termList.reader.view total text) := by
  have hlist := reads_commaSeparated (Rule.splits_reader .term) htext (Nat.lt_succ_self _) rfl
    (fun e rules h => Stage.next_comma_of_argumentEnds h)
    (fun rest hrest hle => hterm rest hrest (Nat.le_of_lt_succ hle))
    (by rintro _ ⟨tail, rfl⟩; simp)
  rw [Rule.reader_termList]
  exact hlist.conclude .termList htext.bytes_le

/-- Every term reads. -/
theorem reads_term (htext : text.IsPlace total) :
    Reads total (.argument place depth, text) .term (fun _ => True) (Stage.ArgumentEnds place depth)
      (['('] <+: ·) (Rule.term.reader.view total text) := by
  induction hn : text.bytes using Nat.strongRecOn generalizing text place depth with
  | ind n ih =>
    cases reads_atom (s := .argument place depth) htext fun _ => rfl with
    | refused h => exact reads_term_of_refused htext h
    | stopped hopens h => exact reads_term_of_stopped htext hopens h
    | @passed c rules hopens hends hlt h =>
      obtain ⟨e, rest⟩ := c
      obtain ⟨rfl, rfl⟩ := hends
      have hnext : (Stage.argumentEnd place depth true).next .lparen =
          some (.argument place (depth + 1)) := rfl
      refine reads_term_of_passed htext hlt h (reads_group (h.walk.isPlace htext) hnext ?_)
      intro rest' hrest' hless
      refine reads_termList_of_terms hrest' ?_
      intro rest'' hrest'' hle
      exact ih rest''.bytes (by simp only at hlt hless; omega) hrest'' rfl

theorem reads_termList (htext : text.IsPlace total) :
    Reads total (.argument place depth, text) .term (fun _ => True) (Stage.ListEnds place depth)
      Text.OpensArgument (Rule.termList.reader.view total text) :=
  reads_termList_of_terms htext fun _ hrest _ => reads_term hrest

end

end HornSyntax
