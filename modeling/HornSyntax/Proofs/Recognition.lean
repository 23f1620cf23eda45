import HornSyntax.Proofs.Clauses
import HornSyntax.SyntaxError

/-!
What it means that a text is recognized, and where the error of another text
lies. A text is recognized exactly when tokens lead over all of it to the last
stage. Otherwise the error is at the one place where the walk over the text
comes to a halt, and lists what would have gone on from there.
-/

namespace HornSyntax

open Reader CharacterClass

theorem Rule.nodup_all : all.Nodup := by decide

/-- A reader that leaves nothing of the text when it succeeds. -/
def Reader.Finishes (p : Reader) : Prop :=
  ∀ offset text m, (p offset text).found = some m → m.rest = []

theorem Reader.Finishes.spaced {q : Reader} (hq : q.Finishes) (p : Reader) :
    (p.spaced q).Finishes := by
  intro offset text m h
  obtain ⟨_, second, -, hsecond, rfl⟩ := followedBy_found h
  obtain ⟨_, last, -, hlast, rfl⟩ := followedBy_found hsecond
  exact hq _ _ last hlast

theorem Reader.Finishes.conclude {p : Reader} (hp : p.Finishes) (r : Rule) :
    (r.conclude p).Finishes := by
  intro offset text m h
  obtain ⟨inner, hinner, -, hrest, -⟩ := Rule.conclude_found h
  rw [hrest]
  exact hp _ _ inner hinner

theorem Rule.finishes_program : program.reader.Finishes := by
  have hending : ending.Finishes := by
    intro offset text m h
    cases text with
    | nil =>
      obtain rfl := Option.some.inj h
      rfl
    | cons c rest => cases h
  have hend : endOfInput.reader.Finishes := by
    rw [reader_eq endOfInput]
    exact hending.conclude endOfInput
  rw [reader_program]
  exact ((((hend.spaced _).spaced _).spaced _).conclude program)

/-- A token that begins with a quotation mark is a quotation. -/
theorem Token.exists_quotation {t : Token} {rest tail : Text} (hwf : t.wellFormed = true)
    (h : t.text ++ rest = '\'' :: tail) :
    ∃ letters : Text, (t = .name (.quoted letters) ∨ t = .symbol (.quoted letters)) ∧
      t.text = '\'' :: letters ++ ['\''] ∧ letters.isRun isQuotable isQuotable = true := by
  obtain ⟨c, more, htext, hopen⟩ := exists_text_eq_cons hwf
  obtain rfl : c = '\'' := by
    rw [htext] at h
    exact (List.cons.inj h).1
  have hmark : t.opening = .mark '\'' := hopen.symm
  rcases t with ⟨_ | letters⟩ | ⟨_ | letters⟩ | _ | _ | _ | _ | _ | _ | _ | _ <;>
    first
      | exact ⟨letters, Or.inl rfl, rfl, hwf⟩
      | exact ⟨letters, Or.inr rfl, rfl, hwf⟩
      | cases hmark

/-- No token leads on from where a walk comes to a halt. -/
theorem Halts.not_step {c c' : Stage × Text} {place : Text} {rules : List Rule}
    (h : Halts c place rules) (hunfit : ∀ r ∈ rules, ¬ r.Fits place) : ¬ Step c c' := by
  intro hstep
  cases h with
  | @outside s text _ h =>
    cases hstep with
    | @take _ s' t rest hnext hwf hends =>
      exact hunfit t.rule ((h t.rule).mpr (Stage.rule_mem_expected hnext)) (t.fits_rule hwf rest)
  | @inside s place _ hs h =>
    generalize htext : '\'' :: place = text at hstep
    cases hstep with
    | @take _ s' t rest hnext hwf hends =>
      obtain ⟨letters, -, hletters, hrun⟩ := Token.exists_quotation hwf htext.symm
      cases letters with
      | nil => cases hrun
      | cons c more =>
        rw [hletters] at htext
        have hplace : place = c :: (more ++ '\'' :: rest) := by simpa using htext
        refine hunfit .string ((h .string).mpr rfl) ?_
        rw [hplace]
        exact ⟨c, rfl, (Bool.and_eq_true_iff.mp hrun).1⟩

/-- A walk that comes to a halt does not reach the end of a program. -/
theorem Halts.not_walk {c d : Stage × Text} {place : Text} {rules : List Rule}
    (h : Halts d place rules) (hunfit : ∀ r ∈ rules, ¬ r.Fits place) (hwalk : Walk c d) :
    ¬ Walk c (.finished, []) := by
  intro hend
  have hd : d = (.finished, []) := by
    rcases hwalk.total hend with hd | hd
    · rcases Relation.ReflTransGen.cases_head hd with rfl | ⟨d', hstep, -⟩
      · rfl
      · exact absurd hstep (h.not_step hunfit)
    · exact hd.eq_of_text_nil rfl
  subst hd
  cases h with
  | outside h => exact hunfit .endOfInput ((h .endOfInput).mpr (by simp [Stage.expected])) rfl

/-- Where an atom may come, an error lies before a quotation mark only if some
text follows the mark. -/
theorem Stage.TakesAtom.exists_quotable {s : Stage} {rest : Text} (hs : s.TakesAtom)
    (hunfit : ∀ r ∈ s.expected, ¬ r.Fits ('\'' :: rest)) :
    ∃ c ∈ rest.head?, isQuotable c = true := by
  obtain ⟨s', hnext⟩ := hs (.name [])
  have hrule : (s.atomToken (.name [])).rule = .atom ∨ (s.atomToken (.name [])).rule = .term := by
    cases s <;> simp [Stage.atomToken, Token.rule]
  apply Classical.byContradiction
  intro hnone
  have hbare : Text.IsBareQuote ('\'' :: rest) := ⟨rest, rfl, by simpa using hnone⟩
  apply hunfit _ (Stage.rule_mem_expected hnext)
  exact Rule.fits_of_isBareQuote hrule hbare

/-- A walk comes to a halt at one place, and the same rules are expected there. -/
theorem Halts.unique {c : Stage × Text} {place place' : Text} {rules rules' : List Rule}
    (h : Halts c place rules) (h' : Halts c place' rules') (hunfit : ∀ r ∈ rules, ¬ r.Fits place)
    (hunfit' : ∀ r ∈ rules', ¬ r.Fits place') : place = place' ∧ ∀ r, r ∈ rules ↔ r ∈ rules' := by
  cases h with
  | outside h =>
    cases h' with
    | outside h' => exact ⟨rfl, fun r => (h r).trans (h' r).symm⟩
    | inside hs h' =>
      have hquotable := hs.exists_quotable fun r hr => hunfit r ((h r).mpr hr)
      exact absurd hquotable (hunfit' .string ((h' .string).mpr rfl))
  | inside hs h =>
    cases h' with
    | outside h' =>
      have hquotable := hs.exists_quotable fun r hr => hunfit' r ((h' r).mpr hr)
      exact absurd hquotable (hunfit .string ((h .string).mpr rfl))
    | inside _ h' => exact ⟨rfl, fun r => (h r).trans (h' r).symm⟩

theorem Rule.matchText_of_some {r : Rule} {text : Text} {m : Match}
    (h : (r.reader 0 text).found = some m) : r.matchText text = .ok m := by
  unfold matchText
  simp only [h]

theorem Rule.matchText_of_none {r : Rule} {text : Text} (h : (r.reader 0 text).found = none) :
    r.matchText text = .error (.ofRefusals text (r.reader 0 text).refusals) := by
  unfold matchText
  simp only [h]

theorem Rule.found_of_matchText {r : Rule} {text : Text} {m : Match}
    (h : r.matchText text = .ok m) : (r.reader 0 text).found = some m := by
  cases hfound : (r.reader 0 text).found with
  | none =>
    rw [matchText_of_none hfound] at h
    cases h
  | some m' =>
    rw [matchText_of_some hfound] at h
    rw [Except.ok.inj h]

theorem recognize_of_some {text : Text} {m : Match}
    (h : (Rule.program.reader 0 text).found = some m) : recognize text = .ok () := by
  rw [recognize, Rule.matchText_of_some h]
  rfl

theorem recognize_of_none {text : Text} (h : (Rule.program.reader 0 text).found = none) :
    recognize text = .error (.ofRefusals text (Rule.program.reader 0 text).refusals) := by
  rw [recognize, Rule.matchText_of_none h]
  rfl

theorem SyntaxError.ofRefusals_append {before after : Text} {f : Refusals}
    (h : f.position = before.bytes) :
    ofRefusals (before ++ after) (some f) = ⟨before, after, Rule.all.filter (· ∈ f.rules)⟩ := by
  simp only [ofRefusals, h, Text.splitAtByte_bytes]

/-- The error of a text is at the place where the walk over it comes to a halt. -/
structure SyntaxError.At (e : SyntaxError) (text : Text) (c : Stage × Text) : Prop where
  text_eq : text = e.before ++ e.after
  walk : Walk (.start, text.dropBlanks) c
  halts : Halts c e.after e.expected
  unfit : ∀ r ∈ e.expected, ¬ r.Fits e.after
  nodup : e.expected.Nodup

/-- Every walk over the text leads on to the place of the error. -/
theorem SyntaxError.At.walk_of_walk {e : SyntaxError} {text : Text} {c d : Stage × Text}
    (h : e.At text c) (hwalk : Walk (.start, text.dropBlanks) d) : Walk d c := by
  rcases hwalk.total h.walk with hon | hback
  · exact hon
  · rcases Relation.ReflTransGen.cases_head hback with rfl | ⟨c', hstep, -⟩
    · exact .refl
    · exact absurd hstep (h.halts.not_step h.unfit)

theorem Halts.exists_before {c : Stage × Text} {place : Text} {rules : List Rule}
    (h : Halts c place rules) : ∃ opening, c.2 = opening ++ place := by
  cases h with
  | outside => exact ⟨[], rfl⟩
  | inside => exact ⟨['\''], rfl⟩

/-- Reading a text either recognizes it, where tokens lead over all of it, or ends at an error. -/
theorem recognize_cases (text : Text) :
    recognize text = .ok () ∧ Walk (.start, text.dropBlanks) (.finished, []) ∨
      ∃ e c, recognize text = .error e ∧ e.At text c := by
  cases proceeds_program text with
  | @passed c rules hends h =>
    obtain ⟨m, hm, hrest⟩ := Option.map_eq_some_iff.mp h.left
    have hwalk := h.walk
    rw [Rule.finishes_program _ _ _ hm] at hrest
    obtain ⟨s, rest⟩ := c
    obtain ⟨rfl, -⟩ := hends
    obtain rfl : [] = rest := hrest
    exact Or.inl ⟨recognize_of_some hm, hwalk⟩
  | stopped h =>
    obtain ⟨c, place, rules, hwalk, hhalts, hlt, hreach, hleft⟩ := h
    have hnone : (Rule.program.reader 0 text).found = none :=
      found_eq_none_of_left (Option.eq_none_iff_forall_ne_some.mpr fun left hl => (hleft left hl).1)
    obtain ⟨f, hf, hposition, rfl⟩ := hreach.exists_some hhalts.ne_nil
    obtain ⟨gap, -, hgap⟩ := Text.exists_blanks_append_dropBlanks text
    obtain ⟨used, _, hused, -⟩ := hwalk.exists_spelled
    obtain ⟨opening, hopening⟩ := hhalts.exists_before
    have htext : text = (gap ++ used ++ opening) ++ place := by
      rw [hgap, show text.dropBlanks = used ++ c.2 from hused, hopening]
      simp only [List.append_assoc]
    have hbefore : f.position = Text.bytes (gap ++ used ++ opening) := by
      have hbytes := congrArg Text.bytes htext
      rw [Text.bytes_append] at hbytes
      omega
    have hrules : ∀ r, r ∈ Rule.all.filter (· ∈ f.rules) ↔ r ∈ f.rules := by
      intro r
      simp [Rule.mem_all]
    have hnodup : (Rule.all.filter (· ∈ f.rules)).Nodup := Rule.nodup_all.filter _
    refine Or.inr ⟨⟨gap ++ used ++ opening, place, Rule.all.filter (· ∈ f.rules)⟩, c, ?_, ?_⟩
    · have hrefusals : (Rule.program.reader 0 text).refusals = some f := hf
      rw [recognize_of_none hnone, hrefusals, ← SyntaxError.ofRefusals_append hbefore, ← htext]
    · exact ⟨htext, hwalk, hhalts.congr hrules, fun r hr => hreach.unfit r ((hrules r).mp hr),
        hnodup⟩

theorem recognize_eq_ok_iff {text : Text} :
    recognize text = .ok () ↔ Walk (.start, text.dropBlanks) (.finished, []) := by
  rcases recognize_cases text with ⟨hok, hwalk⟩ | ⟨e, c, herror, hat⟩
  · exact ⟨fun _ => hwalk, fun _ => hok⟩
  · constructor
    · intro hok
      rw [herror] at hok
      cases hok
    · exact fun hwalk => absurd hwalk (hat.halts.not_walk hat.unfit hat.walk)

theorem exists_at_of_recognize {text : Text} {e : SyntaxError} (h : recognize text = .error e) :
    ∃ c, e.At text c := by
  rcases recognize_cases text with ⟨hok, -⟩ | ⟨e', c, herror, hat⟩
  · rw [hok] at h
    cases h
  · obtain rfl : e' = e := Except.error.inj (herror.symm.trans h)
    exact ⟨c, hat⟩

/-- An error lists its rules in the order of the grammar. -/
theorem expected_eq_filter {text : Text} {e : SyntaxError} (h : recognize text = .error e) :
    e.expected = Rule.all.filter (· ∈ e.expected) := by
  cases hfound : (Rule.program.reader 0 text).found with
  | some m =>
    rw [recognize_of_some hfound] at h
    cases h
  | none =>
    rw [recognize_of_none hfound] at h
    obtain rfl := Except.error.inj h
    cases (Rule.program.reader 0 text).refusals with
    | none => simp [SyntaxError.ofRefusals]
    | some f => simp [SyntaxError.ofRefusals, Rule.mem_all]

/-- A text of tokens that lead from the start to the end is recognized. -/
theorem recognize_of_spelled {ts : List Token} {text : Text} (h : Spelled ts text)
    (hrun : Stage.start.run ts = some .finished) (hwf : ∀ t ∈ ts, t.wellFormed = true) :
    recognize text = .ok () :=
  recognize_eq_ok_iff.mpr (.of_spelled h hrun hwf)

end HornSyntax
