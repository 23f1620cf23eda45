import HornSyntax.Proofs.Reading

/-!
Reading single tokens. Marks are read as they are written, names, variables,
numerals and quoted texts as far as they go. Where an atom is to be read, a
quotation mark that no text follows stops the reading right after the mark,
and a quotation that is not closed is refused where it begins.
-/

namespace HornSyntax

open Reader CharacterClass
open Refusals (Reach)

namespace Rule

theorem fits_iff {r : Rule} (hend : r ≠ .endOfInput) (hstring : r ≠ .string) {text : Text} :
    r.Fits text ↔ (r = .atom ∨ r = .term) ∧ text.IsBareQuote ∨
      ∃ (t : Token) (rest : Text), t.wellFormed = true ∧ t.rule = r ∧ text = t.text ++ rest := by
  cases r <;> first | rfl | exact absurd rfl hend | exact absurd rfl hstring

theorem fits_of_isBareQuote {r : Rule} {text : Text} (hr : r = .atom ∨ r = .term)
    (h : text.IsBareQuote) : r.Fits text := by
  rcases hr with rfl | rfl
  · exact Or.inl ⟨Or.inl rfl, h⟩
  · exact Or.inl ⟨Or.inr rfl, h⟩

/-- A rule under which no token is listed fits nowhere. -/
theorem not_fits {r : Rule} (hend : r ≠ .endOfInput) (hstring : r ≠ .string)
    (h : ∀ t : Token, t.rule ≠ r) (text : Text) : ¬ r.Fits text := by
  rw [fits_iff hend hstring]
  rintro (⟨rfl | rfl, -⟩ | ⟨t, rest, -, hrule, -⟩)
  · exact h (.name (.name [])) rfl
  · exact h (.symbol (.name [])) rfl
  · exact h t hrule

theorem fits_atom_iff {text : Text} :
    Rule.atom.Fits text ↔ text.IsBareQuote ∨
      ∃ (a : Atom) (rest : Text), a.wellFormed = true ∧ text = a.text ++ rest := by
  rw [fits_iff (by decide) (by decide)]
  constructor
  · rintro (⟨-, hbare⟩ | ⟨t, rest, hwf, hrule, rfl⟩)
    · exact Or.inl hbare
    · cases t with
      | name a => exact Or.inr ⟨a, rest, hwf, rfl⟩
      | _ => cases hrule
  · rintro (hbare | ⟨a, rest, hwf, rfl⟩)
    · exact Or.inl ⟨Or.inl rfl, hbare⟩
    · exact Or.inr ⟨.name a, rest, hwf, rfl, rfl⟩

end Rule

namespace Token

/-- The tokens that are written in one way only. -/
def isMark : Token → Bool
  | name _ => false
  | symbol _ => false
  | var _ => false
  | numeral _ => false
  | _ => true

variable {t u : Token}

theorem eq_of_rule_eq (ht : t.isMark = true) (h : u.rule = t.rule) : u = t := by
  cases t <;> cases u <;> first | rfl | (cases ht; done) | cases h

theorem endsBefore_of_isMark (ht : t.isMark = true) (rest : Text) : t.EndsBefore rest := by
  intro c _
  cases t <;> first | rfl | cases ht

theorem wellFormed_of_isMark (ht : t.isMark = true) : t.wellFormed = true := by
  cases t <;> first | rfl | cases ht

theorem silent_rule (t : Token) : t.rule.silent = false := by
  cases t <;> rfl

theorem reader_rule (ht : t.isMark = true) : t.rule.reader = t.rule.conclude (word t.text) := by
  cases t <;> first | exact Rule.reader_eq _ | cases ht

theorem fits_rule (hwf : u.wellFormed = true) (rest : Text) : u.rule.Fits (u.text ++ rest) := by
  rw [Rule.fits_iff (by cases u <;> simp [rule]) (by cases u <;> simp [rule])]
  exact Or.inr ⟨u, rest, hwf, rfl, rfl⟩

theorem fits_rule_iff (ht : t.isMark = true) {text : Text} :
    t.rule.Fits text ↔ t.text <+: text := by
  rw [Rule.fits_iff (by cases t <;> simp [rule]) (by cases t <;> simp [rule])]
  constructor
  · rintro (⟨hrule, -⟩ | ⟨u, rest, -, hrule, rfl⟩)
    · cases t <;> first | (cases ht; done) | (rcases hrule with h | h <;> cases h)
    · rw [eq_of_rule_eq ht hrule]
      exact ⟨rest, rfl⟩
  · rintro ⟨rest, rfl⟩
    exact Or.inr ⟨t, rest, wellFormed_of_isMark ht, rfl, rfl⟩

end Token

namespace Reader

theorem isPrefixOf?_append (letters rest : Text) :
    letters.isPrefixOf? (letters ++ rest) = some rest := by
  induction letters with
  | nil => rfl
  | cons c more ih =>
    show (if c == c then more.isPrefixOf? (more ++ rest) else none) = some rest
    rw [if_pos (beq_self_eq_true c), ih]

theorem word_append (letters rest : Text) (offset : Nat) :
    word letters offset (letters ++ rest) = ⟨some ⟨[], letters, rest⟩, none⟩ := by
  rw [word, isPrefixOf?_append]
  rfl

theorem word_of_not_prefix {letters text : Text} (h : ¬ letters <+: text) (offset : Nat) :
    word letters offset text = ⟨none, none⟩ := by
  cases hprefix : letters.isPrefixOf? text with
  | none => rw [word, hprefix]; rfl
  | some rest => exact absurd ⟨rest, append_of_isPrefixOf? hprefix⟩ h

end Reader

section

variable {total : Nat} {text : Text} {t : Token}

theorem refused_mark (ht : t.isMark = true) (hplace : text.bytes ≤ total)
    (h : ¬ t.text <+: text) : Refused total text [t.rule] (t.rule.reader.view total text) := by
  have hview : (word t.text).view total text = ⟨none, none⟩ := by
    rw [Reader.view, word_of_not_prefix h]
    rfl
  rw [Token.reader_rule ht, Rule.view_conclude_of_none t.silent_rule (by rw [hview]), hview]
  exact ⟨rfl, .of_blame_none hplace (by rwa [Token.fits_rule_iff ht])⟩

/-- A mark leads on to the next stage where it stands, and is refused elsewhere. -/
theorem reads_mark {s s' : Stage} (ht : t.isMark = true) (hplace : text.IsPlace total)
    (hnext : s.next t = some s') :
    Reads total (s, text) t.rule (t.text <+: ·) (Stage.EndsAt s' [])
      (fun _ => False) (t.rule.reader.view total text) := by
  by_cases h : t.text <+: text
  · obtain ⟨rest, rfl⟩ := h
    have hview : (word t.text).view total (t.text ++ rest) =
        ⟨some (Text.dropBlanks rest), none⟩ := by
      rw [Reader.view, word_append]
      rfl
    have hwf := Token.wellFormed_of_isMark ht
    have hstep := Step.take hnext hwf (Token.endsBefore_of_isMark ht rest)
    rw [Token.reader_rule ht, Rule.view_conclude_of_some (by rw [hview]), hview]
    refine .passed ⟨rest, rfl⟩ ⟨rfl, rfl⟩ hstep.bytes_lt ⟨rfl, .single hstep, .none _ _⟩
  · exact .refused (refused_mark ht hplace.bytes_le h)

end

namespace Reader

theorem orElse_one (p q : Char → Bool) : (one p).orElse (one q) = one fun c => p c || q c := by
  funext offset text
  cases text with
  | nil => rfl
  | cons c rest =>
    cases hp : p c with
    | true => simp [orElse, one, hp]
    | false => cases hq : q c <;> simp [orElse, one, hp, hq]

theorem takes_one (p : Char → Bool) : (one p).Takes 1 := by
  intro offset text m h
  cases text with
  | nil => cases h
  | cons c rest =>
    cases hp : p c with
    | true =>
      obtain rfl : _ = m := by simpa [one, hp] using h
      exact Nat.le_refl 1
    | false => simp [one, hp] at h

/-- A repetition of single characters takes all that there are. -/
theorem many_one (more : Char → Bool) (offset : Nat) (text : Text) :
    many empty (one more) offset text =
      ⟨some ⟨[], text.takeWhile more, text.dropWhile more⟩, none⟩ := by
  have hempty : empty.followedBy (one more) = one more := by
    funext offset text
    unfold followedBy
    cases h : one more offset text with
    | mk found refusals =>
      cases found <;> simp [empty, h, Text.bytes, Match.append]
  have hall : ∀ (text : Text) offset, (one more).allRounds offset text =
      ⟨some ⟨[], text.takeWhile more, text.dropWhile more⟩, none⟩ := by
    intro text
    induction text with
    | nil =>
      intro offset
      rw [allRounds_eq (splits_one more) (takes_one more)]
      rfl
    | cons c rest ih =>
      intro offset
      rw [allRounds_eq (splits_one more) (takes_one more)]
      cases hc : more c with
      | true => simp [optional, orElse, followedBy, one, hc, ih, Match.append]
      | false => simp [optional, orElse, followedBy, one, hc, empty]
  rw [many_eq splits_empty (splits_one more) (takes_one more), hempty]
  cases text with
  | nil => rfl
  | cons c rest =>
    cases hc : more c with
    | true => simp [optional, orElse, followedBy, one, hc, hall, Match.append]
    | false => simp [optional, orElse, followedBy, one, hc, empty]

end Reader

/-- A text of one character of a class and any number of another, read as far as it goes. -/
def Reader.run (first more : Char → Bool) : Reader :=
  (one first).followedBy (empty.followedBy (many empty (one more)))

namespace Rule

variable {r : Rule} {first more : Char → Bool}

theorem run_cases (hr : r.reader = r.conclude (Reader.run first more)) (hsilent : r.silent = false)
    (offset : Nat) (text : Text) :
    (∃ run rest, text = run ++ rest ∧ run.isRun first more = true ∧
      (∀ c ∈ rest.head?, more c = false) ∧
      r.reader offset text = ⟨some ⟨[⟨r, offset, run, []⟩], run, rest⟩, none⟩) ∨
    (∀ c ∈ text.head?, first c = false) ∧ r.reader offset text = ⟨none, some ⟨offset, [r]⟩⟩ := by
  rw [hr]
  cases text with
  | nil =>
    refine Or.inr ⟨by simp, ?_⟩
    simp [conclude, hsilent, Reader.run, followedBy, one, Refusals.blame]
  | cons c rest =>
    cases hc : first c with
    | false =>
      refine Or.inr ⟨by simpa using hc, ?_⟩
      simp [conclude, hsilent, Reader.run, followedBy, one, hc, Refusals.blame]
    | true =>
      refine Or.inl ⟨c :: rest.takeWhile more, rest.dropWhile more, ?_, ?_, ?_, ?_⟩
      · simp
      · simp [Text.isRun, hc]
      · intro d hd
        have h := List.head?_dropWhile_not more rest
        rw [Option.mem_def.mp hd] at h
        simpa using h
      · simp [conclude, hsilent, Reader.run, followedBy, one, hc, empty, many_one, Match.append]

theorem isRun_all {run : Text} {p : Char → Bool} (h : run.isRun p p = true) :
    run.all p = true := by
  cases run with
  | nil => cases h
  | cons c rest => exact h

theorem reader_smallAtom : smallAtom.reader = smallAtom.conclude (Reader.run isLower isAlnum) :=
  reader_eq smallAtom

theorem reader_var : var.reader = var.conclude (Reader.run isUpper isAlnum) :=
  reader_eq var

theorem reader_numeral : numeral.reader = numeral.conclude (Reader.run isDigit isDigit) :=
  reader_eq numeral

theorem reader_string : string.reader = string.conclude (Reader.run isQuotable isQuotable) := by
  have h : string.reader = string.conclude
      (((one isAlnum).orElse (one isSpecial)).followedBy
        (empty.followedBy (many empty ((one isAlnum).orElse (one isSpecial))))) := reader_eq string
  rw [h, orElse_one]
  rfl

theorem reader_quotedAtom : quotedAtom.reader =
    quotedAtom.conclude ((word ['\'']).followedBy (empty.followedBy
      (string.reader.followedBy (empty.followedBy (word ['\'']))))) := by
  have h : quotedAtom.reader =
      quotedAtom.conclude (((word ['\'']).followedBy (empty.followedBy string.reader)).followedBy
        (empty.followedBy (word ['\'']))) := reader_eq quotedAtom
  rw [h]
  simp only [followedBy_assoc]

theorem reader_atom : atom.reader = atom.conclude (smallAtom.reader.orElse quotedAtom.reader) :=
  reader_eq atom

/-- A quotation is read to its end, or it holds no text, or there is none. -/
theorem quotedAtom_cases (offset : Nat) (text : Text) :
    (∃ letters rest : Text, text = '\'' :: (letters ++ '\'' :: rest) ∧
      letters.isRun isQuotable isQuotable = true ∧
      quotedAtom.reader offset text =
        ⟨some ⟨[⟨quotedAtom, offset, '\'' :: letters ++ ['\''], [⟨string, offset + 1, letters, []⟩]⟩],
          '\'' :: letters ++ ['\''], rest⟩, none⟩) ∨
    (∃ rest, text = '\'' :: rest ∧ (∀ c ∈ rest.head?, isQuotable c = false) ∧
      quotedAtom.reader offset text = ⟨none, some ⟨offset + 1, [string]⟩⟩) ∨
    (∀ letters rest : Text, letters.isRun isQuotable isQuotable = true →
      text ≠ '\'' :: (letters ++ '\'' :: rest)) ∧ ¬ text.IsBareQuote ∧
      quotedAtom.reader offset text = ⟨none, some ⟨offset, [quotedAtom]⟩⟩ := by
  have hword : ∀ offset rest, word ['\''] offset ('\'' :: rest) = ⟨some ⟨[], ['\''], rest⟩, none⟩ :=
    fun offset rest => word_append ['\''] rest offset
  have hsize : Text.bytes ['\''] = 1 := by decide
  rw [reader_quotedAtom]
  by_cases hopen : ['\''] <+: text
  · obtain ⟨body, rfl⟩ := hopen
    rw [List.singleton_append]
    rcases run_cases reader_string rfl (offset + 1) body with
      ⟨letters, rest, rfl, hrun, hrest, hread⟩ | ⟨hhead, hread⟩
    · by_cases hclose : ['\''] <+: rest
      · obtain ⟨rest, rfl⟩ := hclose
        refine Or.inl ⟨letters, rest, rfl, hrun, ?_⟩
        simp only [conclude, silent, followedBy, hword, hsize, empty, Text.bytes_nil, Nat.add_zero,
          List.singleton_append] at hread ⊢
        simp only [hread, hword, Match.append, Option.map_some, Refusals.merge_none_left,
          List.nil_append, List.cons_append, Bool.false_eq_true, if_false]
      · refine Or.inr (Or.inr ⟨?_, ?_, ?_⟩)
        · intro letters' rest' hrun' heq
          obtain hsame := (List.cons.inj heq).2
          have hquote : ∀ c ∈ ('\'' :: rest').head?, isQuotable c = false := by
            rintro _ ⟨⟩
            decide
          have hdrop := Text.dropWhile_append_eq (isRun_all hrun) hrest
          rw [hsame, Text.dropWhile_append_eq (isRun_all hrun') hquote] at hdrop
          exact hclose ⟨rest', hdrop⟩
        · rintro ⟨body, hbody, hhead⟩
          cases letters with
          | nil => cases hrun
          | cons c letters =>
            have hc := hhead c (by rw [← (List.cons.inj hbody).2]; rfl)
            rw [(Bool.and_eq_true_iff.mp hrun).1] at hc
            cases hc
        · simp only [conclude, silent, followedBy, hword, hsize, empty, Text.bytes_nil, Nat.add_zero,
            hread, word_of_not_prefix hclose, Option.map_none, Refusals.merge_none_left,
            Refusals.blame, Bool.false_eq_true, if_false]
    · refine Or.inr (Or.inl ⟨body, rfl, hhead, ?_⟩)
      simp [conclude, silent, followedBy, hword, hsize, empty, hread, Refusals.blame]
  · refine Or.inr (Or.inr ⟨?_, ?_, ?_⟩)
    · rintro letters rest - rfl
      exact hopen ⟨_, rfl⟩
    · rintro ⟨rest, rfl, -⟩
      exact hopen ⟨rest, rfl⟩
    · simp [conclude, silent, followedBy, word_of_not_prefix hopen, Refusals.blame]

end Rule

namespace Stage

theorem text_atomToken (s : Stage) (a : Atom) : (s.atomToken a).text = a.text := by
  cases s <;> rfl

theorem wellFormed_atomToken (s : Stage) (a : Atom) : (s.atomToken a).wellFormed = a.wellFormed := by
  cases s <;> rfl

theorem goesOn_atomToken (s : Stage) (a : Atom) : (s.atomToken a).goesOn = a.goesOn := by
  cases s <;> rfl

end Stage

theorem Text.isAlnum_of_isRun {run : Text} {first more : Char → Bool}
    (hfirst : ∀ c, first c = true → isAlnum c = true)
    (hmore : ∀ c, more c = true → isAlnum c = true)
    (h : run.isRun first more = true) : ∀ c ∈ run, isAlnum c = true := by
  cases run with
  | nil => cases h
  | cons d rest =>
    obtain ⟨hd, hrest⟩ := Bool.and_eq_true_iff.mp h
    intro c hc
    rcases List.mem_cons.mp hc with rfl | hmem
    · exact hfirst c hd
    · exact hmore c (List.all_eq_true.mp hrest c hmem)

/-- A token is a word, a quotation or a mark. -/
theorem Token.text_cases {t : Token} (hwf : t.wellFormed = true) :
    (∀ c ∈ t.text, isAlnum c = true) ∨
      (∃ letters : Text, t.text = '\'' :: letters ++ ['\''] ∧
        letters.isRun isQuotable isQuotable = true) ∨ t.isMark = true := by
  have hatom : ∀ a : Atom, a.wellFormed = true → (∀ c ∈ a.text, isAlnum c = true) ∨
      ∃ letters : Text, a.text = '\'' :: letters ++ ['\''] ∧
        letters.isRun isQuotable isQuotable = true := by
    intro a ha
    cases a with
    | name letters =>
      exact Or.inl (Text.isAlnum_of_isRun (fun _ => isAlnum_of_isLower) (fun _ hc => hc) ha)
    | quoted letters => exact Or.inr ⟨letters, rfl, ha⟩
  cases t with
  | name a => exact (hatom a hwf).imp_right Or.inl
  | symbol a => exact (hatom a hwf).imp_right Or.inl
  | var letters =>
    exact Or.inl (Text.isAlnum_of_isRun (fun _ => isAlnum_of_isUpper) (fun _ hc => hc) hwf)
  | numeral digits =>
    exact Or.inl (Text.isAlnum_of_isRun (fun _ => isAlnum_of_isDigit)
      (fun _ => isAlnum_of_isDigit) hwf)
  | _ => exact Or.inr (Or.inr rfl)

/-- The rules that no error lists, since another rule speaks for them or they cannot fail alone. -/
theorem Rule.not_fits_smallAtom (text : Text) : ¬ Rule.smallAtom.Fits text :=
  Rule.not_fits (by decide) (by decide) (fun t => by cases t <;> simp [Token.rule]) text

theorem Rule.not_fits_quotedAtom (text : Text) : ¬ Rule.quotedAtom.Fits text :=
  Rule.not_fits (by decide) (by decide) (fun t => by cases t <;> simp [Token.rule]) text

theorem Rule.not_fits_var (text : Text) : ¬ Rule.var.Fits text :=
  Rule.not_fits (by decide) (by decide) (fun t => by cases t <;> simp [Token.rule]) text

theorem Rule.not_fits_numeral (text : Text) : ¬ Rule.numeral.Fits text :=
  Rule.not_fits (by decide) (by decide) (fun t => by cases t <;> simp [Token.rule]) text

section

variable {total : Nat} {text : Text} {s s' : Stage}

/-- A run of characters is taken as a token, or its first character is missing. -/
theorem passed_or_refused_run {r : Rule} {first more : Char → Bool} {token : Text → Token}
    (hr : r.reader = r.conclude (Reader.run first more)) (hsilent : r.silent = false)
    (hfits : ¬ r.Fits text) (htext : ∀ run, (token run).text = run)
    (hwf : ∀ run, (token run).wellFormed = run.isRun first more)
    (hgoes : ∀ run, (token run).goesOn = more) (hplace : text.IsPlace total)
    (hnext : ∀ run, s.next (token run) = some s') :
    (∃ rest, (∃ c ∈ text.head?, first c = true) ∧ rest.bytes < text.bytes ∧
      Passed total (s, text) (s', rest) [] (r.reader.view total text)) ∨
    (∀ c ∈ text.head?, first c = false) ∧ Refused total text [r] (r.reader.view total text) := by
  rcases Rule.run_cases hr hsilent (total - text.bytes) text with
    ⟨run, rest, rfl, hrun, hrest, hread⟩ | ⟨hhead, hread⟩
  · have hends : (token run).EndsBefore rest := by
      intro c hc
      rw [hgoes]
      exact hrest c hc
    have hstep : Step (s, run ++ rest) (s', rest.dropBlanks) := by
      have h := Step.take (hnext run) ((hwf run).trans hrun) hends
      rwa [htext] at h
    have hfirst : ∃ c ∈ (run ++ rest).head?, first c = true := by
      cases run with
      | nil => cases hrun
      | cons c tail => exact ⟨c, rfl, (Bool.and_eq_true_iff.mp hrun).1⟩
    rw [Reader.view, hread]
    exact Or.inl ⟨rest.dropBlanks, hfirst, hstep.bytes_lt, rfl, .single hstep, .none _ _⟩
  · rw [Reader.view, hread]
    exact Or.inr ⟨hhead, rfl, .of_blame_none hplace.bytes_le hfits⟩

theorem passed_or_refused_var (hplace : text.IsPlace total)
    (hnext : ∀ run, s.next (.var run) = some s') :
    (∃ rest, (∃ c ∈ text.head?, isUpper c = true) ∧ rest.bytes < text.bytes ∧
      Passed total (s, text) (s', rest) [] (Rule.var.reader.view total text)) ∨
    (∀ c ∈ text.head?, isUpper c = false) ∧
      Refused total text [.var] (Rule.var.reader.view total text) :=
  passed_or_refused_run Rule.reader_var rfl (Rule.not_fits_var text) (fun _ => rfl)
    (fun _ => rfl) (fun _ => rfl) hplace hnext

theorem passed_or_refused_numeral (hplace : text.IsPlace total)
    (hnext : ∀ run, s.next (.numeral run) = some s') :
    (∃ rest, (∃ c ∈ text.head?, isDigit c = true) ∧ rest.bytes < text.bytes ∧
      Passed total (s, text) (s', rest) [] (Rule.numeral.reader.view total text)) ∨
    (∀ c ∈ text.head?, isDigit c = false) ∧
      Refused total text [.numeral] (Rule.numeral.reader.view total text) :=
  passed_or_refused_run Rule.reader_numeral rfl (Rule.not_fits_numeral text) (fun _ => rfl)
    (fun _ => rfl) (fun _ => rfl) hplace hnext

/-- Whether a text begins as an atom does. -/
def Text.OpensAtom (text : Text) : Prop := ∃ c ∈ text.head?, isLower c = true ∨ c = '\''

theorem Step.atom {a : Atom} {rest : Text} (hnext : ∀ a, s.next (s.atomToken a) = some s')
    (hwf : a.wellFormed = true) (hends : ∀ c ∈ rest.head?, a.goesOn c = false) :
    Step (s, a.text ++ rest) (s', rest.dropBlanks) := by
  have hends' : (s.atomToken a).EndsBefore rest := by rwa [Token.EndsBefore, s.goesOn_atomToken]
  have h := Step.take (hnext a) ((s.wellFormed_atomToken a).trans hwf) hends'
  rwa [s.text_atomToken] at h

theorem reads_quotedAtom (hplace : text.IsPlace total)
    (hnext : ∀ a, s.next (s.atomToken a) = some s') :
    (∃ rest, ['\''] <+: text ∧ Text.bytes rest < text.bytes ∧
      Passed total (s, text) (s', rest) [] (Rule.quotedAtom.reader.view total text)) ∨
    ['\''] <+: text ∧
      Stopped total text.bytes (s, text) (fun _ => False) (Rule.quotedAtom.reader.view total text) ∨
    (∀ letters rest : Text, letters.isRun isQuotable isQuotable = true →
      text ≠ '\'' :: (letters ++ '\'' :: rest)) ∧ ¬ text.IsBareQuote ∧
      Refused total text [.quotedAtom] (Rule.quotedAtom.reader.view total text) := by
  unfold Reader.view
  rcases Rule.quotedAtom_cases (total - text.bytes) text with
    ⟨letters, rest, htext, hrun, hread⟩ | ⟨rest, htext, hrest, hread⟩ | ⟨hnone, hbare, hread⟩
  · have hstep : Step (s, text) (s', rest.dropBlanks) := by
      have hquotation : (Atom.quoted letters).text ++ rest = text := by simp [Atom.text, htext]
      rw [← hquotation]
      exact .atom hnext hrun fun _ _ => rfl
    rw [hread]
    exact Or.inl ⟨rest.dropBlanks, ⟨_, htext.symm⟩, hstep.bytes_lt, rfl, .single hstep, .none _ _⟩
  · have hbytes : text.bytes = 1 + Text.bytes rest := by rw [htext]; rfl
    have hle := hplace.bytes_le
    have hinside : Reach total rest [.string] (some ⟨total - text.bytes + 1, [.string]⟩) := by
      refine ⟨?_, if_pos (by simp only; omega), ?_⟩
      · rintro _ ⟨⟩
        simp only
        omega
      · simpa [Rule.Fits] using hrest
    have hhalts : Halts (s, text) rest [.string] := by
      rw [htext]
      exact .inside (fun a => ⟨s', hnext a⟩) (by simp)
    rw [hread]
    refine Or.inr (Or.inl ⟨⟨rest, htext.symm⟩, (s, text), rest, [.string], .refl, hhalts, ?_,
      hinside, ?_⟩)
    · omega
    · simp [Outcome.view]
  · rw [hread]
    have hreach := Reach.of_blame_none hplace.bytes_le (Rule.not_fits_quotedAtom text)
    exact Or.inr (Or.inr ⟨hnone, hbare, rfl, hreach⟩)

theorem Rule.not_fits_atom (hlower : ∀ c ∈ text.head?, isLower c = false)
    (hquoted : ∀ letters rest : Text, letters.isRun isQuotable isQuotable = true →
      text ≠ '\'' :: (letters ++ '\'' :: rest)) (hbare : ¬ text.IsBareQuote) :
    ¬ Rule.atom.Fits text := by
  rw [Rule.fits_atom_iff]
  rintro (h | ⟨a, rest, hwf, htext⟩)
  · exact hbare h
  · cases a with
    | name letters =>
      cases letters with
      | nil => cases hwf
      | cons c tail =>
        have hc := hlower c (by rw [htext]; rfl)
        rw [(Bool.and_eq_true_iff.mp hwf).1] at hc
        cases hc
    | quoted letters => exact hquoted letters rest hwf (by simp [htext, Atom.text])

/-- An atom may also stop right after a quotation mark, where no text follows it. -/
theorem reads_atom (hplace : text.IsPlace total) (hnext : ∀ a, s.next (s.atomToken a) = some s') :
    Reads total (s, text) .atom Text.OpensAtom (Stage.EndsAt s' [])
      (fun _ => False) (Rule.atom.reader.view total text) := by
  have hopens : ['\''] <+: text → text.OpensAtom := by
    rintro ⟨rest, rfl⟩
    exact ⟨'\'', rfl, Or.inr rfl⟩
  rw [Rule.reader_atom]
  rcases passed_or_refused_run Rule.reader_smallAtom rfl (Rule.not_fits_smallAtom text)
    (s.text_atomToken <| .name ·) (s.wellFormed_atomToken <| .name ·)
    (s.goesOn_atomToken <| .name ·) hplace (hnext <| .name ·)
    with ⟨rest, ⟨c, hc, hlower⟩, hlt, h⟩ | ⟨hlower, hsmall⟩
  · have hpassed := h.orElse Rule.quotedAtom.reader
    exact .passed ⟨c, hc, Or.inl hlower⟩ ⟨rfl, rfl⟩ hlt (hpassed.conclude .atom)
  · rcases reads_quotedAtom hplace hnext with ⟨rest, hquote, hlt, h⟩ | ⟨hquote, h⟩ |
        ⟨hquoted, hbare, h⟩
    · have hpassed := hsmall.orElse_passed hlt h
      exact .passed (hopens hquote) ⟨rfl, rfl⟩ hlt (hpassed.conclude .atom)
    · have hstopped := hsmall.orElse_stopped h
      rw [hstopped.view_conclude .atom hplace.bytes_le]
      exact .stopped (hopens hquote) hstopped
    · have hrefused := hsmall.orElse h
      exact .refused (hrefused.conclude_of_two_le (by simp) hplace.bytes_le rfl
        (Rule.not_fits_atom hlower hquoted hbare))

end

end HornSyntax
