import HornSyntax.Proofs.Acceptance
import Mathlib

/-!
The place of an error and what is expected there. The text before the error
begins a text that is recognized, and the rules that the error lists are those
that can begin right after it. A longer part of the text begins a recognized
text only where it ends inside a token.
-/

namespace HornSyntax

open CharacterClass

/-- What begins right after the first part of a text that spells a program: the
end, a token, or the text of a quotation right after the mark that opens it. -/
inductive Begins : Rule → Text → Text → Prop
  | ending {p : Program} {before : Text} (hp : p.wellFormed = true) (h : Spelled p.tokens before) :
      Begins .endOfInput before []
  | token {p : Program} {ts us : List Token} {t : Token} {before after : Text}
      (hp : p.wellFormed = true) (h : p.tokens = ts ++ t :: us) (hbefore : Spelled ts before)
      (hafter : Spelled us after) : Begins t.rule before (t.text ++ after)
  | quotation {p : Program} {ts us : List Token} {t : Token} {letters before after : Text}
      (hp : p.wellFormed = true) (h : p.tokens = ts ++ t :: us)
      (ht : t.text = '\'' :: letters ++ ['\'']) (hbefore : Spelled ts before)
      (hafter : Spelled us after) :
      Begins .string (before ++ ['\'']) (letters ++ '\'' :: after)

/-- A part of a text that ends inside a token. -/
def Unfinished (text : Text) : Prop :=
  text = [':'] ∨ text = ['?'] ∨
    ∃ letters : Text, text = '\'' :: letters ∧ letters.all isQuotable = true

theorem Begins.recognize {r : Rule} {before rest : Text} (h : Begins r before rest) :
    HornSyntax.recognize (before ++ rest) = .ok () := by
  cases h with
  | @ending p _ hp h =>
    rw [List.append_nil]
    exact Program.recognize_of_spelled hp h
  | @token p ts us t _ after hp h hbefore hafter =>
    refine Program.recognize_of_spelled hp ?_
    rw [h]
    exact hbefore.append (hafter.text_append t)
  | @quotation p ts us t letters before after hp h ht hbefore hafter =>
    refine Program.recognize_of_spelled hp ?_
    have hspelled := hbefore.append (hafter.text_append t)
    rw [ht] at hspelled
    rw [h]
    simpa using hspelled

section

variable {ts us : List Token} {used : Text} {s s' : Stage}

/-- Tokens do not end right after a mark that opens a quotation. -/
theorem not_spelled_quote (hts : Spelled ts used) (hwf : ∀ t ∈ ts, t.wellFormed = true)
    (hrun : Stage.start.run ts = some s) (hs : s.TakesAtom) (hus : Spelled us (used ++ ['\'']))
    (hwf' : ∀ t ∈ us, t.wellFormed = true) : Stage.start.run us ≠ some s' := by
  intro hrun'
  have hends : ∀ t ∈ ts.getLast?, t.EndsBefore ['\''] := by
    rintro t - _ ⟨⟩
    exact Bool.eq_false_iff.mpr fun hgo => absurd (Token.isAlnum_of_goesOn hgo) (by decide)
  have hwalk : Walk (.start, (used ++ ['\'']).dropBlanks) (s, ['\'']) :=
    Walk.of_spelled_append hts hrun hwf hends
  have hend := Walk.of_spelled hus hrun' hwf'
  have hhalts : Halts (s, ['\'']) [] [.string] := .inside hs (by simp)
  rcases hwalk.total hend with h | h
  · rcases Relation.ReflTransGen.cases_head h with heq | ⟨d, hstep, -⟩
    · cases heq
    · exact hhalts.not_step (by simp [Rule.Fits]) hstep
  · cases h.eq_of_text_nil rfl

theorem takesAtom_of_next {t : Token} {letters : Text} (ht : t.text = '\'' :: letters ++ ['\''])
    (hwf : t.wellFormed = true) (hnext : s.next t = some s') : s.TakesAtom := by
  have htail : t.text ++ [] = '\'' :: (letters ++ ['\'']) := by simp [ht]
  obtain ⟨_, rfl | rfl, -, -⟩ := Token.exists_quotation hwf htail
  · intro a
    rw [Stage.atomToken_eq_name hnext]
    rcases s with _ | _ | ⟨⟨⟩⟩ | _ | ⟨_, _, ⟨⟩⟩ | _ <;> first | exact ⟨_, rfl⟩ | cases hnext
  · intro a
    rw [Stage.atomToken_eq_symbol hnext]
    rcases s with _ | _ | ⟨⟨⟩⟩ | _ | ⟨_, _, ⟨⟩⟩ | _ <;> first | exact ⟨_, rfl⟩ | cases hnext

/-- The stage in which a token of a program stands. -/
theorem exists_next_of_tokens {p : Program} {t : Token} (hp : p.wellFormed = true)
    (h : p.tokens = ts ++ t :: us) :
    ∃ s, Stage.start.run ts = some s ∧ ∃ s', s.next t = some s' := by
  have hrun := Stage.run_program hp
  rw [h] at hrun
  obtain ⟨s, hts, hus⟩ := Stage.run_append_eq_some_iff.mp hrun
  obtain ⟨s', hnext, -⟩ := Option.bind_eq_some_iff.mp hus
  exact ⟨s, hts, s', hnext⟩

end

theorem Text.isRun_of_append {first more : Char → Bool} {left right : Text}
    (h : (left ++ right).isRun first more = true) (hne : left ≠ []) :
    left.isRun first more = true := by
  cases left with
  | nil => exact absurd rfl hne
  | cons c rest =>
    obtain ⟨hc, hall⟩ := Bool.and_eq_true_iff.mp h
    have hrest : rest.all more = true := by
      rw [List.append_eq, List.all_append, Bool.and_eq_true] at hall
      exact hall.1
    exact Bool.and_eq_true_iff.mpr ⟨hc, hrest⟩

/-- The beginning of a quotation is its opening and a part of its text. -/
theorem unfinished_of_quotation {letters taken tail : Text}
    (hrun : letters.isRun isQuotable isQuotable = true)
    (h : '\'' :: letters ++ ['\''] = taken ++ tail) (hne : taken ≠ []) (htail : tail ≠ []) :
    Unfinished taken := by
  cases taken with
  | nil => exact absurd rfl hne
  | cons c begun =>
    obtain ⟨init, last, rfl⟩ := List.eq_nil_or_concat tail |>.resolve_left htail
    obtain ⟨rfl, hletters⟩ := List.cons.inj h
    rw [List.append_eq, List.append_eq, List.concat_eq_append, ← List.append_assoc] at hletters
    obtain ⟨rfl, -⟩ := List.append_inj' hletters rfl
    have hall := Rule.isRun_all hrun
    rw [List.all_append, Bool.and_eq_true] at hall
    exact Or.inr (Or.inr ⟨begun, rfl, hall.1⟩)

/-- A part of a token is of the same class, unless it is a part of a quotation or of a long mark. -/
theorem unfinished_or_exists_token {t : Token} {taken tail : Text} (hwf : t.wellFormed = true)
    (h : t.text = taken ++ tail) (hne : taken ≠ []) :
    Unfinished taken ∨ ∃ u : Token, u.wellFormed = true ∧ u.rule = t.rule ∧ u.text = taken := by
  by_cases htail : tail = []
  · exact Or.inr ⟨t, hwf, rfl, by rw [h, htail, List.append_nil]⟩
  have hsingle : ∀ x : Char, [x] ≠ taken ++ tail := by
    intro x heq
    cases taken with
    | nil => exact hne rfl
    | cons c begun => exact htail (List.append_eq_nil_iff.mp (List.cons.inj heq).2.symm).2
  have hdouble : ∀ x y : Char, [x, y] = taken ++ tail → taken = [x] := by
    intro x y heq
    cases taken with
    | nil => exact absurd rfl hne
    | cons c begun =>
      obtain ⟨rfl, hmore⟩ := List.cons.inj heq
      cases begun with
      | nil => rfl
      | cons d more => exact absurd (List.append_eq_nil_iff.mp (List.cons.inj hmore).2.symm).2 htail
  cases t with
  | name a =>
    cases a with
    | name letters =>
      obtain rfl : letters = taken ++ tail := h
      exact Or.inr ⟨.name (.name taken), Text.isRun_of_append hwf hne, rfl, rfl⟩
    | quoted letters => exact Or.inl (unfinished_of_quotation hwf h hne htail)
  | symbol a =>
    cases a with
    | name letters =>
      obtain rfl : letters = taken ++ tail := h
      exact Or.inr ⟨.symbol (.name taken), Text.isRun_of_append hwf hne, rfl, rfl⟩
    | quoted letters => exact Or.inl (unfinished_of_quotation hwf h hne htail)
  | var letters =>
    obtain rfl : letters = taken ++ tail := h
    exact Or.inr ⟨.var taken, Text.isRun_of_append hwf hne, rfl, rfl⟩
  | numeral digits =>
    obtain rfl : digits = taken ++ tail := h
    exact Or.inr ⟨.numeral taken, Text.isRun_of_append hwf hne, rfl, rfl⟩
  | neck => exact Or.inl (Or.inl (hdouble ':' '-' h))
  | queryStart => exact Or.inl (Or.inr (Or.inl (hdouble '?' '-' h)))
  | dot => exact absurd h (hsingle '.')
  | comma => exact absurd h (hsingle ',')
  | lparen => exact absurd h (hsingle '(')
  | rparen => exact absurd h (hsingle ')')

section

variable {s : Stage} {taken more : Text} {d : Stage × Text}

/-- Where a step begins alike but no token fits, the common part is only a part of a token. -/
theorem unfinished_of_step {beyond : Text} (h : Step (s, taken ++ more) d) (hne : taken ≠ [])
    (hunfit : ∀ r ∈ s.expected, ¬ r.Fits (taken ++ beyond)) : Unfinished taken := by
  generalize hrest : taken ++ more = rest at h
  cases h with
  | @take _ s' t rest' hnext hwf hends =>
    have hrule := hunfit t.rule (Stage.rule_mem_expected hnext)
    rcases List.append_eq_append_iff.mp hrest with ⟨tail, htail, -⟩ | ⟨tail, rfl, -⟩
    · rcases unfinished_or_exists_token hwf htail hne with hunfinished | ⟨u, hu, hsame, rfl⟩
      · exact hunfinished
      · exact absurd (hsame ▸ u.fits_rule hu beyond) hrule
    · exact absurd (by simpa using t.fits_rule hwf (tail ++ beyond)) hrule

theorem exists_quotable_of_step (h : Step (s, ['\''] ++ (taken ++ more)) d) (hne : taken ≠ []) :
    ∃ y ∈ taken.head?, isQuotable y = true := by
  generalize hrest : ['\''] ++ (taken ++ more) = rest at h
  cases h with
  | @take _ s' t rest' hnext hwf hends =>
    obtain ⟨letters, -, hletters, hrun⟩ := Token.exists_quotation hwf hrest.symm
    cases letters with
    | nil => cases hrun
    | cons x letters =>
      cases taken with
      | nil => exact absurd rfl hne
      | cons y taken =>
        rw [hletters] at hrest
        obtain rfl : y = x := (List.cons.inj (List.cons.inj hrest).2).1
        exact ⟨y, rfl, (Bool.and_eq_true_iff.mp hrun).1⟩

end

namespace SyntaxError.At

variable {e : SyntaxError} {text : Text} {c : Stage × Text}

/-- The tokens before an error, up to the opening of a quotation that is not over. -/
theorem exists_before (h : e.At text c) : ∃ ts used, Spelled ts used ∧
    (∀ t ∈ ts, t.wellFormed = true) ∧ Stage.start.run ts = some c.1 ∧
      (e.before = used ∧ (∀ r, r ∈ e.expected ↔ r ∈ c.1.expected) ∨
        e.before = used ++ ['\''] ∧ c.1.TakesAtom ∧ ∀ r, r ∈ e.expected ↔ r = .string) := by
  obtain ⟨used, ts, hused, hspelled, hwf, hrun, -⟩ := h.walk.exists_spelled
  obtain ⟨gap, hgap, htext⟩ := Text.exists_blanks_append_dropBlanks text
  have hused' : text.dropBlanks = used ++ c.2 := hused
  rw [hused', h.text_eq, ← List.append_assoc] at htext
  refine ⟨ts, gap ++ used, hspelled.blanks_append hgap, hwf, hrun, ?_⟩
  have hhalts := h.halts
  obtain ⟨s, place⟩ := c
  cases hhalts with
  | outside hrules => exact Or.inl ⟨List.append_cancel_right htext, hrules⟩
  | inside hs hrules =>
    have hsame : e.before ++ e.after = (gap ++ used ++ ['\'']) ++ e.after := by simpa using htext
    exact Or.inr ⟨List.append_cancel_right hsame, hs, hrules⟩

/-- What an error lists can begin there. -/
theorem exists_begins (h : e.At text c) {r : Rule} (hr : r ∈ e.expected) :
    ∃ rest, Begins r e.before rest := by
  obtain ⟨ts, used, hspelled, hwf, hrun, hbefore⟩ := h.exists_before
  rcases hbefore with ⟨hused, hrules⟩ | ⟨hused, hs, hrules⟩
  · by_cases hend : r = .endOfInput
    · subst hend
      have hfinished := Stage.endOfInput_mem_expected.mp ((hrules _).mp hr)
      rw [hfinished] at hrun
      obtain ⟨p, hp, hp'⟩ :=
        Program.exists_spelled_of_recognize (recognize_of_spelled hspelled hrun hwf)
      exact ⟨[], hused ▸ .ending hp hp'⟩
    · obtain ⟨t, s', ht, rfl, hnext⟩ := Stage.exists_next ((hrules r).mp hr) hend
      obtain ⟨p, us, after, hp, htokens, hafter⟩ :=
        Program.exists_completion hspelled hwf hrun ht hnext
      exact ⟨t.text ++ after, hused ▸ .token hp htokens hspelled hafter⟩
  · obtain rfl := (hrules r).mp hr
    obtain ⟨s', hnext⟩ := hs (.quoted ['a'])
    have ht : (c.1.atomToken (.quoted ['a'])).wellFormed = true := by
      rw [Stage.wellFormed_atomToken]
      decide
    obtain ⟨p, us, after, hp, htokens, hafter⟩ :=
      Program.exists_completion hspelled hwf hrun ht hnext
    have htext := Stage.text_atomToken c.1 (.quoted ['a'])
    exact ⟨['a'] ++ '\'' :: after, hused ▸ .quotation hp htokens htext hspelled hafter⟩

/-- What can begin at an error is listed there. -/
theorem mem_expected_of_begins (h : e.At text c) {r : Rule} {rest : Text}
    (hbegins : Begins r e.before rest) : r ∈ e.expected := by
  obtain ⟨ts, used, hspelled, hwf, hrun, hbefore⟩ := h.exists_before
  generalize hplace : e.before = before at hbegins hbefore
  cases hbegins with
  | @ending p _ hp h =>
    have hall := Program.wellFormed_of_mem_tokens hp
    have hrun' := Stage.run_program hp
    rcases hbefore with ⟨rfl, hrules⟩ | ⟨rfl, hs, -⟩
    · rw [← h.unique hspelled hrun' hrun hall hwf, hrun'] at hrun
      exact (hrules _).mpr (Stage.endOfInput_mem_expected.mpr (Option.some.inj hrun).symm)
    · exact absurd hrun' (not_spelled_quote hspelled hwf hrun hs h hall)
  | @token p ts' us t _ after hp h hbefore' hafter =>
    obtain ⟨s, hrun', s', hnext⟩ := exists_next_of_tokens hp h
    have hall : ∀ u ∈ ts', u.wellFormed = true := fun u hu =>
      Program.wellFormed_of_mem_tokens hp u (h ▸ List.mem_append_left _ hu)
    rcases hbefore with ⟨rfl, hrules⟩ | ⟨rfl, hs, -⟩
    · rw [← hbefore'.unique hspelled hrun' hrun hall hwf, hrun'] at hrun
      exact (hrules _).mpr (Option.some.inj hrun ▸ Stage.rule_mem_expected hnext)
    · exact absurd hrun' (not_spelled_quote hspelled hwf hrun hs hbefore' hall)
  | @quotation p ts' us t letters before' after hp h ht hbefore' hafter =>
    obtain ⟨s, hrun', s', hnext⟩ := exists_next_of_tokens hp h
    have hall : ∀ u ∈ ts', u.wellFormed = true := fun u hu =>
      Program.wellFormed_of_mem_tokens hp u (h ▸ List.mem_append_left _ hu)
    have hmem : t.wellFormed = true :=
      Program.wellFormed_of_mem_tokens hp t (h ▸ List.mem_append_right _ List.mem_cons_self)
    rcases hbefore with ⟨hused, -⟩ | ⟨-, -, hrules⟩
    · rw [← hused] at hspelled
      exact absurd hrun (not_spelled_quote hbefore' hall hrun' (takesAtom_of_next ht hmem hnext)
        hspelled hwf)
    · exact (hrules _).mpr rfl

theorem mem_expected_iff (h : e.At text c) (r : Rule) :
    r ∈ e.expected ↔ ∃ rest, Begins r e.before rest := by
  constructor
  · exact h.exists_begins
  · intro hbegins
    obtain ⟨rest, hbegins⟩ := hbegins
    exact h.mem_expected_of_begins hbegins

/-- What is walked over before an error is walked over whatever follows in its
place, as long as it begins alike. -/
theorem walk_append (h : e.At text c) {after : Text}
    (hafter : ∀ x ∈ after.head?, x ∈ e.after.head?) :
    ∃ opening, c.2 = opening ++ e.after ∧
      Walk (.start, (e.before ++ after).dropBlanks) (c.1, opening ++ after) := by
  obtain ⟨used, ts, hused, -, -, -, hkeep⟩ := h.walk.exists_spelled
  obtain ⟨gap, hgap, htext⟩ := Text.exists_blanks_append_dropBlanks text
  obtain ⟨opening, hopening⟩ := h.halts.exists_before
  have hused' : text.dropBlanks = used ++ c.2 := hused
  have hbefore : e.before = gap ++ (used ++ opening) := by
    rw [hused', hopening, h.text_eq] at htext
    have hsame : e.before ++ e.after = gap ++ (used ++ opening) ++ e.after := by simpa using htext
    exact List.append_cancel_right hsame
  have hhead : ∀ x ∈ (opening ++ after).head?, x ∈ c.2.head? := by
    intro x hx
    rw [hopening]
    cases opening with
    | nil => exact hafter x hx
    | cons d more => exact hx
  have hblank : (opening ++ after).dropBlanks = opening ++ after := by
    refine Text.dropBlanks_eq_self fun x hx => ?_
    refine Text.isBlank_of_mem_head?_dropBlanks x (?_ : x ∈ c.2.dropBlanks.head?)
    rw [h.walk.dropBlanks_eq (Text.dropBlanks_dropBlanks text)]
    exact hhead x hx
  have hwalk := hkeep (opening ++ after) hblank hhead
  have hfront : (e.before ++ after).dropBlanks = used ++ (opening ++ after) := by
    rw [hbefore, List.append_assoc, List.append_assoc, Text.dropBlanks_append hgap]
    refine Text.dropBlanks_eq_self fun x hx => ?_
    refine Text.isBlank_of_mem_head?_dropBlanks x (?_ : x ∈ text.dropBlanks.head?)
    rw [hused']
    cases used with
    | nil => exact hhead x hx
    | cons d more => exact hx
  exact ⟨opening, hopening, hfront ▸ hwalk⟩

/-- A text that is recognized and goes on as the text with the error does takes
a token at the error. -/
theorem exists_step (h : e.At text c) {taken more : Text} (hne : taken ≠ [])
    (hhead : ∀ x ∈ taken.head?, x ∈ e.after.head?)
    (hok : recognize (e.before ++ (taken ++ more)) = .ok ()) :
    ∃ opening d, c.2 = opening ++ e.after ∧ Step (c.1, opening ++ (taken ++ more)) d := by
  have hhead' : ∀ x ∈ (taken ++ more).head?, x ∈ e.after.head? := by
    intro x hx
    rw [List.head?_append_of_ne_nil _ hne] at hx
    exact hhead x hx
  obtain ⟨opening, hopening, hwalk⟩ := h.walk_append hhead'
  rcases hwalk.total (recognize_eq_ok_iff.mp hok) with hw | hw
  · rcases Relation.ReflTransGen.cases_head hw with heq | ⟨d, hstep, -⟩
    · exact absurd (congrArg Prod.snd heq) (by simp [hne])
    · exact ⟨opening, d, hopening, hstep⟩
  · exact absurd (congrArg Prod.snd (hw.eq_of_text_nil rfl)) (by simp [hne])

/-- Past an error a recognized text goes on only inside a token. -/
theorem unfinished (h : e.At text c) {upto beyond more : Text} (htext : text = upto ++ beyond)
    (hlt : e.before.bytes < upto.bytes) (hok : recognize (upto ++ more) = .ok ()) :
    ∃ taken, upto = e.before ++ taken ∧ Unfinished taken := by
  obtain ⟨taken, hupto, hafter⟩ :
      ∃ taken, upto = e.before ++ taken ∧ e.after = taken ++ beyond := by
    rcases List.append_eq_append_iff.mp (h.text_eq.symm.trans htext) with
      ⟨taken, hupto, hafter⟩ | ⟨tail, hbefore, -⟩
    · exact ⟨taken, hupto, hafter⟩
    · rw [hbefore, Text.bytes_append] at hlt
      omega
  have hne : taken ≠ [] := by
    rintro rfl
    rw [hupto, List.append_nil] at hlt
    omega
  have hhead : ∀ x ∈ taken.head?, x ∈ e.after.head? := by
    intro x hx
    rwa [hafter, List.head?_append_of_ne_nil _ hne]
  rw [hupto, List.append_assoc] at hok
  obtain ⟨opening, d, hopening, hstep⟩ := h.exists_step hne hhead hok
  refine ⟨taken, hupto, ?_⟩
  have hhalts := h.halts
  have hunfit := h.unfit
  obtain ⟨s, place⟩ := c
  cases hhalts with
  | outside hrules =>
    obtain rfl : opening = [] := List.self_eq_append_left.mp hopening
    rw [List.nil_append] at hstep
    apply unfinished_of_step hstep hne
    intro r hr
    rw [← hafter]
    exact hunfit r ((hrules r).mpr hr)
  | inside hs hrules =>
    have hsame : ['\''] ++ e.after = opening ++ e.after := hopening
    obtain rfl := List.append_cancel_right hsame
    obtain ⟨y, hy, hquotable⟩ := exists_quotable_of_step hstep hne
    exact absurd ⟨y, hhead y hy, hquotable⟩ (hunfit .string ((hrules .string).mpr rfl))

end SyntaxError.At

/-- The rules that an error may list. -/
def Rule.listable : List Rule :=
  [.neck, .queryStart, .dot, .comma, .lparen, .rparen, .endOfInput, .string, .atom, .term]

theorem Begins.mem_listable {r : Rule} {before rest : Text} (h : Begins r before rest) :
    r ∈ Rule.listable := by
  cases h with
  | ending => decide
  | @token _ _ _ t => cases t <;> simp [Rule.listable, Token.rule]
  | quotation => decide

theorem Rule.eq_of_wording {r r' : Rule} (h : r ∈ listable) (h' : r' ∈ listable)
    (heq : r.wording = r'.wording) : r = r' := by
  have hall : ∀ r ∈ listable, ∀ r' ∈ listable, r.wording = r'.wording → r = r' := by decide
  exact hall r h r' h' heq

variable {text : Text} {e : SyntaxError}

/-- The error of a text lies where the part that can be completed ends. The text
before it begins a recognized text in which a token, the text of a quotation or
the end comes next, and past it only an unfinished token can be completed. -/
theorem offset_of_recognize_error (h : recognize text = .error e) :
    text = e.before ++ e.after ∧
      (∃ r rest, recognize (e.before ++ rest) = .ok () ∧ Begins r e.before rest) ∧
      ∀ upto beyond more, text = upto ++ beyond → e.offset < upto.bytes →
        recognize (upto ++ more) = .ok () → ∃ taken, upto = e.before ++ taken ∧ Unfinished taken := by
  obtain ⟨c, hat⟩ := exists_at_of_recognize h
  refine ⟨hat.text_eq, ?_, fun upto beyond more => hat.unfinished⟩
  obtain ⟨r, hr⟩ := List.exists_mem_of_ne_nil _ hat.halts.ne_nil
  obtain ⟨rest, hbegins⟩ := (hat.mem_expected_iff r).mp hr
  exact ⟨r, rest, hbegins.recognize, hbegins⟩

/-- A quotation that is not closed is an error at its opening mark, and the mark
itself can still be completed to an argument. -/
theorem offset_of_unclosed_quotation :
    ∃ e, recognize "p(f(a, 'z".toList = .error e ∧ e.offset = 7 ∧
      (∃ r rest, recognize (e.before ++ rest) = .ok () ∧ Begins r e.before rest) ∧
      ∃ taken, "p(f(a, '".toList = e.before ++ taken ∧ Unfinished taken := by
  have herror : recognize "p(f(a, 'z".toList =
      .error ⟨"p(f(a, ".toList, "'z".toList, [.term]⟩ := by cbv
  have hok : recognize ("p(f(a, '".toList ++ "x')). ?- a.".toList) = .ok () := by cbv
  obtain ⟨-, hbegins, hpast⟩ := offset_of_recognize_error herror
  exact ⟨_, herror, rfl, hbegins, hpast "p(f(a, '".toList "z".toList _ rfl (by decide) hok⟩

/-- An error lists exactly what can begin at its place in a recognized text, and
names no two things alike. -/
theorem expected_of_recognize_error (h : recognize text = .error e) :
    text = e.before ++ e.after ∧
      (∀ r, r ∈ e.expected ↔ ∃ rest, recognize (e.before ++ rest) = .ok () ∧ Begins r e.before rest) ∧
      (∀ r ∈ e.expected, r ∈ Rule.listable) ∧ e.expected ≠ [] ∧
      (e.expected.map Rule.wording).Nodup := by
  obtain ⟨c, hat⟩ := exists_at_of_recognize h
  have hlistable : ∀ r ∈ e.expected, r ∈ Rule.listable := by
    intro r hr
    obtain ⟨rest, hbegins⟩ := (hat.mem_expected_iff r).mp hr
    exact hbegins.mem_listable
  refine ⟨hat.text_eq, fun r => ?_, hlistable, hat.halts.ne_nil, ?_⟩
  · rw [hat.mem_expected_iff]
    constructor
    · rintro ⟨rest, hbegins⟩
      exact ⟨rest, hbegins.recognize, hbegins⟩
    · rintro ⟨rest, -, hbegins⟩
      exact ⟨rest, hbegins⟩
  · refine List.pairwise_map.mpr (hat.nodup.imp_of_mem ?_)
    intro r r' hr hr' hne heq
    exact hne (Rule.eq_of_wording (hlistable r hr) (hlistable r' hr') heq)

/-- After an argument that is a compound term no bracket is expected. -/
theorem expected_after_compound :
    ∃ e, recognize "p(f(a) (".toList = .error e ∧ e.expected = [.comma, .rparen] ∧
      (∀ r, r ∈ e.expected ↔
        ∃ rest, recognize (e.before ++ rest) = .ok () ∧ Begins r e.before rest) ∧
      (e.expected.map Rule.wording).Nodup := by
  have herror : recognize "p(f(a) (".toList =
      .error ⟨"p(f(a) ".toList, "(".toList, [.comma, .rparen]⟩ := by cbv
  obtain ⟨-, hexact, -, -, hnodup⟩ := expected_of_recognize_error herror
  exact ⟨_, herror, rfl, hexact, hnodup⟩

end HornSyntax
