import HornSyntax.Proofs.Leading
import HornSyntax.Proofs.MessageLines
import HornSyntax.Proofs.Position
import Mathlib.Data.List.Induction

/-!
A text whose lines end with a carriage return and a line feed instead of a line
feed alone. Carriage returns come only where a blank was already, so the same
tokens are walked over, and what cannot go on cannot go on here either. They come
right before line feeds, so that lines and columns stay as they are, and a message
quotes its line without them, unless the error is at a line break itself.
-/

namespace HornSyntax

open CharacterClass

namespace Text

variable {text : Text} {c : Char} {p : Char → Bool}

/-- The text with a carriage return before every line feed. -/
def crlf (text : Text) : Text := text.flatMap fun c => if c = '\n' then ['\r', '\n'] else [c]

@[simp] theorem crlf_nil : crlf [] = [] := rfl

@[simp] theorem crlf_cons_feed (rest : Text) : crlf ('\n' :: rest) = '\r' :: '\n' :: rest.crlf :=
  rfl

theorem crlf_cons (h : c ≠ '\n') (rest : Text) : crlf (c :: rest) = c :: rest.crlf := by
  rw [crlf, List.flatMap_cons, if_neg h]
  rfl

@[simp] theorem crlf_append (left right : Text) : crlf (left ++ right) = left.crlf ++ right.crlf :=
  List.flatMap_append

theorem crlf_of_notMem (h : '\n' ∉ text) : text.crlf = text := by
  induction text with
  | nil => rfl
  | cons c rest ih =>
    obtain ⟨hc, hrest⟩ := List.ne_and_not_mem_of_not_mem_cons h
    rw [crlf_cons hc.symm, ih hrest]

/-- Induction over a text that tells its line feeds from its other characters. -/
theorem feed_induction {motive : Text → Prop} (nil : motive [])
    (feed : ∀ rest, motive rest → motive ('\n' :: rest))
    (other : ∀ c rest, c ≠ '\n' → motive rest → motive (c :: rest)) (text : Text) :
    motive text := by
  induction text with
  | nil => exact nil
  | cons c rest ih =>
    by_cases hc : c = '\n'
    · subst hc
      exact feed rest ih
    · exact other c rest hc ih

theorem bytes_crlf (text : Text) : text.crlf.bytes = text.bytes + text.count '\n' := by
  induction text using feed_induction with
  | nil => rfl
  | feed rest ih =>
    have hsize : '\r'.utf8Size = 1 := by decide
    rw [crlf_cons_feed, bytes_cons, bytes_cons, bytes_cons, ih, List.count_cons_self, hsize]
    omega
  | other c rest hc ih =>
    rw [crlf_cons hc, bytes_cons, bytes_cons, ih, List.count_cons_of_ne hc]
    omega

/-- Whatever does not look at carriage returns does not see the line ends. -/
theorem filter_crlf (hp : p '\r' = false) (text : Text) : text.crlf.filter p = text.filter p := by
  induction text using feed_induction with
  | nil => rfl
  | feed rest ih =>
    rw [crlf_cons_feed, List.filter_cons_of_neg (by simp [hp]), List.filter_cons, ih,
      List.filter_cons]
  | other c rest hc ih => rw [crlf_cons hc, List.filter_cons, ih, List.filter_cons]

theorem count_crlf (hc : c ≠ '\r') (text : Text) : text.crlf.count c = text.count c := by
  have hp : ('\r' == c) = false := by simpa using hc.symm
  rw [List.count_eq_length_filter, filter_crlf hp, ← List.count_eq_length_filter]

theorem mem_crlf (hc : c ≠ '\r') : c ∈ text.crlf ↔ c ∈ text := by
  rw [← List.count_pos_iff, count_crlf hc, List.count_pos_iff]

theorem all_crlf (hp : p '\r' = p '\n') (text : Text) : text.crlf.all p = text.all p := by
  induction text using feed_induction with
  | nil => rfl
  | feed rest ih =>
    rw [crlf_cons_feed, List.all_cons, List.all_cons, ih, List.all_cons, hp, Bool.and_self_left]
  | other c rest hc ih => rw [crlf_cons hc, List.all_cons, ih, List.all_cons]

theorem crlf_eq_nil_iff : text.crlf = [] ↔ text = [] := by
  induction text using feed_induction with
  | nil => simp
  | feed rest => simp
  | other c rest hc => simp [crlf_cons hc]

/-- What holds of the first character holds of it with the other line ends. -/
theorem forall_mem_head?_crlf (hp : p '\r' = p '\n') {b : Bool} :
    (∀ c ∈ text.crlf.head?, p c = b) ↔ ∀ c ∈ text.head?, p c = b := by
  induction text using feed_induction with
  | nil => simp
  | feed rest => simp [hp]
  | other c rest hc => simp [crlf_cons hc]

/-- What begins a text with the other line ends without a break begins the text itself. -/
theorem exists_of_crlf_eq_append {front rest : Text}
    (hfront : ∀ c ∈ front, SyntaxError.isBreak c = false) (h : text.crlf = front ++ rest) :
    ∃ more, text = front ++ more ∧ rest = more.crlf := by
  induction front generalizing text with
  | nil => exact ⟨text, rfl, h.symm⟩
  | cons c front ih =>
    obtain ⟨hc, hmore⟩ := List.forall_mem_cons.mp hfront
    cases text with
    | nil => cases h
    | cons d text =>
      by_cases hd : d = '\n'
      · subst hd
        obtain ⟨rfl, -⟩ := List.cons.inj h
        cases hc
      · rw [crlf_cons hd] at h
        obtain ⟨rfl, hrest⟩ := List.cons.inj h
        obtain ⟨more, rfl, hmore⟩ := ih hmore hrest
        exact ⟨more, rfl, hmore⟩

theorem dropBlanks_crlf (text : Text) : text.crlf.dropBlanks = text.dropBlanks.crlf := by
  induction text using feed_induction with
  | nil => rfl
  | feed rest ih => exact ih
  | other c rest hc ih =>
    unfold dropBlanks at ih ⊢
    rw [crlf_cons hc, List.dropWhile_cons, List.dropWhile_cons, ih]
    split
    · rfl
    · rw [crlf_cons hc]

theorem lastLine_crlf (text : Text) : text.crlf.lastLine = text.lastLine := by
  induction text using List.reverseRecOn with
  | nil => rfl
  | append_singleton front c ih =>
    rw [crlf_append]
    by_cases hc : c = '\n'
    · subst hc
      rw [lastLine_append_of_mem (by simp), lastLine_append_of_mem (by simp)]
      rfl
    · have hnot : '\n' ∉ [c] := by simpa using Ne.symm hc
      rw [crlf_of_notMem hnot, lastLine_append_of_notMem hnot, lastLine_append_of_notMem hnot, ih]

theorem firstLine_crlf (text : Text) : text.crlf.firstLine = text.firstLine.crlf := by
  induction text using feed_induction with
  | nil => rfl
  | feed rest => rfl
  | other c rest hc ih =>
    rw [crlf_cons hc, firstLine, firstLine, if_neg hc, if_neg hc, crlf_cons hc, ih]

end Text

theorem CharacterClass.isBreak_eq_false_of_isQuotable {c : Char} (h : isQuotable c = true) :
    SyntaxError.isBreak c = false := by
  apply Bool.eq_false_iff.mpr
  intro hbreak
  simp only [SyntaxError.isBreak, Bool.or_eq_true, beq_iff_eq] at hbreak
  rcases hbreak with rfl | rfl
  · exact absurd h (by decide)
  · exact absurd h (by decide)

/-- No token holds a line break. -/
theorem Token.isBreak_eq_false_of_mem_text {t : Token} (hwf : t.wellFormed = true) :
    ∀ c ∈ t.text, SyntaxError.isBreak c = false := by
  rcases t.text_cases hwf with hword | ⟨letters, hquotation, hrun⟩ | hmark
  · intro c hc
    exact isBreak_eq_false_of_isQuotable (by simp [isQuotable, hword c hc])
  · have hall := List.all_eq_true.mp (Rule.isRun_all hrun)
    intro c hc
    simp only [hquotation, List.cons_append, List.mem_cons, List.mem_append, List.not_mem_nil,
      or_false] at hc
    rcases hc with rfl | hmem | rfl
    · decide
    · exact isBreak_eq_false_of_isQuotable (hall c hmem)
    · decide
  · cases t with
    | name a | symbol a | var letters | numeral digits => cases hmark
    | _ => simp [text, SyntaxError.isBreak]

theorem Token.feed_notMem_text {t : Token} (hwf : t.wellFormed = true) : '\n' ∉ t.text := by
  intro hmem
  have hbreak := t.isBreak_eq_false_of_mem_text hwf '\n' hmem
  cases hbreak

theorem Token.crlf_text_append {t : Token} (hwf : t.wellFormed = true) (rest : Text) :
    (t.text ++ rest).crlf = t.text ++ rest.crlf := by
  rw [Text.crlf_append, Text.crlf_of_notMem (t.feed_notMem_text hwf)]

theorem Token.EndsBefore.crlf {t : Token} {rest : Text} (h : t.EndsBefore rest) :
    t.EndsBefore rest.crlf := by
  have hbreak : ∀ c, isBlank c = true → t.goesOn c = false := by
    intro c hc
    apply Bool.eq_false_iff.mpr
    intro hgo
    have halnum := isAlnum_eq_false_of_isBlank hc
    rw [Token.isAlnum_of_goesOn hgo] at halnum
    cases halnum
  have hsame : t.goesOn '\r' = t.goesOn '\n' :=
    (hbreak '\r' (by decide)).trans (hbreak '\n' (by decide)).symm
  exact (Text.forall_mem_head?_crlf hsame).mpr h

/-- The same tokens are taken with the other line ends. -/
theorem Step.crlf {c c' : Stage × Text} (h : Step c c') :
    Step (c.1, c.2.crlf) (c'.1, c'.2.crlf) := by
  cases h with
  | @take s s' t rest hnext hwf hends =>
    show Step (s, (t.text ++ rest).crlf) (s', rest.dropBlanks.crlf)
    rw [Token.crlf_text_append hwf, ← Text.dropBlanks_crlf]
    exact .take hnext hwf hends.crlf

theorem Walk.crlf {c c' : Stage × Text} (h : Walk c c') :
    Walk (c.1, c.2.crlf) (c'.1, c'.2.crlf) :=
  h.lift (fun c => (c.1, c.2.crlf)) fun _ _ => Step.crlf

theorem Halts.crlf {c : Stage × Text} {place : Text} {rules : List Rule} (h : Halts c place rules) :
    Halts (c.1, c.2.crlf) place.crlf rules := by
  cases h with
  | outside h => exact .outside h
  | inside hs h => exact .inside hs h

theorem Text.IsBareQuote.of_crlf {text : Text} (h : text.crlf.IsBareQuote) : text.IsBareQuote := by
  obtain ⟨rest, htext, hrest⟩ := h
  have hquote : ∀ c ∈ ['\''], SyntaxError.isBreak c = false := by simp [SyntaxError.isBreak]
  obtain ⟨more, hmore, rfl⟩ := Text.exists_of_crlf_eq_append hquote htext
  have hsame : isQuotable '\r' = isQuotable '\n' := rfl
  exact ⟨more, hmore, (Text.forall_mem_head?_crlf hsame).mp hrest⟩

/-- Nothing fits at a place with the other line ends that does not fit there anyway. -/
theorem Rule.Fits.of_crlf {r : Rule} {text : Text} (h : r.Fits text.crlf) : r.Fits text := by
  by_cases hend : r = .endOfInput
  · subst hend
    exact Text.crlf_eq_nil_iff.mp h
  · by_cases hstring : r = .string
    · subst hstring
      have hsame : isQuotable '\r' = isQuotable '\n' := rfl
      by_contra hnone
      have hall : ∀ c ∈ text.head?, isQuotable c = false := by simpa [Fits] using hnone
      obtain ⟨c, hc, hquotable⟩ := h
      rw [(Text.forall_mem_head?_crlf hsame).mpr hall c hc] at hquotable
      cases hquotable
    · rw [Rule.fits_iff hend hstring] at h ⊢
      rcases h with ⟨hr, hbare⟩ | ⟨t, rest, hwf, hr, htext⟩
      · exact Or.inl ⟨hr, hbare.of_crlf⟩
      · obtain ⟨more, hmore, -⟩ :=
          Text.exists_of_crlf_eq_append (t.isBreak_eq_false_of_mem_text hwf) htext
        exact Or.inr ⟨t, more, hwf, hr, hmore⟩

namespace SyntaxError

/-- The same error with the other line ends. -/
def crlf (e : SyntaxError) : SyntaxError := ⟨e.before.crlf, e.after.crlf, e.expected⟩

variable {e : SyntaxError} {text : Text} {c : Stage × Text}

theorem At.crlf (h : e.At text c) : e.crlf.At text.crlf (c.1, c.2.crlf) where
  text_eq := by
    rw [h.text_eq, Text.crlf_append]
    rfl
  walk := by
    rw [Text.dropBlanks_crlf]
    exact h.walk.crlf
  halts := h.halts.crlf
  unfit r hr hfits := h.unfit r hr hfits.of_crlf
  nodup := h.nodup

variable (e)

theorem offset_crlf : e.crlf.offset = e.offset + e.before.count '\n' := Text.bytes_crlf e.before

theorem line_crlf : e.crlf.line = e.line :=
  congrArg (· + 1) (Text.count_crlf (by decide) e.before)

theorem column_crlf : e.crlf.column = e.column :=
  congrArg (·.length + 1) (Text.lastLine_crlf e.before)

variable {e}

/-- Away from line breaks the line of an error is quoted without them. -/
theorem quotedLine_crlf (h : ∀ c ∈ e.after.head?, isBreak c = false) :
    e.crlf.quotedLine = e.quotedLine := by
  have hplace : e.after.head?.any isBreak = false := by
    cases hhead : e.after.head? with
    | none => rfl
    | some c => exact h c hhead
  have hplace' : e.crlf.after.head?.any isBreak = false := by
    have h' : ∀ c ∈ e.after.crlf.head?, isBreak c = false :=
      (Text.forall_mem_head?_crlf rfl).mpr h
    cases hhead : e.crlf.after.head? with
    | none => rfl
    | some c => exact h' c hhead
  have hkept : (!isBreak '\r') = false := rfl
  simp only [quotedLine, hplace, hplace', Bool.false_eq_true, if_false]
  rw [crlf, Text.lastLine_crlf, Text.firstLine_crlf, List.filter_append, List.filter_append,
    Text.filter_crlf hkept]

/-- Away from line breaks the whole message is the same. -/
theorem messageAt_crlf (h : ∀ c ∈ e.after.head?, isBreak c = false) (line : Nat) :
    e.crlf.messageAt line = e.messageAt line := by
  simp only [messageAt, messageLines, underline, quotedLine_crlf h, column_crlf]
  rfl

end SyntaxError

/-- A text is recognized with the other line ends as it is, and has the same error. -/
theorem recognize_crlf (text : Text) :
    recognize text.crlf = (recognize text).mapError SyntaxError.crlf := by
  rcases recognize_cases text with ⟨hok, hend⟩ | ⟨e, c, herror, hat⟩
  · have hwalk := hend.crlf
    rw [← Text.dropBlanks_crlf] at hwalk
    rw [hok]
    exact recognize_eq_ok_iff.mpr hwalk
  · have hordered := expected_eq_filter herror
    rw [herror]
    exact hat.crlf.recognize_eq hordered

namespace Text

variable {text left dots rest : Text} {offset : Nat}

/-- The byte that a byte of the text becomes with the other line ends. -/
def crlfOffset (text : Text) (offset : Nat) : Nat := offset + (text.upTo offset).count '\n'

theorem crlfOffset_bytes (before after : Text) :
    crlfOffset (before ++ after) before.bytes = before.crlf.bytes := by
  rw [crlfOffset, upTo_bytes, bytes_crlf]

theorem dropBytes?_crlf (h : dropBytes? offset text = some rest) :
    dropBytes? (text.crlfOffset offset) text.crlf = some rest.crlf := by
  obtain ⟨before, rfl, rfl⟩ := dropBytes?_eq_some_iff.mp h
  rw [crlfOffset_bytes, crlf_append]
  exact dropBytes?_eq_some_iff.mpr ⟨before.crlf, rfl, rfl⟩

theorem Cut.crlf (h : text.Cut left dots rest) : text.crlf.Cut left.crlf dots rest.crlf := by
  have hdots : '\n' ∉ dots := fun hmem => absurd (h.eq_of_mem_dots '\n' hmem) (by decide)
  constructor
  · rw [h.text_eq, crlf_append, crlf_append, crlf_of_notMem hdots]
  · rw [mem_crlf (by decide)]
    exact h.notMem_left
  · exact h.dots_ne_nil
  · exact h.eq_of_mem_dots
  · have hsame : ('\r' == '.') = ('\n' == '.') := rfl
    have hhead : ∀ c ∈ rest.head?, (c == '.') = false := by
      intro c hc
      simpa using h.ne_of_mem_head? c hc
    intro c hc
    simpa using (forall_mem_head?_crlf (p := (· == '.')) hsame).mpr hhead c hc

end Text

namespace FailedAttempt

variable {f : FailedAttempt} {text tail left dots rest : Text}

/-- The same failure in the text with the other line ends. -/
def crlf (text : Text) (f : FailedAttempt) : FailedAttempt :=
  ⟨text.crlfOffset f.start, f.error.crlf⟩

theorem Occurs.offset_crlf (h : f.Occurs text tail) :
    (f.crlf text).offset = text.crlfOffset f.offset := by
  obtain ⟨before, rfl, hstart⟩ := h.exists_before
  have hoffset : f.offset = Text.bytes (before ++ f.error.before) := by
    rw [Text.bytes_append, hstart]
    rfl
  rw [hoffset, ← List.append_assoc, Text.crlfOffset_bytes, Text.crlf_append, Text.bytes_append,
    offset, crlf, ← hstart, List.append_assoc, Text.crlfOffset_bytes]
  rfl

theorem Occurs.crlf (h : f.Occurs text tail) : (f.crlf text).Occurs text.crlf tail.crlf := by
  obtain ⟨rest, hrest, herror⟩ := h.recognize_eq
  constructor
  · refine ⟨rest.crlf, Text.dropBytes?_crlf hrest, ?_⟩
    rw [recognize_crlf, herror]
    rfl
  · rw [h.offset_crlf]
    exact Text.dropBytes?_crlf h.dropBytes?_eq

/-- The place behind the terminators after a failure. -/
theorem Occurs.crlfOffset_cut (h : f.Occurs text tail) (hcut : tail.Cut left dots rest) :
    text.crlfOffset (f.offset + Text.bytes (left ++ dots)) =
      (f.crlf text).offset + Text.bytes (left.crlf ++ dots) := by
  have hdots : '\n' ∉ dots := fun hmem => absurd (hcut.eq_of_mem_dots '\n' hmem) (by decide)
  obtain ⟨before, rfl, hbefore⟩ := Text.dropBytes?_eq_some_iff.mp h.dropBytes?_eq
  have hplace : f.offset + Text.bytes (left ++ dots) = Text.bytes (before ++ (left ++ dots)) := by
    rw [Text.bytes_append before, hbefore]
  have htext : before ++ tail = (before ++ (left ++ dots)) ++ rest := by
    rw [hcut.text_eq]
    simp only [List.append_assoc]
  rw [h.offset_crlf, ← hbefore, Text.crlfOffset_bytes, hbefore, hplace, htext,
    Text.crlfOffset_bytes, Text.crlf_append, Text.crlf_append, Text.crlf_of_notMem hdots,
    Text.bytes_append]

theorem lines_map_crlf (text : Text) (fs : List FailedAttempt) :
    lines (fs.map (crlf text)) = lines fs := by
  have hline : ∀ f : FailedAttempt, (f.crlf text).error.line = f.error.line :=
    fun f => f.error.line_crlf
  rw [lines, lines, List.map_map]
  exact congrArg List.sum (List.map_congr_left fun f _ => hline f)

end FailedAttempt

/-- With the other line ends the attempts fail at the same places. -/
theorem Attempts.crlf {text : Text} {start : Nat} {fs : List FailedAttempt}
    (h : Attempts text start fs) :
    Attempts text.crlf (text.crlfOffset start) (fs.map (FailedAttempt.crlf text)) := by
  have hwhite : ∀ rest : Text, rest.crlf.all isWhite = rest.all isWhite := Text.all_crlf rfl
  have hdot : ∀ {tail : Text}, '.' ∉ tail → '.' ∉ tail.crlf := by
    intro tail htail
    rwa [Text.mem_crlf (by decide)]
  induction h with
  | recognized hrest hok =>
    apply Attempts.recognized (Text.dropBytes?_crlf hrest)
    rw [recognize_crlf, hok]
    rfl
  | unterminated hoccurs htail => exact .unterminated hoccurs.crlf (hdot htail)
  | white hoccurs hcut hrest => exact .white hoccurs.crlf hcut.crlf ((hwhite _).trans hrest)
  | @resumed start e tail left dots rest fs hoccurs hcut hmore _ ih =>
    have hnext : text.crlfOffset (start + e.offset + Text.bytes (left ++ dots)) =
        text.crlfOffset start + e.crlf.offset + Text.bytes (left.crlf ++ dots) :=
      hoccurs.crlfOffset_cut hcut
    rw [hnext] at ih
    exact .resumed hoccurs.crlf hcut.crlf ((hwhite _).trans hmore) ih

/-- The line of the message of a diagnostic that says what was expected. -/
def Diagnostic.wording (d : Diagnostic) : Text := d.message.lastLine

/-- Other line ends change nothing in what is reported about a text but the offsets,
which grow by the line feeds before them, and the quoted line of an error that is at
a line break. -/
theorem check_crlf (text : Text) (fileIndex : Nat) :
    (check text.crlf fileIndex).valid = (check text fileIndex).valid ∧
      (check text.crlf fileIndex).diagnostics.length =
        (check text fileIndex).diagnostics.length ∧
      ∀ (k : Nat) (d d' : Diagnostic), (check text fileIndex).diagnostics[k]? = some d →
        (check text.crlf fileIndex).diagnostics[k]? = some d' →
          d'.index = d.index ∧ d'.line = d.line ∧ d'.column = d.column ∧
            d'.wording = d.wording ∧
            d'.offset = d.offset + (text.upTo d.offset).count '\n' ∧
            ∃ rest, Text.dropBytes? d.offset text = some rest ∧
              ((∀ c ∈ rest.head?, c ≠ '\n' ∧ c ≠ '\r') → d'.message = d.message) := by
  obtain ⟨fs, h⟩ := Attempts.exists_check text
  have hcrlf := h.crlf
  have hstart : text.crlfOffset 0 = 0 := Text.crlfOffset_bytes [] text
  rw [hstart] at hcrlf
  have hlength : (check text.crlf fileIndex).diagnostics.length =
      (check text fileIndex).diagnostics.length := by
    rw [hcrlf.diagnostics_check, h.diagnostics_check, FailedAttempt.length_diagnosticsFrom,
      FailedAttempt.length_diagnosticsFrom, List.length_map]
  refine ⟨?_, hlength, ?_⟩
  · exact FileReport.valid_eq_of_length hlength
  · intro k d d' hd hd'
    rw [h.diagnostics_check, FailedAttempt.getElem?_diagnosticsFrom] at hd
    rw [hcrlf.diagnostics_check, FailedAttempt.getElem?_diagnosticsFrom, List.getElem?_map] at hd'
    obtain ⟨f, hf, rfl⟩ := Option.map_eq_some_iff.mp hd
    obtain ⟨tail, hoccurs⟩ := h.occurs_of_mem f (List.mem_of_getElem? hf)
    rw [hf] at hd'
    obtain rfl := Option.some.inj hd'
    rw [← List.map_take, FailedAttempt.lines_map_crlf]
    refine ⟨rfl, rfl, f.error.column_crlf, ?_, hoccurs.offset_crlf, tail, hoccurs.dropBytes?_eq, ?_⟩
    · simp only [Diagnostic.wording, FailedAttempt.diagnostic, SyntaxError.lastLine_messageAt]
      rfl
    · intro hplace
      apply SyntaxError.messageAt_crlf
      intro c hc
      rw [← hoccurs.tail_eq] at hc
      simpa [SyntaxError.isBreak] using hplace c hc

end HornSyntax
