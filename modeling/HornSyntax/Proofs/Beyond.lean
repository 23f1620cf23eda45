import HornSyntax.Proofs.ErrorPlace
import HornSyntax.Proofs.LineEnds

/-!
What lies beyond a terminator. Of the text behind a dot an error before the dot
sees one thing only: whether it closes a quotation that is open in front of it.
So an attempt that fails before a dot fails in the same way over any other text
behind the dot that closes no quotation which was not closed before.
-/

namespace HornSyntax

open CharacterClass

/-- What does not hold an element lies behind its last place. -/
theorem exists_append_cons_of_notMem {α : Type} {x : α} {left right first last : List α}
    (hx : x ∉ last) (h : left ++ x :: right = first ++ last) :
    ∃ between, first = left ++ x :: between ∧ right = between ++ last := by
  rcases List.append_eq_append_iff.mp h with ⟨between, hfirst, hright⟩ | ⟨between, hleft, hlast⟩
  · cases between with
    | nil => exact absurd (by simp [← show _ = last from hright]) hx
    | cons y between =>
      obtain ⟨rfl, rfl⟩ := List.cons.inj hright
      exact ⟨between, hfirst, rfl⟩
  · exact absurd (by simp [hlast]) hx

/-- A text closes a quotation that is open in front of it. -/
def Text.Closes (text : Text) : Prop :=
  ∃ letters rest : Text, letters.all isQuotable = true ∧ text = letters ++ '\'' :: rest

section

variable {left beyond other : Text}

theorem Text.IsBareQuote.past_dot (h : Text.IsBareQuote (left ++ '.' :: beyond)) (other : Text) :
    Text.IsBareQuote (left ++ '.' :: other) := by
  obtain ⟨rest, htext, hrest⟩ := h
  cases left with
  | nil => exact absurd (List.cons.inj htext).1 (by decide)
  | cons c left =>
    obtain ⟨rfl, rfl⟩ := List.cons.inj htext
    refine ⟨left ++ '.' :: other, rfl, ?_⟩
    cases left with
    | nil => exact hrest
    | cons d left => exact hrest

/-- The token in which a dot lies is the dot or a quotation. In place of a
quotation over the dot there is one in any text that closes it as well. -/
theorem Token.exists_past_dot {t : Token} {more rest : Text} (hwf : t.wellFormed = true)
    (htext : t.text = left ++ '.' :: more) (hbeyond : beyond = more ++ rest)
    (hcloses : beyond.Closes → other.Closes) :
    ∃ (u : Token) (rest' : Text), u.wellFormed = true ∧ u.rule = t.rule ∧
      left ++ '.' :: other = u.text ++ rest' := by
  rcases Token.eq_dot_of_mem_text hwf (by simp [htext]) with rfl | ⟨tail, htail⟩
  · obtain ⟨hleft, -⟩ : left = [] ∧ more = [] := by
      cases left with
      | nil => exact ⟨rfl, (List.cons.inj htext).2.symm⟩
      | cons c left => simp [Token.text] at htext
    exact ⟨.dot, other, rfl, rfl, by rw [hleft]; rfl⟩
  · have hopen : t.text ++ rest = '\'' :: (tail ++ rest) := by rw [htail]; rfl
    obtain ⟨letters, hquoted, hletters, hrun⟩ := Token.exists_quotation hwf hopen
    rw [hletters] at htext
    cases left with
    | nil => exact absurd (List.cons.inj htext).1 (by decide)
    | cons c left =>
      obtain ⟨rfl, hsame⟩ := List.cons.inj htext
      have hall := Rule.isRun_all hrun
      -- The dot is not the closing mark, so the mark ends what follows the dot.
      obtain rfl | ⟨inner, last, rfl⟩ := List.eq_nil_or_concat more
      · exact absurd (List.append_inj' hsame rfl).2 (by decide)
      · obtain ⟨rfl, rfl⟩ : letters = left ++ '.' :: inner ∧ last = '\'' := by
          have hinner : letters ++ ['\''] = (left ++ '.' :: inner) ++ [last] := by
            simpa using hsame
          obtain ⟨hfront, hmark⟩ := List.append_inj' hinner rfl
          exact ⟨hfront, (List.cons.inj hmark).1.symm⟩
        simp only [List.all_append, List.all_cons, Bool.and_eq_true] at hall
        obtain ⟨letters', rest', hletters', rfl⟩ :=
          hcloses ⟨inner, rest, hall.2.2, by rw [hbeyond]; simp⟩
        have hrun' : Text.isRun isQuotable isQuotable (left ++ '.' :: letters') = true := by
          cases left <;> simp_all [Text.isRun]
        rcases hquoted with rfl | rfl
        · exact ⟨.name (.quoted (left ++ '.' :: letters')), rest', hrun', rfl,
            by simp [Token.text, Atom.text]⟩
        · exact ⟨.symbol (.quoted (left ++ '.' :: letters')), rest', hrun', rfl,
            by simp [Token.text, Atom.text]⟩

/-- What fits before a dot fits there with any other text behind the dot that
closes the same quotations. -/
theorem Rule.Fits.past_dot {r : Rule} (h : r.Fits (left ++ '.' :: beyond))
    (hcloses : beyond.Closes → other.Closes) : r.Fits (left ++ '.' :: other) := by
  by_cases hend : r = .endOfInput
  · subst hend
    exact absurd (show left ++ '.' :: beyond = [] from h) (by simp)
  · by_cases hstring : r = .string
    · subst hstring
      cases left with
      | nil => exact h
      | cons c left => exact h
    · rw [Rule.fits_iff hend hstring] at h ⊢
      rcases h with ⟨hr, hbare⟩ | ⟨t, rest, hwf, rfl, htext⟩
      · exact Or.inl ⟨hr, hbare.past_dot other⟩
      · have hsplit : (left ++ ['.']) ++ beyond = t.text ++ rest := by simpa using htext
        rcases List.append_eq_append_iff.mp hsplit with ⟨more, hover, hmore⟩ | ⟨more, hfront, -⟩
        · have hover' : t.text = left ++ '.' :: more := by simpa using hover
          obtain ⟨u, rest', hu, hrule, hother⟩ := t.exists_past_dot hwf hover' hmore hcloses
          exact Or.inr ⟨u, rest', hu, hrule, hother⟩
        · refine Or.inr ⟨t, more ++ other, hwf, rfl, ?_⟩
          have hkeep := congrArg (· ++ other) hfront
          simpa using hkeep

theorem Text.head?_past_dot (left beyond other : Text) :
    (left ++ '.' :: other).head? = (left ++ '.' :: beyond).head? := by
  cases left with
  | nil => rfl
  | cons c left => rfl

/-- Reading halts at a place over any text that is put there. -/
theorem Halts.replace {s : Stage} {opening place : Text} {rules : List Rule}
    (h : Halts (s, opening ++ place) place rules) (other : Text) :
    Halts (s, opening ++ other) other rules := by
  generalize hplace : opening ++ place = whole at h
  cases h with
  | outside hrules =>
    obtain rfl : opening = [] := by simpa using hplace
    exact .outside hrules
  | inside hs hrules =>
    have hmark : opening ++ place = ['\''] ++ place := hplace
    obtain rfl := List.append_cancel_right hmark
    exact .inside hs hrules

/-- An error before a dot is the same with any other text behind the dot that
closes no quotation which was not closed before. -/
theorem recognize_past_dot {before : Text} {expected : List Rule}
    (h : recognize (before ++ (left ++ '.' :: beyond)) =
      .error ⟨before, left ++ '.' :: beyond, expected⟩)
    (hcloses : other.Closes → beyond.Closes) :
    recognize (before ++ (left ++ '.' :: other)) =
      .error ⟨before, left ++ '.' :: other, expected⟩ := by
  obtain ⟨⟨s, place⟩, hat⟩ := exists_at_of_recognize h
  have hhead : ∀ x ∈ (left ++ '.' :: other).head?, x ∈ (left ++ '.' :: beyond).head? := by
    rw [Text.head?_past_dot left beyond other]
    exact fun x hx => hx
  obtain ⟨opening, hopening, hwalk⟩ := hat.walk_append hhead
  obtain rfl : place = opening ++ (left ++ '.' :: beyond) := hopening
  have hordered : expected = Rule.all.filter (· ∈ expected) := expected_eq_filter h
  have hnew : SyntaxError.At ⟨before, left ++ '.' :: other, expected⟩
      (before ++ (left ++ '.' :: other)) (s, opening ++ (left ++ '.' :: other)) := by
    refine ⟨rfl, hwalk, hat.halts.replace _, ?_, hat.nodup⟩
    intro r hr hfits
    exact hat.unfit r hr (hfits.past_dot hcloses)
  exact hnew.recognize_eq hordered

end

/-- A diagnostic of another text that says the same, a number of bytes later. -/
structure Diagnostic.Moved (bytes : Nat) (d d' : Diagnostic) : Prop where
  index_eq : d'.index = d.index
  line_eq : d'.line = d.line
  column_eq : d'.column = d.column
  offset_eq : d'.offset = d.offset + bytes
  wording_eq : d'.wording = d.wording

namespace FailedAttempt

/-- A failure over another text that has read the same before its error and
expects the same, a number of bytes later. -/
structure Moved (bytes : Nat) (f f' : FailedAttempt) : Prop where
  start_eq : f'.start = f.start + bytes
  before_eq : f'.error.before = f.error.before
  expected_eq : f'.error.expected = f.error.expected

/-- Chains of the same length whose first failures say the same, each a number of
bytes later that depends on its place. -/
structure Aligned (bytes : Nat → Nat) (count : Nat) (fs fs' : List FailedAttempt) : Prop where
  length_eq : fs'.length = fs.length
  moved : ∀ j < count, ∀ f f', fs[j]? = some f → fs'[j]? = some f' → f.Moved (bytes j) f'

/-- The same failure over a text that goes on otherwise behind a dot after it. -/
def past (f : FailedAttempt) (after : Text) : FailedAttempt :=
  ⟨f.start, ⟨f.error.before, after, f.error.expected⟩⟩

variable {f f' : FailedAttempt} {fs fs' : List FailedAttempt} {bytes : Nat → Nat} {count k : Nat}

theorem moved_past (f : FailedAttempt) (after : Text) : f.Moved 0 (f.past after) := ⟨rfl, rfl, rfl⟩

theorem moved_later (n : Nat) (f : FailedAttempt) : f.Moved n (f.later n) :=
  ⟨Nat.add_comm n f.start, rfl, rfl⟩

theorem Moved.line_eq {n : Nat} (h : f.Moved n f') : f'.error.line = f.error.line := by
  rw [SyntaxError.line, SyntaxError.line, h.before_eq]

theorem Moved.diagnostic {n : Nat} (h : f.Moved n f') (index line : Nat) :
    (f.diagnostic index line).Moved n (f'.diagnostic index line) where
  index_eq := rfl
  line_eq := rfl
  column_eq := by
    simp only [FailedAttempt.diagnostic, SyntaxError.column, h.before_eq]
  offset_eq := by
    simp only [FailedAttempt.diagnostic, offset, SyntaxError.offset, h.before_eq, h.start_eq]
    omega
  wording_eq := by
    simp only [Diagnostic.wording, FailedAttempt.diagnostic, SyntaxError.lastLine_messageAt,
      SyntaxError.expectation, h.expected_eq]

namespace Aligned

theorem of_length (bytes : Nat → Nat) (hlength : fs'.length = fs.length) :
    Aligned bytes 0 fs fs' := by
  refine ⟨hlength, ?_⟩
  intro j hj
  omega

theorem map_later (n count : Nat) (fs : List FailedAttempt) :
    Aligned (fun _ => n) count fs (fs.map (later n)) := by
  refine ⟨List.length_map _, ?_⟩
  intro j _ f f' hf hf'
  rw [List.getElem?_map, hf] at hf'
  obtain rfl := Option.some.inj hf'
  exact f.moved_later n

theorem cons (hf : f.Moved (bytes 0) f') (h : Aligned (fun j => bytes (j + 1)) count fs fs') :
    Aligned bytes (count + 1) (f :: fs) (f' :: fs') := by
  refine ⟨congrArg (· + 1) h.length_eq, ?_⟩
  intro j hj g g' hg hg'
  cases j with
  | zero =>
    obtain rfl := Option.some.inj hg
    obtain rfl := Option.some.inj hg'
    exact hf
  | succ j => exact h.moved j (Nat.lt_of_succ_lt_succ hj) g g' hg hg'

theorem lines_take_eq (h : Aligned bytes count fs fs') (hk : k ≤ count) :
    lines (fs'.take k) = lines (fs.take k) := by
  have hmap : (fs'.take k).map (·.error.line) = (fs.take k).map (·.error.line) := by
    apply List.ext_getElem?
    intro j
    simp only [List.getElem?_map, List.getElem?_take]
    by_cases hj : j < k
    · rw [if_pos hj, if_pos hj]
      cases hf : fs[j]? with
      | none =>
        rw [List.getElem?_eq_none_iff, ← h.length_eq, ← List.getElem?_eq_none_iff] at hf
        rw [hf]
      | some f =>
        have hlt : j < fs'.length := h.length_eq ▸ (List.getElem?_eq_some_iff.mp hf).1
        have hf' := List.getElem?_eq_getElem hlt
        rw [hf']
        exact congrArg some (h.moved j (by omega) f _ hf hf').line_eq
    · rw [if_neg hj, if_neg hj]
  rw [lines, lines, hmap]

/-- The reports of failures that say the same say the same. -/
theorem diagnostics {d d' : Diagnostic} (h : Aligned bytes count fs fs') (hk : k < count)
    (hd : (diagnosticsFrom 0 0 fs)[k]? = some d)
    (hd' : (diagnosticsFrom 0 0 fs')[k]? = some d') : d.Moved (bytes k) d' := by
  rw [getElem?_diagnosticsFrom] at hd hd'
  obtain ⟨f, hf, rfl⟩ := Option.map_eq_some_iff.mp hd
  obtain ⟨f', hf', rfl⟩ := Option.map_eq_some_iff.mp hd'
  rw [h.lines_take_eq hk]
  exact (h.moved k hk f f' hf hf').diagnostic _ _

end Aligned

/-- A failure before a dot occurs over other text behind the dot as well, unless
that text closes a quotation which was not closed before. -/
theorem Occurs.past_dot {front left beyond other : Text}
    (h : f.Occurs (front ++ (left ++ '.' :: beyond)) (left ++ '.' :: beyond))
    (hcloses : other.Closes → beyond.Closes) :
    (f.past (left ++ '.' :: other)).Occurs (front ++ (left ++ '.' :: other))
      (left ++ '.' :: other) := by
  obtain ⟨before, htext, hstart⟩ := h.exists_before
  obtain ⟨rest, hrest, herror⟩ := h.recognize_eq
  rw [← List.append_assoc before] at htext
  obtain rfl := List.append_cancel_right htext
  have hread := Text.dropBytes?_append before (f.error.before ++ (left ++ '.' :: beyond)) 0
  rw [Nat.add_zero, Text.dropBytes?_zero, hstart, ← List.append_assoc, hrest] at hread
  obtain rfl := Option.some.inj hread
  rw [List.append_assoc]
  have hsame : f.error = ⟨f.error.before, left ++ '.' :: beyond, f.error.expected⟩ := by
    rw [h.tail_eq]
  rw [hsame] at herror
  refine Occurs.of_recognize ?_ (recognize_past_dot herror hcloses)
  exact Text.dropBytes?_eq_some_iff.mpr ⟨before, rfl, hstart⟩

end FailedAttempt

end HornSyntax
