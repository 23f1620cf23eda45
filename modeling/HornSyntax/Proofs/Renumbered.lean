import HornSyntax.Proofs.MessageLines
import HornSyntax.Renumbering
import Mathlib.Data.List.Basic

/-!
Renumbering against the layout of a message. The lines of a message differ in how
they begin: the first with an arrow behind the gutter, the one that quotes with a
digit, and all others with a bar or an equals sign behind the gutter. What is
quoted stands behind one of these, so it is never mistaken for any of them, and
since no line of a message ends in a carriage return the lines are read back whole.
-/

namespace HornSyntax

namespace Text

theorem withoutReturn_append (front : Text) {back : Text} (hne : back ≠ []) (h : '\r' ∉ back) :
    withoutReturn (front ++ back) = front ++ back := by
  have hlast : (front ++ back).getLast? ≠ some '\r' := by
    rw [List.getLast?_append_of_ne_nil front hne]
    intro hreturn
    exact h (List.mem_of_getLast? hreturn)
  rw [withoutReturn, if_neg hlast]

/-- Of lines the last of which is not empty, all but that one lose their ends. -/
theorem bareLines_of_lines {text last : Text} (front : List Text)
    (h : text.lines = front ++ [last]) (hlast : last ≠ []) :
    text.bareLines = front.map withoutReturn ++ [last] := by
  have hpieces : text.splitOn '\n' = front ++ [last] := h
  simp [bareLines, hpieces, hlast]

theorem return_notMem_decimal (n : Nat) : '\r' ∉ decimal n := by
  intro hmem
  exact absurd (isDigit_of_mem_decimal hmem) (by decide)

end Text

namespace SyntaxError

variable (old new : Nat) (rest : Text)

/-- A gutter is never empty, and begins with a blank. -/
theorem exists_gutter_eq (n : Nat) : ∃ more, gutter n = ' ' :: more := by
  obtain ⟨c, digits, hdigits⟩ := List.exists_cons_of_ne_nil (Text.decimal_ne_nil n)
  exact ⟨List.replicate digits.length ' ', by rw [gutter, hdigits]; rfl⟩

/-- No line begins with both the number and the gutter. -/
theorem decimal_append_ne_gutter_append (left right : Text) :
    Text.decimal old ++ left ≠ gutter old ++ right := by
  obtain ⟨c, digits, hdigits⟩ := List.exists_cons_of_ne_nil (Text.decimal_ne_nil old)
  obtain ⟨more, hgutter⟩ := exists_gutter_eq old
  have hc : c.isDigit = true := Text.isDigit_of_mem_decimal (n := old) (by simp [hdigits])
  rw [hdigits, hgutter]
  intro heq
  obtain ⟨rfl, -⟩ := List.cons.inj heq
  exact absurd hc (by decide)

theorem renumberLine_header :
    renumberLine old new (header old ++ rest) = header new ++ rest := by
  have hheader : (header old).isPrefixOf? (header old ++ rest) = some rest :=
    List.isPrefixOf?_eq_some_iff_append_eq.mpr rfl
  simp only [renumberLine, hheader]

theorem renumberLine_numbered :
    renumberLine old new (numbered old ++ rest) = numbered new ++ rest := by
  have hheader : (header old).isPrefixOf? (numbered old ++ rest) = none := by
    rw [Option.eq_none_iff_forall_ne_some]
    intro behind hbehind
    have heq := List.isPrefixOf?_eq_some_iff_append_eq.mp hbehind
    simp only [header, numbered, List.append_assoc] at heq
    exact decimal_append_ne_gutter_append old _ _ heq.symm
  have hnumbered : (numbered old).isPrefixOf? (numbered old ++ rest) = some rest :=
    List.isPrefixOf?_eq_some_iff_append_eq.mpr rfl
  simp only [renumberLine, hheader, hnumbered]

/-- Behind the gutter, a bar or an equals sign is told from the arrow of the header. -/
theorem renumberLine_gutter (h : followsGutter rest = true) :
    renumberLine old new (gutter old ++ rest) = gutter new ++ rest := by
  have hheader : (header old).isPrefixOf? (gutter old ++ rest) = none := by
    rw [Option.eq_none_iff_forall_ne_some]
    intro behind hbehind
    have heq := List.isPrefixOf?_eq_some_iff_append_eq.mp hbehind
    simp only [header, List.append_assoc, List.append_cancel_left_eq] at heq
    subst heq
    simp [followsGutter] at h
  have hnumbered : (numbered old).isPrefixOf? (gutter old ++ rest) = none := by
    rw [Option.eq_none_iff_forall_ne_some]
    intro behind hbehind
    have heq := List.isPrefixOf?_eq_some_iff_append_eq.mp hbehind
    simp only [numbered, List.append_assoc] at heq
    exact decimal_append_ne_gutter_append old _ _ heq
  have hgutter : (gutter old).isPrefixOf? (gutter old ++ rest) = some rest :=
    List.isPrefixOf?_eq_some_iff_append_eq.mpr rfl
  simp only [renumberLine, hheader, hnumbered, hgutter, h, if_true]

variable (e : SyntaxError)

theorem return_notMem_quotedLine : '\r' ∉ e.quotedLine := by
  intro hmem
  simp only [quotedLine] at hmem
  split at hmem
  · obtain ⟨c, -, hc⟩ := List.mem_map.mp hmem
    unfold showBreak at hc
    split at hc
    · cases hc
    · split at hc
      · cases hc
      · contradiction
  · have hbreak := (List.mem_filter.mp hmem).2
    simp [isBreak] at hbreak

/-- The lines of a message as renumbering tells them apart. -/
theorem messageLines_eq (n : Nat) :
    e.messageLines n = [header n ++ Text.decimal e.column, gutter n ++ " |".toList,
      numbered n ++ ' ' :: e.quotedLine, gutter n ++ (" | ".toList ++ e.underline),
      gutter n ++ " |".toList, gutter n ++ (" = ".toList ++ e.expectation)] := by
  simp [messageLines, header, numbered, gutter]

theorem withoutReturn_underline (front : Text) :
    Text.withoutReturn (front ++ e.underline) = front ++ e.underline := by
  have hmark : ("^---".toList : Text) ≠ [] ∧ '\r' ∉ "^---".toList := by
    decide
  rw [underline, ← List.append_assoc]
  exact Text.withoutReturn_append _ hmark.left hmark.right

/-- The lines of a message are read back whole. -/
theorem bareLines_messageAt (n : Nat) : (e.messageAt n).bareLines = e.messageLines n := by
  have hlines := (e.lines_messageAt n).trans (e.messageLines_eq n)
  have hbare := Text.bareLines_of_lines [_, _, _, _, _] hlines (by simp)
  have hcolumn := Text.withoutReturn_append (header n) (Text.decimal_ne_nil e.column)
    (Text.return_notMem_decimal e.column)
  have hbar : Text.withoutReturn (gutter n ++ " |".toList) = gutter n ++ " |".toList :=
    Text.withoutReturn_append _ (by simp) (by simp)
  have hquoted : Text.withoutReturn (numbered n ++ ' ' :: e.quotedLine) =
      numbered n ++ ' ' :: e.quotedLine :=
    Text.withoutReturn_append _ (by simp) (by simp [e.return_notMem_quotedLine])
  have hunderline := e.withoutReturn_underline (gutter n ++ " | ".toList)
  rw [List.append_assoc] at hunderline
  rw [hbare, messageLines_eq]
  simp only [List.map_cons, List.map_nil, hcolumn, hbar, hquoted, hunderline, List.cons_append,
    List.nil_append]

/-- Each line of a message is told by how it begins, so the whole of it is renumbered. -/
theorem renumbered_eq_messageAt (n : Nat) : e.renumbered n = e.messageAt n := by
  have hmessage : e.message.bareLines = e.messageLines e.line := e.bareLines_messageAt e.line
  have hbar := renumberLine_gutter e.line n " |".toList rfl
  have hunderline := renumberLine_gutter e.line n (" | ".toList ++ e.underline) rfl
  have hexpectation := renumberLine_gutter e.line n (" = ".toList ++ e.expectation) rfl
  rw [renumbered, renumber, hmessage, messageAt]
  simp only [messageLines_eq, List.map_cons, List.map_nil, renumberLine_header,
    renumberLine_numbered, hbar, hunderline, hexpectation]

/-- Whatever line an error quotes, its message under another number is the message
laid out for that number: the number stands in the first line and in front of the
quoted line, every gutter is as wide as the number, and the column, the quoted line,
the underline and what was expected are those of the message. Under its own number
the message is unchanged. -/
theorem renumbered_laid_out (n : Nat) :
    e.renumbered n = e.messageAt n ∧
      (e.renumbered n).lines =
        [gutter n ++ "--> ".toList ++ Text.decimal n ++ ":".toList ++ Text.decimal e.column,
          gutter n ++ " |".toList,
          Text.decimal n ++ " | ".toList ++ e.quotedLine,
          gutter n ++ " | ".toList ++ e.underline,
          gutter n ++ " |".toList,
          gutter n ++ " = ".toList ++ e.expectation] ∧
      e.message.lines =
        [gutter e.line ++ "--> ".toList ++ Text.decimal e.line ++ ":".toList ++
            Text.decimal e.column,
          gutter e.line ++ " |".toList,
          Text.decimal e.line ++ " | ".toList ++ e.quotedLine,
          gutter e.line ++ " | ".toList ++ e.underline,
          gutter e.line ++ " |".toList,
          gutter e.line ++ " = ".toList ++ e.expectation] ∧
      e.renumbered e.line = e.message := by
  have hrenumbered := e.renumbered_eq_messageAt n
  refine ⟨hrenumbered, ?_, e.lines_messageAt e.line, e.renumbered_eq_messageAt e.line⟩
  rw [hrenumbered]
  exact e.lines_messageAt n

end SyntaxError

end HornSyntax
