import HornSyntax.Proofs.Position
import HornSyntax.SyntaxError

/-!
The lines of a text, and those of the message of an error. No part of a message
holds a line feed, whatever the line of the error that it quotes, so a message
has its six lines and no more. Behind the first one they all begin with a blank
of the gutter or a digit of the number of the line.
-/

namespace HornSyntax

namespace Text

/-- The parts of a text before, between and behind its line feeds. -/
def lines (text : Text) : List Text := text.splitOn '\n'

theorem lines_ne_nil (text : Text) : text.lines ≠ [] := List.splitOn_ne_nil '\n' text

theorem lines_nil : lines [] = [[]] := List.splitOn_nil '\n'

theorem lines_append_feed (left right : Text) :
    lines (left ++ '\n' :: right) = left.lines ++ right.lines :=
  List.splitOn_append_cons_self left right

theorem lines_of_notMem {line : Text} (h : '\n' ∉ line) : line.lines = [line] :=
  List.splitOn_eq_singleton h

theorem lines_feed_cons (text : Text) : lines ('\n' :: text) = [] :: text.lines := by
  have h := lines_append_feed [] text
  rwa [lines_nil] at h

theorem lines_line_append {line : Text} (h : '\n' ∉ line) (rest : Text) :
    lines (line ++ '\n' :: rest) = line :: rest.lines := by
  rw [lines_append_feed, lines_of_notMem h]
  rfl

theorem lines_joined {all : List Text} (h : ∀ line ∈ all, '\n' ∉ line) (hne : all ≠ []) :
    (joined ['\n'] all).lines = all :=
  List.splitOn_intercalate '\n' h hne

theorem lines_injective {left right : Text} (h : left.lines = right.lines) : left = right := by
  have hback : ∀ text : Text, joined ['\n'] text.lines = text := fun _ =>
    List.intercalate_splitOn '\n'
  rw [← hback left, h, hback right]

theorem lines_cons {c : Char} (h : c ≠ '\n') (text : Text) :
    lines (c :: text) = text.lines.modifyHead (c :: ·) := by
  have hc : (c == '\n') = false := by simpa using h
  rw [lines, List.splitOn_cons_eq_if_modifyHead, hc, lines]
  rfl

/-- What is put in front of a text without a line feed belongs to its first line. -/
theorem lines_append {front : Text} (h : '\n' ∉ front) (text : Text) :
    lines (front ++ text) = text.lines.modifyHead (front ++ ·) := by
  induction front with
  | nil =>
    obtain ⟨first, more, hlines⟩ := List.exists_cons_of_ne_nil (lines_ne_nil text)
    simp [hlines]
  | cons c front ih =>
    have hc : c ≠ '\n' := fun heq => h (heq ▸ List.mem_cons_self)
    have hfront : '\n' ∉ front := fun hmem => h (List.mem_cons_of_mem c hmem)
    rw [List.cons_append, lines_cons hc, ih hfront, List.modifyHead_modifyHead]
    rfl

theorem feed_notMem_decimal (n : Nat) : '\n' ∉ decimal n := by
  intro hmem
  exact absurd (isDigit_of_mem_decimal hmem) (by decide)

theorem mem_joined {separator : Text} {texts : List Text} {c : Char}
    (h : c ∈ joined separator texts) : c ∈ separator ∨ ∃ text ∈ texts, c ∈ text := by
  induction texts with
  | nil => simp [joined] at h
  | cons first more ih =>
    cases more with
    | nil => exact Or.inr ⟨first, by simp, by simpa [joined] using h⟩
    | cons second more =>
      rw [joined, List.intercalate_cons_cons, List.mem_append, List.mem_append] at h
      rcases h with (hfirst | hseparator) | hrest
      · exact Or.inr ⟨first, by simp, hfirst⟩
      · exact Or.inl hseparator
      · rcases ih hrest with hseparator | ⟨text, htext, hc⟩
        · exact Or.inl hseparator
        · exact Or.inr ⟨text, List.mem_cons_of_mem _ htext, hc⟩

/-- A line that begins with a blank or a digit. -/
def IsGuarded (line : Text) : Prop := ∃ c ∈ line.head?, c = ' ' ∨ c.isDigit = true

theorem isGuarded_decimal_append (n : Nat) (rest : Text) : IsGuarded (decimal n ++ rest) := by
  obtain ⟨c, more, hdigits⟩ := List.exists_cons_of_ne_nil (decimal_ne_nil n)
  refine ⟨c, by simp [hdigits], Or.inr ?_⟩
  exact isDigit_of_mem_decimal (n := n) (by simp [hdigits])

theorem isGuarded_blanks_append (n : Nat) (rest : Text) :
    IsGuarded (List.replicate n ' ' ++ ' ' :: rest) := by
  cases n with
  | zero => exact ⟨' ', rfl, Or.inl rfl⟩
  | succ n => exact ⟨' ', rfl, Or.inl rfl⟩

end Text

theorem Rule.feed_notMem_wording (r : Rule) : '\n' ∉ r.wording.toList := by
  cases r <;> decide

namespace SyntaxError

theorem feed_notMem_alternatives {names : List Text} (h : ∀ name ∈ names, '\n' ∉ name) :
    '\n' ∉ alternatives names := by
  unfold alternatives
  split
  · simp
  · exact h _ (by simp)
  · simp [h _ List.mem_cons_self, h _ (List.mem_cons_of_mem _ List.mem_cons_self)]
  · intro hmem
    rcases List.mem_append.mp hmem with hfront | hlast
    · rcases List.mem_append.mp hfront with hjoined | hor
      · rcases Text.mem_joined hjoined with hseparator | ⟨name, hname, hfeed⟩
        · simp at hseparator
        · exact h name ((List.dropLast_sublist _).subset hname) hfeed
      · simp at hor
    · rw [List.getLastD_eq_getLast?] at hlast
      cases hnames : names.getLast? with
      | none => simp [hnames] at hlast
      | some name => exact h name (List.mem_of_getLast? hnames) (by simpa [hnames] using hlast)

variable (e : SyntaxError)

theorem feed_notMem_expectation : '\n' ∉ e.expectation := by
  unfold expectation
  split
  · decide
  · have hnames : ∀ name ∈ e.expected.map (·.wording.toList), '\n' ∉ name := by
      intro name hname
      obtain ⟨r, -, rfl⟩ := List.mem_map.mp hname
      exact r.feed_notMem_wording
    simpa using feed_notMem_alternatives hnames

theorem showBreak_ne_feed (c : Char) : showBreak c ≠ '\n' := by
  unfold showBreak
  by_cases hfeed : c = '\n'
  · simp [hfeed]
  · by_cases hreturn : c = '\r'
    · simp [hreturn]
    · simp [hfeed, hreturn]

theorem feed_notMem_quotedLine : '\n' ∉ e.quotedLine := by
  intro hmem
  simp only [quotedLine] at hmem
  split at hmem
  · obtain ⟨c, -, hc⟩ := List.mem_map.mp hmem
    exact showBreak_ne_feed c hc
  · have hbreak := (List.mem_filter.mp hmem).2
    simp [isBreak] at hbreak

theorem feed_notMem_underline : '\n' ∉ e.underline := by
  intro hmem
  rcases List.mem_append.mp hmem with hblank | hmark
  · obtain ⟨c, -, hc⟩ := List.mem_map.mp hblank
    split at hc
    · cases hc
    · cases hc
  · exact absurd hmark (by decide)

theorem feed_notMem_messageLines (n : Nat) : ∀ line ∈ e.messageLines n, '\n' ∉ line := by
  have hnumber := Text.feed_notMem_decimal n
  have hcolumn := Text.feed_notMem_decimal e.column
  simp [messageLines, hnumber, hcolumn, e.feed_notMem_quotedLine, e.feed_notMem_underline,
    e.feed_notMem_expectation]

/-- A message has six lines, whatever it quotes. -/
theorem lines_messageAt (n : Nat) : (e.messageAt n).lines = e.messageLines n :=
  Text.lines_joined (e.feed_notMem_messageLines n) (List.cons_ne_nil _ _)

/-- The last line of a message says what was expected. -/
theorem lastLine_messageAt (n : Nat) :
    (e.messageAt n).lastLine =
      List.replicate (Text.decimal n).length ' ' ++ " = ".toList ++ e.expectation := by
  have hsplit : ∃ front, e.messageAt n = (front ++ ['\n']) ++
      (List.replicate (Text.decimal n).length ' ' ++ " = ".toList ++ e.expectation) := by
    refine ⟨Text.joined ['\n'] ((e.messageLines n).take 5), ?_⟩
    simp [messageAt, messageLines, Text.joined, List.intercalate_cons_cons]
  obtain ⟨front, hfront⟩ := hsplit
  have hlast : '\n' ∉ List.replicate (Text.decimal n).length ' ' ++ " = ".toList ++
      e.expectation :=
    e.feed_notMem_messageLines n _ (by simp [messageLines])
  rw [hfront, Text.lastLine_append_of_notMem hlast, Text.lastLine_append_of_mem (by simp)]
  rfl

/-- Whatever a message quotes stands behind the number or the gutter of its line. -/
theorem isGuarded_of_mem_messageLines (n : Nat) :
    ∀ line ∈ (e.messageLines n).tail, line.IsGuarded := by
  intro line hline
  simp only [messageLines, List.tail_cons, List.mem_cons, List.not_mem_nil, or_false,
    List.append_assoc] at hline
  rcases hline with rfl | rfl | rfl | rfl | rfl
  · exact Text.isGuarded_blanks_append _ _
  · exact Text.isGuarded_decimal_append _ _
  · exact Text.isGuarded_blanks_append _ _
  · exact Text.isGuarded_blanks_append _ _
  · exact Text.isGuarded_blanks_append _ _

end SyntaxError

end HornSyntax
