import HornSyntax.Text

/-!
Places in a text and the stretches between them. A place is a byte, and the
stretch from one byte to another is what the text before the second has beyond
the text before the first. Line feeds are counted up to a place for the number
of its line, and the last one before it begins the line.
-/

namespace HornSyntax.Text

/-- The part of a text before a byte. -/
def upTo (text : Text) (offset : Nat) : Text := (splitAtByte offset text).1

/-- The part of a text from one byte to another. -/
def slice (text : Text) (start stop : Nat) : Text := (text.upTo stop).drop (text.upTo start).length

/-- The number of the line that a byte lies on, counted from one. -/
def lineAt (text : Text) (offset : Nat) : Nat := (text.upTo offset).count '\n' + 1

/-- The byte after the last line feed before a byte, or the first byte of the text. -/
def lineStart (text : Text) (offset : Nat) : Nat :=
  bytes (text.upTo offset) - bytes (text.upTo offset).lastLine

theorem upTo_bytes (before after : Text) : upTo (before ++ after) before.bytes = before := by
  rw [upTo, splitAtByte_bytes]

theorem upTo_prefix {text : Text} {start stop : Nat} (h : start ≤ stop) :
    text.upTo start <+: text.upTo stop := by
  unfold upTo
  induction text generalizing start stop with
  | nil => simp [splitAtByte]
  | cons c rest ih =>
    by_cases hstart : c.utf8Size ≤ start
    · have hstop : c.utf8Size ≤ stop := by omega
      have hle : start - c.utf8Size ≤ stop - c.utf8Size := by omega
      have hrest := ih hle
      simpa [splitAtByte, hstart, hstop] using hrest
    · simp [splitAtByte, hstart]

/-- The text before a place is the text before an earlier one and the stretch between. -/
theorem upTo_append_slice {text : Text} {start stop : Nat} (h : start ≤ stop) :
    text.upTo start ++ text.slice start stop = text.upTo stop := by
  have hprefix : text.upTo start <+: text.upTo stop := upTo_prefix h
  obtain ⟨between, hbetween⟩ := hprefix
  rw [slice, ← hbetween, List.drop_left]

theorem slice_bytes (before between after : Text) :
    slice (before ++ (between ++ after)) before.bytes (before.bytes + between.bytes) = between := by
  have hstop : upTo (before ++ (between ++ after)) (before.bytes + between.bytes) =
      before ++ between := by
    rw [← bytes_append, ← List.append_assoc, upTo_bytes]
  rw [slice, hstop, upTo_bytes, List.drop_left]

/-- The stretches from one place over a second to a third follow one another. -/
theorem count_upTo_add_count_slice {text : Text} {start stop : Nat} (h : start ≤ stop) (c : Char) :
    (text.upTo start).count c + (text.slice start stop).count c = (text.upTo stop).count c := by
  rw [← upTo_append_slice h, List.count_append]

theorem mem_slice_of_le {text : Text} {start stop later : Nat} {c : Char} (hstart : start ≤ stop)
    (hstop : stop ≤ later) (h : c ∈ text.slice start stop) : c ∈ text.slice start later := by
  have hmore : text.upTo start ++ (text.slice start stop ++ text.slice stop later) =
      text.upTo start ++ text.slice start later := by
    rw [← List.append_assoc, upTo_append_slice hstart, upTo_append_slice hstop,
      upTo_append_slice (Nat.le_trans hstart hstop)]
  rw [← List.append_cancel_left hmore]
  exact List.mem_append_left _ h

theorem lastLine_append_of_mem {left right : Text} (h : '\n' ∈ right) :
    lastLine (left ++ right) = right.lastLine := by
  have hlength : (right.reverse.takeWhile (· != '\n')).length ≠ right.reverse.length := by
    intro hlength
    have hall := List.takeWhile_prefix (l := right.reverse) (· != '\n') |>.eq_of_length hlength
    have hne := List.all_eq_true.mp List.all_takeWhile '\n' (hall ▸ List.mem_reverse.mpr h)
    simp at hne
  rw [lastLine, List.reverse_append, List.takeWhile_append, if_neg hlength, lastLine]

theorem lastLine_append_of_notMem {left right : Text} (h : '\n' ∉ right) :
    lastLine (left ++ right) = left.lastLine ++ right := by
  have hall : ∀ c ∈ right.reverse, (c != '\n') = true := by
    intro c hc
    have hne : c ≠ '\n' := fun heq => h (heq ▸ List.mem_reverse.mp hc)
    simpa using hne
  rw [lastLine, List.reverse_append, List.takeWhile_append_of_pos hall, List.reverse_append,
    List.reverse_reverse, lastLine]

theorem lastLine_of_notMem {text : Text} (h : '\n' ∉ text) : text.lastLine = text := by
  have happend : lastLine ([] ++ text) = lastLine [] ++ text := lastLine_append_of_notMem h
  simpa [lastLine] using happend

theorem exists_append_lastLine (text : Text) : ∃ front, text = front ++ text.lastLine := by
  refine ⟨(text.reverse.dropWhile (· != '\n')).reverse, ?_⟩
  rw [lastLine, ← List.reverse_append, List.takeWhile_append_dropWhile, List.reverse_reverse]

/-- The last line of a part of a text reaches back to the beginning of the part
or of the line, whichever is later. -/
theorem slice_lineStart (before part after : Text) :
    slice (before ++ (part ++ after))
      (max before.bytes (lineStart (before ++ (part ++ after)) (before.bytes + part.bytes)))
      (before.bytes + part.bytes) = part.lastLine := by
  have hupTo : upTo (before ++ (part ++ after)) (before.bytes + part.bytes) = before ++ part := by
    rw [← bytes_append, ← List.append_assoc, upTo_bytes]
  rw [lineStart, hupTo]
  by_cases hfeed : '\n' ∈ part
  · obtain ⟨front, hfront⟩ := exists_append_lastLine part
    have hbytes : part.bytes = front.bytes + part.lastLine.bytes := by
      rw [← bytes_append, ← hfront]
    have hmax : max before.bytes (bytes (before ++ part) - bytes (lastLine (before ++ part))) =
        bytes (before ++ front) := by
      rw [lastLine_append_of_mem hfeed, bytes_append, bytes_append]
      omega
    have hslice := slice_bytes (before ++ front) part.lastLine after
    have hstop : bytes (before ++ front) + bytes part.lastLine = before.bytes + part.bytes := by
      rw [bytes_append]
      omega
    rw [List.append_assoc, ← List.append_assoc front, ← hfront, hstop] at hslice
    rw [hmax, hslice]
  · have hmax : max before.bytes (bytes (before ++ part) - bytes (lastLine (before ++ part))) =
        before.bytes := by
      rw [lastLine_append_of_notMem hfeed, bytes_append, bytes_append]
      omega
    rw [hmax, slice_bytes, lastLine_of_notMem hfeed]

end HornSyntax.Text
