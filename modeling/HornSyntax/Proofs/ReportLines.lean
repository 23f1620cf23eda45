import HornSyntax.Proofs.Chain
import HornSyntax.Proofs.MessageLines
import HornSyntax.Proofs.Series

/-!
The lines of a report on a series of files. The block of a file is a heading, then
either one line that says its syntax is correct or its errors and their total. Of
what a message quotes nothing comes to the front of a line, so the lines that look
like headings, errors and totals are those that the report put there. An error takes
seven lines, and so the blocks and the messages can be told from the report alone.
-/

namespace HornSyntax

namespace Text

variable {front line : Text} {c : Char}

/-- The lines of a text that begin in some way. -/
def linesWith (text front : Text) : List Text := text.lines.filter (front <+: ·)

theorem head?_eq_of_isPrefix (hfront : front.head? = some c) (h : front <+: line) :
    line.head? = some c := by
  obtain ⟨rest, rfl⟩ := h
  rw [List.head?_append, hfront]
  rfl

theorem not_isPrefix_of_head?_ne (hfront : front.head? = some c) (hline : line.head? ≠ some c) :
    ¬ front <+: line :=
  fun hprefix => hline (head?_eq_of_isPrefix hfront hprefix)

theorem not_isPrefix_nil (hfront : front.head? = some c) : ¬ front <+: [] :=
  not_isPrefix_of_head?_ne hfront (by simp)

theorem IsGuarded.not_isPrefix (h : line.IsGuarded) (hfront : front.head? = some c)
    (hc : ¬ (c = ' ' ∨ c.isDigit = true)) : ¬ front <+: line := by
  obtain ⟨d, hd, hguard⟩ := h
  apply not_isPrefix_of_head?_ne hfront
  intro hline
  obtain rfl := Option.some.inj (hd.symm.trans hline)
  exact hc hguard

end Text

namespace FileReport

def headingMark : Text := "-----File ".toList

def errorMark : Text := "Error ".toList

def totalMark : Text := "Total Errors".toList

/-- The line that names a file. -/
def headingLine (fileIndex : Nat) : Text := headingMark ++ Text.decimal fileIndex ++ ":".toList

/-- The line of an error, which goes on with the first line of its message. -/
def errorLine (index : Nat) (first : Text) : Text :=
  errorMark ++ Text.decimal index ++ " - ".toList ++ first

/-- The line that counts the errors of a file. -/
def totalLine (fileIndex errorCount : Nat) : Text :=
  totalMark ++ " in File ".toList ++ Text.decimal fileIndex ++ ": ".toList ++
    Text.decimal errorCount ++ if errorCount = 1 then " error".toList else " errors".toList

def correctLine : Text := "Syntax is Correct".toList

def entryLines (d : Diagnostic) : List Text :=
  [] :: d.message.lines.modifyHead (errorLine d.index)

/-- The lines of a block, each of which ends with a line feed. -/
def blockLines (r : FileReport) : List Text :=
  [] :: headingLine r.fileIndex ::
    if r.valid then [correctLine, []]
    else r.diagnostics.flatMap entryLines ++ [totalLine r.fileIndex r.errorCount, []]

theorem feed_notMem_headingLine (fileIndex : Nat) : '\n' ∉ headingLine fileIndex := by
  unfold headingLine headingMark
  simp [Text.feed_notMem_decimal]

theorem feed_notMem_totalLine (fileIndex errorCount : Nat) :
    '\n' ∉ totalLine fileIndex errorCount := by
  unfold totalLine totalMark
  split <;> simp [Text.feed_notMem_decimal]

theorem lines_errorEntry_append (d : Diagnostic) (rest : Text) :
    Text.lines (errorEntry d ++ rest) = entryLines d ++ rest.lines := by
  have hfront : '\n' ∉ errorMark ++ Text.decimal d.index ++ " - ".toList := by
    unfold errorMark
    simp [Text.feed_notMem_decimal]
  have hentry : errorEntry d ++ rest = '\n' ::
      ((errorMark ++ Text.decimal d.index ++ " - ".toList ++ d.message) ++ '\n' :: rest) := by
    unfold errorEntry errorMark
    simp
  rw [hentry, Text.lines_feed_cons, Text.lines_append_feed, Text.lines_append hfront]
  rfl

theorem lines_flatMap_errorEntry_append (ds : List Diagnostic) (rest : Text) :
    Text.lines (ds.flatMap errorEntry ++ rest) = ds.flatMap entryLines ++ rest.lines := by
  induction ds with
  | nil => rfl
  | cons d ds ih =>
    rw [List.flatMap_cons, List.flatMap_cons, List.append_assoc, lines_errorEntry_append, ih,
      List.append_assoc]

theorem lines_heading_append (r : FileReport) (rest : Text) :
    Text.lines (r.heading ++ rest) = [] :: headingLine r.fileIndex :: rest.lines := by
  have hheading : r.heading ++ rest = '\n' :: (headingLine r.fileIndex ++ '\n' :: rest) := by
    unfold heading headingLine headingMark
    simp
  rw [hheading, Text.lines_feed_cons, Text.lines_line_append (feed_notMem_headingLine _)]

theorem lines_total_append (r : FileReport) (rest : Text) :
    Text.lines (r.total ++ rest) = totalLine r.fileIndex r.errorCount :: [] :: rest.lines := by
  have htotal : r.total ++ rest =
      totalLine r.fileIndex r.errorCount ++ '\n' :: '\n' :: rest := by
    unfold total totalLine totalMark plural
    split <;> simp
  rw [htotal, Text.lines_line_append (feed_notMem_totalLine _ _), Text.lines_feed_cons]

/-- A block ends with a line, so its lines do not run into what follows. -/
theorem lines_render_append (r : FileReport) (rest : Text) :
    Text.lines (r.render ++ rest) = r.blockLines ++ rest.lines := by
  unfold render blockLines
  by_cases hvalid : r.valid = true
  · have hcorrect : "Syntax is Correct\n\n".toList ++ rest =
        correctLine ++ '\n' :: '\n' :: rest := by
      unfold correctLine
      simp
    rw [if_pos hvalid, if_pos hvalid, List.append_assoc, lines_heading_append, hcorrect,
      Text.lines_line_append (by decide), Text.lines_feed_cons]
    rfl
  · rw [if_neg hvalid, if_neg hvalid, List.append_assoc, List.append_assoc, lines_heading_append,
      lines_flatMap_errorEntry_append, lines_total_append]
    simp

theorem lines_render (r : FileReport) : r.render.lines = r.blockLines ++ [[]] := by
  have h := r.lines_render_append []
  rwa [List.append_nil, Text.lines_nil] at h

/-- The first line of an error in a report. -/
def firstEntryLine (d : Diagnostic) : Text := errorLine d.index (d.message.lines.headD [])

@[simp] theorem head?_headingLine (fileIndex : Nat) :
    (headingLine fileIndex).head? = some '-' := rfl

@[simp] theorem head?_correctLine : correctLine.head? = some 'S' := rfl

@[simp] theorem head?_firstEntryLine (d : Diagnostic) : (firstEntryLine d).head? = some 'E' := rfl

@[simp] theorem head?_totalLine (fileIndex errorCount : Nat) :
    (totalLine fileIndex errorCount).head? = some 'T' := rfl

theorem totalLine_ne_nil (fileIndex errorCount : Nat) : totalLine fileIndex errorCount ≠ [] :=
  fun hnil => by simpa [hnil] using head?_totalLine fileIndex errorCount

/-- The lines of a block that do not only go on with a message. -/
def leadingLines (r : FileReport) : List Text :=
  headingLine r.fileIndex ::
    if r.valid then [correctLine]
    else r.diagnostics.map firstEntryLine ++ [totalLine r.fileIndex r.errorCount]

/-- Every diagnostic has the message of an error. -/
def HasMessages (r : FileReport) : Prop :=
  ∀ d ∈ r.diagnostics, ∃ (e : SyntaxError) (line : Nat), d.message = e.messageAt line

variable {front : Text} {c : Char} {r : FileReport} {d : Diagnostic} {e : SyntaxError} {line : Nat}

theorem entryLines_eq (hd : d.message = e.messageAt line) :
    entryLines d = [] :: firstEntryLine d :: (e.messageLines line).tail := by
  rw [entryLines, firstEntryLine, hd, e.lines_messageAt]
  rfl

theorem length_entryLines (hd : d.message = e.messageAt line) : (entryLines d).length = 7 := by
  rw [entryLines, List.length_cons, List.length_modifyHead, hd, e.lines_messageAt]
  rfl

theorem filter_entryLines (hfront : front.head? = some c) (hc : ¬ (c = ' ' ∨ c.isDigit = true))
    (hd : d.message = e.messageAt line) :
    (entryLines d).filter (front <+: ·) = [firstEntryLine d].filter (front <+: ·) := by
  have hempty := Text.not_isPrefix_nil hfront
  have htail : (e.messageLines line).tail.filter (front <+: ·) = [] := by
    apply List.filter_eq_nil_iff.mpr
    intro l hl
    simpa using (e.isGuarded_of_mem_messageLines line l hl).not_isPrefix hfront hc
  rw [entryLines_eq hd, List.filter_cons_of_neg (by simpa using hempty), List.filter_cons, htail,
    List.filter_cons]
  rfl

/-- Of the lines of a block only its own can begin with anything but a blank or a digit. -/
theorem filter_blockLines (hr : r.HasMessages) (hfront : front.head? = some c)
    (hc : ¬ (c = ' ' ∨ c.isDigit = true)) :
    r.blockLines.filter (front <+: ·) = r.leadingLines.filter (front <+: ·) := by
  have hempty := Text.not_isPrefix_nil hfront
  have hentries : (r.diagnostics.flatMap entryLines).filter (front <+: ·) =
      (r.diagnostics.map firstEntryLine).filter (front <+: ·) := by
    rw [List.map_eq_flatMap, List.filter_flatMap, List.filter_flatMap]
    apply List.flatMap_congr
    intro d hd
    obtain ⟨e, line, hmessage⟩ := hr d hd
    exact filter_entryLines hfront hc hmessage
  rw [blockLines, leadingLines, List.filter_cons_of_neg (by simpa using hempty)]
  split
  · simp [List.filter_cons, hempty]
  · simp [List.filter_cons, List.filter_append, hempty, hentries]

theorem filter_headingMark (r : FileReport) :
    r.leadingLines.filter (headingMark <+: ·) = [headingLine r.fileIndex] := by
  have hother : ∀ l : Text, l.head? ≠ some '-' → ¬ headingMark <+: l :=
    fun _ => Text.not_isPrefix_of_head?_ne rfl
  have hheading : headingMark <+: headingLine r.fileIndex :=
    (List.prefix_append _ _).trans (List.prefix_append _ _)
  have hcorrect := hother correctLine (by simp)
  have hentry := fun d => hother (firstEntryLine d) (by simp)
  have htotal := hother (totalLine r.fileIndex r.errorCount) (by simp)
  unfold leadingLines
  split <;> simp [hheading, hcorrect, hentry, htotal]

theorem filter_errorMark (hr : r.valid = false) :
    r.leadingLines.filter (errorMark <+: ·) = r.diagnostics.map firstEntryLine := by
  have hother : ∀ l : Text, l.head? ≠ some 'E' → ¬ errorMark <+: l :=
    fun _ => Text.not_isPrefix_of_head?_ne rfl
  have hentry : ∀ d, errorMark <+: firstEntryLine d := fun d =>
    ((List.prefix_append _ _).trans (List.prefix_append _ _)).trans (List.prefix_append _ _)
  have hheading := hother (headingLine r.fileIndex) (by simp)
  have htotal := hother (totalLine r.fileIndex r.errorCount) (by simp)
  simp [leadingLines, hr, hheading, hentry, htotal]

theorem filter_totalMark (hr : r.valid = false) :
    r.leadingLines.filter (totalMark <+: ·) = [totalLine r.fileIndex r.errorCount] := by
  have hother : ∀ l : Text, l.head? ≠ some 'T' → ¬ totalMark <+: l :=
    fun _ => Text.not_isPrefix_of_head?_ne rfl
  have htotal : totalMark <+: totalLine r.fileIndex r.errorCount := by
    simp only [totalLine, List.append_assoc]
    exact List.prefix_append _ _
  have hheading := hother (headingLine r.fileIndex) (by simp)
  have hentry := fun d => hother (firstEntryLine d) (by simp)
  simp [leadingLines, hr, hheading, hentry, htotal]

theorem correctLine_notMem_leadingLines (hr : r.valid = false) :
    correctLine ∉ r.leadingLines := by
  intro hmem
  have hhead : ∀ l ∈ r.leadingLines, l.head? ≠ some 'S' := by
    intro l hl
    simp only [leadingLines, hr, Bool.false_eq_true, if_false, List.mem_cons, List.mem_append,
      List.mem_map, List.not_mem_nil, or_false] at hl
    rcases hl with rfl | ⟨d, -, rfl⟩ | rfl
    · simp
    · simp
    · simp
  exact hhead correctLine hmem head?_correctLine

theorem blockLines_of_valid (hr : r.valid = true) :
    r.blockLines = [[], headingLine r.fileIndex, correctLine, []] := by
  rw [blockLines, if_pos hr]

theorem blockLines_of_invalid (hr : r.valid = false) :
    r.blockLines = [] :: headingLine r.fileIndex ::
      (r.diagnostics.flatMap entryLines ++ [totalLine r.fileIndex r.errorCount, []]) := by
  rw [blockLines, if_neg (Bool.eq_false_iff.mp hr)]

/-- The line behind the heading shows whether the syntax is correct. -/
theorem valid_of_blockLines {r' : FileReport} {rest rest' : List Text}
    (h : r.blockLines ++ rest = r'.blockLines ++ rest') (hr : r.valid = true) :
    r'.valid = true := by
  by_contra hinvalid
  have hr' := Bool.eq_false_iff.mpr hinvalid
  rw [blockLines_of_valid hr, blockLines_of_invalid hr'] at h
  have hbody := (List.cons.inj (List.cons.inj h).2).2
  cases hd : r'.diagnostics with
  | nil => exact hinvalid (List.isEmpty_iff.mpr hd)
  | cons d ds =>
    rw [hd] at hbody
    exact absurd (List.cons.inj hbody).1 (by decide)

/-- A block says that the syntax is correct exactly where the report is valid. -/
theorem correctLine_mem_blockLines (hr : r.HasMessages) :
    correctLine ∈ r.blockLines ↔ r.valid = true := by
  constructor
  · intro hmem
    by_contra hinvalid
    have hkept : correctLine ∈ r.blockLines.filter (correctLine <+: ·) :=
      List.mem_filter.mpr ⟨hmem, by simp⟩
    rw [filter_blockLines hr head?_correctLine (by decide)] at hkept
    exact correctLine_notMem_leadingLines (Bool.eq_false_iff.mpr hinvalid)
      (List.mem_filter.mp hkept).1
  · intro hvalid
    simp [blockLines, hvalid]

end FileReport

namespace FailedAttempt

theorem exists_message_of_mem {index line : Nat} {fs : List FailedAttempt} {d : Diagnostic}
    (hd : d ∈ diagnosticsFrom index line fs) :
    ∃ (e : SyntaxError) (n : Nat), d.message = e.messageAt n := by
  induction fs generalizing index line with
  | nil => cases hd
  | cons f fs ih =>
    rcases List.mem_cons.mp hd with rfl | hmem
    · exact ⟨f.error, _, rfl⟩
    · exact ih hmem

/-- Diagnostics are numbered in their order. -/
theorem map_diagnosticsFrom (index line : Nat) (fs : List FailedAttempt) :
    (diagnosticsFrom index line fs).map (fun d => (d.message, d.index)) =
      ((diagnosticsFrom index line fs).map (·.message)).zipIdx (index + 1) := by
  induction fs generalizing index line with
  | nil => rfl
  | cons f fs ih =>
    rw [diagnosticsFrom, List.map_cons, List.map_cons, List.zipIdx_cons, ih]
    rfl

/-- The lines of an entry show its message, once its number is known. -/
theorem message_eq_of_entryLines {d d' : Diagnostic}
    (h : FileReport.entryLines d = FileReport.entryLines d') (hindex : d.index = d'.index) :
    d.message = d'.message := by
  obtain ⟨first, more, hlines⟩ := List.exists_cons_of_ne_nil d.message.lines_ne_nil
  obtain ⟨first', more', hlines'⟩ := List.exists_cons_of_ne_nil d'.message.lines_ne_nil
  simp only [FileReport.entryLines, hlines, hlines', List.modifyHead_cons, hindex] at h
  obtain ⟨hfirst, rfl⟩ := List.cons.inj (List.cons.inj h).2
  obtain rfl := List.append_cancel_left hfirst
  exact Text.lines_injective (hlines.trans hlines'.symm)

/-- Entries that are followed by a line with text can be told from their lines. An
entry begins with an empty line, and it has as many lines as every other. -/
theorem messages_eq_of_lines {index line line' : Nat} {fs fs' : List FailedAttempt}
    {next next' : Text} {rest rest' : List Text} (hnext : next ≠ []) (hnext' : next' ≠ [])
    (h : (diagnosticsFrom index line fs).flatMap FileReport.entryLines ++ next :: rest =
      (diagnosticsFrom index line' fs').flatMap FileReport.entryLines ++ next' :: rest') :
    (diagnosticsFrom index line fs).map (·.message) =
      (diagnosticsFrom index line' fs').map (·.message) ∧ rest = rest' := by
  induction fs generalizing index line line' fs' with
  | nil =>
    cases fs' with
    | nil => exact ⟨rfl, (List.cons.inj h).2⟩
    | cons f' fs' => exact absurd (List.cons.inj h).1 hnext
  | cons f fs ih =>
    cases fs' with
    | nil => exact absurd (List.cons.inj h).1.symm hnext'
    | cons f' fs' =>
      simp only [diagnosticsFrom, List.flatMap_cons, List.append_assoc] at h
      have hlength : ∀ (g : FailedAttempt) (i l : Nat),
          (FileReport.entryLines (g.diagnostic i l)).length = 7 :=
        fun g i l => FileReport.length_entryLines rfl
      obtain ⟨hentry, hmore⟩ := List.append_inj h ((hlength ..).trans (hlength ..).symm)
      obtain ⟨hmessages, hrest⟩ := ih hmore
      have hmessage := message_eq_of_entryLines hentry rfl
      refine ⟨?_, hrest⟩
      rw [diagnosticsFrom, diagnosticsFrom, List.map_cons, List.map_cons, hmessages, hmessage]

end FailedAttempt

theorem hasMessages_check (text : Text) (fileIndex : Nat) :
    (check text fileIndex).HasMessages := by
  obtain ⟨fs, h⟩ := Attempts.exists_check text
  intro d hd
  rw [h.diagnostics_check] at hd
  exact FailedAttempt.exists_message_of_mem hd

theorem valid_check_iff (text : Text) (fileIndex : Nat) :
    (check text fileIndex).valid = true ↔ recognize text = .ok () := by
  obtain ⟨fs, h⟩ := Attempts.exists_check text
  rw [FileReport.valid, h.diagnostics_check, List.isEmpty_iff,
    FailedAttempt.diagnosticsFrom_eq_nil]
  exact h.eq_nil_iff (Text.dropBytes?_zero text)

/-- A block shows what a check found and where the block ends. -/
theorem blockLines_append_inj {text text' : Text} {fileIndex : Nat} {rest rest' : List Text}
    (h : (check text fileIndex).blockLines ++ rest = (check text' fileIndex).blockLines ++ rest') :
    (check text fileIndex).valid = (check text' fileIndex).valid ∧
      (check text fileIndex).diagnostics.map (·.message) =
        (check text' fileIndex).diagnostics.map (·.message) ∧ rest = rest' := by
  have hvalid : (check text fileIndex).valid = (check text' fileIndex).valid :=
    Bool.eq_iff_iff.mpr
      ⟨FileReport.valid_of_blockLines h, FileReport.valid_of_blockLines h.symm⟩
  refine ⟨hvalid, ?_⟩
  cases hr : (check text fileIndex).valid with
  | true =>
    have hr' := hvalid.symm.trans hr
    rw [FileReport.blockLines_of_valid hr, FileReport.blockLines_of_valid hr'] at h
    refine ⟨?_, List.append_cancel_left h⟩
    rw [List.isEmpty_iff.mp hr, List.isEmpty_iff.mp hr']
  | false =>
    have hr' := hvalid.symm.trans hr
    rw [FileReport.blockLines_of_invalid hr, FileReport.blockLines_of_invalid hr'] at h
    simp only [List.cons_append, List.append_assoc, List.nil_append] at h
    have hbody := (List.cons.inj (List.cons.inj h).2).2
    obtain ⟨fs, hfs⟩ := Attempts.exists_check text
    obtain ⟨fs', hfs'⟩ := Attempts.exists_check text'
    rw [hfs.diagnostics_check, hfs'.diagnostics_check] at hbody ⊢
    obtain ⟨hmessages, hrest⟩ := FailedAttempt.messages_eq_of_lines
      (FileReport.totalLine_ne_nil _ _) (FileReport.totalLine_ne_nil _ _) hbody
    exact ⟨hmessages, (List.cons.inj hrest).2⟩

/-- The lines of the blocks of files in a row. -/
def blocksLines (files : List (Text × Nat)) : List Text :=
  files.flatMap fun file => (check file.1 file.2).blockLines

theorem lines_blocks (files : List (Text × Nat)) :
    Text.lines (files.flatMap fun file => fileBlock file.1 file.2) = blocksLines files ++ [[]] := by
  induction files with
  | nil => exact Text.lines_nil
  | cons file files ih =>
    rw [List.flatMap_cons, fileBlock, FileReport.lines_render_append, ih, blocksLines, blocksLines,
      List.flatMap_cons, List.append_assoc]

def bannerLine : Text := "CMP321 Parser Project".toList

theorem lines_aggregate (texts : List Text) :
    (aggregate texts).lines = bannerLine :: blocksLines (texts.zipIdx 1) ++ [[]] := by
  have hbanner : ∀ rest : Text, banner ++ rest = bannerLine ++ '\n' :: rest := by
    intro rest
    unfold banner bannerLine
    simp
  rw [aggregate, hbanner, Text.lines_line_append (by decide), lines_blocks]
  rfl

/-- Blocks can be told apart from their lines, one after another. -/
theorem eq_of_blocksLines {texts texts' : List Text} {first : Nat}
    (h : blocksLines (texts'.zipIdx first) ++ [[]] = blocksLines (texts.zipIdx first) ++ [[]]) :
    texts'.length = texts.length ∧
      ∀ k text text', texts[k]? = some text → texts'[k]? = some text' →
        (check text' (first + k)).valid = (check text (first + k)).valid ∧
          (check text' (first + k)).diagnostics.map (·.message) =
            (check text (first + k)).diagnostics.map (·.message) := by
  have hblock : ∀ (text : Text) (more : List (Text × Nat)),
      blocksLines ((text, first) :: more) ++ [[]] ≠ [[]] := by
    intro text more hnil
    cases (List.cons.inj hnil).2
  induction texts generalizing texts' first with
  | nil =>
    cases texts' with
    | nil => exact ⟨rfl, by simp⟩
    | cons text' texts' => exact absurd h (hblock text' _)
  | cons text texts ih =>
    cases texts' with
    | nil => exact absurd h.symm (hblock text _)
    | cons text' texts' =>
      simp only [List.zipIdx_cons, blocksLines, List.flatMap_cons, List.append_assoc] at h
      obtain ⟨hvalid, hmessages, hrest⟩ := blockLines_append_inj h
      obtain ⟨hlength, hall⟩ := ih hrest fun text more hnil => by cases (List.cons.inj hnil).2
      refine ⟨congrArg (· + 1) hlength, ?_⟩
      intro k u u' hu hu'
      cases k with
      | zero =>
        obtain rfl := Option.some.inj hu
        obtain rfl := Option.some.inj hu'
        exact ⟨hvalid, hmessages⟩
      | succ k =>
        have hnext := hall k u u' hu hu'
        rwa [Nat.add_assoc, Nat.add_comm 1 k] at hnext

theorem linesWith_headingMark_aggregate (texts : List Text) :
    (aggregate texts).linesWith FileReport.headingMark =
      (List.range' 1 texts.length).map FileReport.headingLine := by
  have hfront : FileReport.headingMark.head? = some '-' := rfl
  have hempty := Text.not_isPrefix_nil hfront
  have hbanner : ¬ FileReport.headingMark <+: bannerLine :=
    Text.not_isPrefix_of_head?_ne hfront (by decide)
  have hblocks : ∀ first,
      (blocksLines (texts.zipIdx first)).filter (FileReport.headingMark <+: ·) =
        (List.range' first texts.length).map FileReport.headingLine := by
    intro first
    induction texts generalizing first with
    | nil => rfl
    | cons text texts ih =>
      rw [List.zipIdx_cons, blocksLines, List.flatMap_cons, List.filter_append,
        FileReport.filter_blockLines (hasMessages_check text first) hfront (by decide),
        FileReport.filter_headingMark]
      exact congrArg (FileReport.headingLine first :: ·) (ih (first + 1))
  rw [Text.linesWith, lines_aggregate, List.cons_append,
    List.filter_cons_of_neg (by simpa using hbanner), List.filter_append, hblocks]
  simp [hempty]

/-- Of the lines of a block that begin like one of its own none is a quoted one. -/
theorem linesWith_fileBlock {front : Text} {c : Char} (hfront : front.head? = some c)
    (hc : ¬ (c = ' ' ∨ c.isDigit = true)) (text : Text) (fileIndex : Nat) :
    (fileBlock text fileIndex).linesWith front =
      (check text fileIndex).leadingLines.filter (front <+: ·) := by
  have hempty := Text.not_isPrefix_nil hfront
  rw [Text.linesWith, fileBlock, FileReport.lines_render, List.filter_append,
    FileReport.filter_blockLines (hasMessages_check text fileIndex) hfront hc]
  simp [hempty]

theorem map_firstEntryLine_check (text : Text) (fileIndex : Nat) :
    (check text fileIndex).diagnostics.map FileReport.firstEntryLine =
      (((check text fileIndex).diagnostics.map (·.message)).zipIdx 1).map
        (fun entry => FileReport.errorLine entry.2 (entry.1.lines.headD [])) := by
  obtain ⟨fs, h⟩ := Attempts.exists_check text
  rw [h.diagnostics_check, ← FailedAttempt.map_diagnosticsFrom, List.map_map]
  rfl

theorem correctLine_mem_fileBlock (text : Text) (fileIndex : Nat) :
    FileReport.correctLine ∈ (fileBlock text fileIndex).lines ↔ recognize text = .ok () := by
  have hempty : FileReport.correctLine ≠ [] := by decide
  rw [← valid_check_iff text fileIndex,
    ← FileReport.correctLine_mem_blockLines (hasMessages_check text fileIndex), fileBlock,
    FileReport.lines_render]
  simp [hempty]

/-- A report can be read without its files. Its headings are those of the files in
their order. The block of a file says that the syntax is correct exactly where the
file is recognized; otherwise its errors are numbered in their order, there are as
many of them as are counted, and it names the file and this count in its one total.
The report shows how many files there are, which of them are valid, and the messages
of each. -/
theorem aggregate_decodes (texts : List Text) :
    (aggregate texts).linesWith FileReport.headingMark =
        (List.range' 1 texts.length).map FileReport.headingLine ∧
      (∀ k text, texts[k]? = some text →
        (FileReport.correctLine ∈ (fileBlock text (k + 1)).lines ↔ recognize text = .ok ()) ∧
        (recognize text ≠ .ok () →
          (fileBlock text (k + 1)).linesWith FileReport.errorMark =
              (((check text (k + 1)).diagnostics.map (·.message)).zipIdx 1).map
                (fun entry => FileReport.errorLine entry.2 (entry.1.lines.headD [])) ∧
            ((fileBlock text (k + 1)).linesWith FileReport.errorMark).length =
              (check text (k + 1)).errorCount ∧
            (fileBlock text (k + 1)).linesWith FileReport.totalMark =
              [FileReport.totalLine (k + 1) (check text (k + 1)).errorCount])) ∧
      ∀ texts', aggregate texts' = aggregate texts →
        texts'.length = texts.length ∧
          ∀ k text text', texts[k]? = some text → texts'[k]? = some text' →
            (check text' (k + 1)).valid = (check text (k + 1)).valid ∧
              (check text' (k + 1)).diagnostics.map (·.message) =
                (check text (k + 1)).diagnostics.map (·.message) := by
  refine ⟨linesWith_headingMark_aggregate texts, ?_, ?_⟩
  · intro k text _
    refine ⟨correctLine_mem_fileBlock text (k + 1), ?_⟩
    intro hrejected
    have hinvalid : (check text (k + 1)).valid = false :=
      Bool.eq_false_iff.mpr fun hvalid => hrejected ((valid_check_iff text (k + 1)).mp hvalid)
    have herror : FileReport.errorMark.head? = some 'E' := rfl
    have htotal : FileReport.totalMark.head? = some 'T' := rfl
    rw [linesWith_fileBlock herror (by decide), linesWith_fileBlock htotal (by decide),
      FileReport.filter_errorMark hinvalid, FileReport.filter_totalMark hinvalid]
    refine ⟨map_firstEntryLine_check text (k + 1), ?_, rfl⟩
    rw [List.length_map, FileReport.errorCount]
  · intro texts' h
    have hlines := congrArg Text.lines h
    rw [lines_aggregate, lines_aggregate] at hlines
    have hblocks := eq_of_blocksLines (List.cons.inj hlines).2
    simpa only [Nat.add_comm 1] using hblocks

end HornSyntax
