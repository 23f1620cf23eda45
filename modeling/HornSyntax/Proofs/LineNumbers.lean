import HornSyntax.Proofs.Chain
import HornSyntax.Proofs.Position
import Mathlib

/-!
Lines and columns of diagnostics in terms of the text. The line of a diagnostic
counts the line feeds that the attempts up to its own read before their errors,
and one more for every attempt. So it runs ahead of the line in the file by one
for every earlier attempt, and falls back by the line feeds that were skipped.
The column counts characters from the start of the line or of the attempt.
-/

namespace HornSyntax

namespace FailedAttempt

/-- The line feeds between the starts of attempts and their errors. -/
def feedsRead (text : Text) : List FailedAttempt → Nat
  | [] => 0
  | f :: fs => (text.slice f.start f.offset).count '\n' + feedsRead text fs

/-- The line feeds between errors and the starts of the attempts after them. -/
def feedsSkipped (text : Text) : List FailedAttempt → Nat
  | f :: g :: fs => (text.slice f.offset g.start).count '\n' + feedsSkipped text (g :: fs)
  | _ => 0

variable {f : FailedAttempt} {text tail : Text}

theorem count_upTo_offset (text : Text) (f : FailedAttempt) :
    (text.upTo f.offset).count '\n' =
      (text.upTo f.start).count '\n' + (text.slice f.start f.offset).count '\n' :=
  (Text.count_upTo_add_count_slice (Nat.le_add_right _ _) '\n').symm

/-- What an attempt reads before its error is a stretch of the text. -/
theorem Occurs.slice_eq (h : f.Occurs text tail) :
    text.slice f.start f.offset = f.error.before := by
  obtain ⟨before, htext, hstart⟩ := h.exists_before
  rw [offset, SyntaxError.offset, ← hstart, htext, Text.slice_bytes]

theorem Occurs.line_eq (h : f.Occurs text tail) :
    f.error.line = (text.slice f.start f.offset).count '\n' + 1 := by
  rw [h.slice_eq, SyntaxError.line]

/-- The last line that an attempt reads reaches up to its error. -/
theorem Occurs.slice_lineStart_eq (h : f.Occurs text tail) :
    text.slice (max f.start (text.lineStart f.offset)) f.offset = f.error.before.lastLine := by
  obtain ⟨before, htext, hstart⟩ := h.exists_before
  rw [offset, SyntaxError.offset, ← hstart, htext, Text.slice_lineStart]

theorem Occurs.column_eq (h : f.Occurs text tail) :
    f.error.column =
      (text.slice (max f.start (text.lineStart f.offset)) f.offset).length + 1 := by
  rw [h.slice_lineStart_eq, SyntaxError.column]

theorem lines_eq {fs : List FailedAttempt} (h : ∀ f ∈ fs, ∃ tail, f.Occurs text tail) :
    lines fs = fs.length + feedsRead text fs := by
  induction fs with
  | nil => rfl
  | cons f fs ih =>
    obtain ⟨⟨tail, hf⟩, hfs⟩ := List.forall_mem_cons.mp h
    rw [lines_cons, hf.line_eq, ih hfs, feedsRead, List.length_cons]
    omega

end FailedAttempt

open FailedAttempt (feedsRead feedsSkipped)

namespace Attempts

variable {text : Text} {start k : Nat} {f : FailedAttempt} {fs : List FailedAttempt}

/-- Up to an error of a chain every line feed is read by an attempt or skipped
between two of them. -/
theorem count_upTo_offset (h : Attempts text start fs) (hf : fs[k]? = some f) :
    (text.upTo f.offset).count '\n' = (text.upTo start).count '\n' +
      feedsRead text (fs.take (k + 1)) + feedsSkipped text (fs.take (k + 1)) := by
  induction h generalizing k with
  | recognized => simp at hf
  | unterminated | white =>
    cases k with
    | zero =>
      obtain rfl := Option.some.inj hf
      exact FailedAttempt.count_upTo_offset text _
    | succ k => simp at hf
  | @resumed start e tail left dots rest fs _ _ _ hnext ih =>
    have hfirst := FailedAttempt.count_upTo_offset text ⟨start, e⟩
    cases k with
    | zero =>
      obtain rfl := Option.some.inj hf
      exact hfirst
    | succ k =>
      rw [List.getElem?_cons_succ] at hf
      cases fs with
      | nil => simp at hf
      | cons g more =>
        have hle : start + e.offset ≤ g.start := by
          rw [hnext.start_eq]
          exact Nat.le_add_right _ _
        have hskipped : (text.upTo (start + e.offset)).count '\n' +
            (text.slice (start + e.offset) g.start).count '\n' = (text.upTo g.start).count '\n' :=
          Text.count_upTo_add_count_slice hle '\n'
        have hrest := ih hf
        rw [← hnext.start_eq] at hrest
        simp only [List.take_succ_cons, feedsRead, feedsSkipped, FailedAttempt.offset]
          at hfirst hskipped hrest ⊢
        omega

end Attempts

variable {text : Text} {fs : List FailedAttempt} {k : Nat} {d : Diagnostic}

/-- The line of a diagnostic is its number and the line feeds that were read up
to it. This is its line in the text, ahead by the number of earlier attempts and
behind by the line feeds that were skipped. Its column counts the characters
from the start of its line or of its attempt, whichever is later. -/
theorem check_line_column (h : Attempts text 0 fs) (fileIndex : Nat)
    (hd : (check text fileIndex).diagnostics[k]? = some d) :
    ∃ f, fs[k]? = some f ∧ d.offset = f.offset ∧
      d.line = k + 1 + feedsRead text (fs.take (k + 1)) ∧
      d.line + feedsSkipped text (fs.take (k + 1)) = text.lineAt d.offset + k ∧
      d.column = (text.slice (max f.start (text.lineStart d.offset)) d.offset).length + 1 := by
  rw [h.diagnostics_check, FailedAttempt.getElem?_diagnosticsFrom] at hd
  obtain ⟨f, hf, rfl⟩ := Option.map_eq_some_iff.mp hd
  obtain ⟨tail, hoccurs⟩ := h.occurs_of_mem f (List.mem_of_getElem? hf)
  have hline : FailedAttempt.lines (fs.take (k + 1)) =
      k + 1 + feedsRead text (fs.take (k + 1)) := by
    have hlt := (List.getElem?_eq_some_iff.mp hf).1
    have hlength : (fs.take (k + 1)).length = k + 1 := by
      rw [List.length_take]
      omega
    have hall : ∀ g ∈ fs.take (k + 1), ∃ tail, g.Occurs text tail :=
      fun g hg => h.occurs_of_mem g (List.mem_of_mem_take hg)
    rw [FailedAttempt.lines_eq hall, hlength]
  have hcount := h.count_upTo_offset hf
  have hzero : (text.upTo 0).count '\n' = 0 := by
    have hempty : text.upTo 0 = [] := Text.upTo_bytes [] text
    rw [hempty, List.count_nil]
  refine ⟨f, hf, rfl, ?_, ?_, hoccurs.column_eq⟩
  · simp only [FailedAttempt.diagnostic]
    omega
  · simp only [FailedAttempt.diagnostic, Text.lineAt]
    omega

/-- An error on the second line is reported there although a line feed before it
was skipped, since the earlier attempt adds a line. The carriage return does not. -/
theorem check_line_column_behind_feed :
    ∃ (text : Text) (fs : List FailedAttempt) (d : Diagnostic),
      text = "a(é,\r\n.\rb(ü. ?- a.".toList ∧ Attempts text 0 fs ∧
      (check text 1).diagnostics[1]? = some d ∧ d.offset = 11 ∧ d.line = 2 ∧ d.column = 4 ∧
      d.line = 2 + feedsRead text (fs.take 2) ∧
      d.line + feedsSkipped text (fs.take 2) = text.lineAt d.offset + 1 := by
  generalize htext : "a(é,\r\n.\rb(ü. ?- a.".toList = text
  have hfirst : recognize "a(é,\r\n.\rb(ü. ?- a.".toList =
      .error ⟨"a(".toList, "é,\r\n.\rb(ü. ?- a.".toList, [.term]⟩ := by cbv
  have hsecond : recognize "\rb(ü. ?- a.".toList =
      .error ⟨"\rb(".toList, "ü. ?- a.".toList, [.term]⟩ := by cbv
  have hthird : recognize " ?- a.".toList = .ok () := by cbv
  have hcut : Text.Cut ("é,\r\n".toList ++ '.' :: "\rb(ü. ?- a.".toList) "é,\r\n".toList ['.']
      "\rb(ü. ?- a.".toList := Text.cut_single (by decide) (by decide)
  have hcut' : Text.Cut (['ü'] ++ '.' :: " ?- a.".toList) ['ü'] ['.'] " ?- a.".toList :=
    Text.cut_single (by decide) (by decide)
  have hlast : Attempts text 14 [] := .recognized (by rw [← htext]; decide) hthird
  have hnext : Attempts text 8 [⟨8, ⟨"\rb(".toList, "ü. ?- a.".toList, [.term]⟩⟩] :=
    .resumed (.of_recognize (by rw [← htext]; decide) hsecond) hcut' (by decide) hlast
  have h : Attempts text 0 [⟨0, ⟨"a(".toList, "é,\r\n.\rb(ü. ?- a.".toList, [.term]⟩⟩,
      ⟨8, ⟨"\rb(".toList, "ü. ?- a.".toList, [.term]⟩⟩] :=
    .resumed (.of_recognize (by rw [← htext]; decide) hfirst) hcut (by decide) hnext
  obtain ⟨d, hd⟩ : ∃ d, (check text 1).diagnostics[1]? = some d := by
    rw [h.diagnostics_check]
    exact ⟨_, rfl⟩
  obtain ⟨f, hf, hoffset, hline, htrue, hcolumn⟩ := check_line_column h 1 hd
  obtain rfl := Option.some.inj hf
  subst htext
  refine ⟨_, _, d, rfl, h, hd, ?_, ?_, ?_, hline, htrue⟩
  · rw [hoffset]
    decide
  · rw [hline]
    decide
  · rw [hcolumn, hoffset]
    decide

end HornSyntax
