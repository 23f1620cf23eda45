import HornSyntax.Proofs.LineNumbers
import HornSyntax.Proofs.Reachable

/-!
The order and the bounds of a report. Between two errors lies a run of
terminators, so there is at most one error more than there are runs, and with
every error the offset and the line grow. A line never exceeds the bytes before
its error by more than one.
-/

namespace HornSyntax

/-- The order and the bounds of a report on a text. -/
structure FileReport.Orderly (r : FileReport) (text : Text) : Prop where
  index_eq : ∀ k d, r.diagnostics[k]? = some d → d.index = k + 1
  line_lt : r.diagnostics.Pairwise fun d d' => d.line < d'.line
  offset_lt : r.diagnostics.Pairwise fun d d' => d.offset < d'.offset
  dot_mem : r.diagnostics.Pairwise fun d d' => '.' ∈ text.slice d.offset d'.offset
  offset_le : ∀ d ∈ r.diagnostics, d.offset ≤ text.bytes
  line_le : ∀ d ∈ r.diagnostics, d.line ≤ text.bytes + 1
  length_le : r.diagnostics.length ≤ text.terminatorRuns + 1

/-- A diagnostic of a text on a later line than the given one and not before the
given byte. Its line does not exceed the bytes before it by more than one. -/
structure Diagnostic.Follows (d : Diagnostic) (text : Text) (start line : Nat) : Prop where
  line_lt : line < d.line
  le_offset : start ≤ d.offset
  offset_le : d.offset ≤ text.bytes
  line_le : d.line ≤ d.offset + 1

theorem Diagnostic.Follows.mono {d : Diagnostic} {text : Text} {start start' line line' : Nat}
    (h : d.Follows text start line) (hstart : start' ≤ start) (hline : line' ≤ line) :
    d.Follows text start' line' :=
  ⟨Nat.lt_of_le_of_lt hline h.line_lt, Nat.le_trans hstart h.le_offset, h.offset_le, h.line_le⟩

namespace FailedAttempt

variable {f : FailedAttempt} {text tail left dots rest : Text}

theorem Occurs.offset_le (h : f.Occurs text tail) : f.offset ≤ text.bytes := by
  obtain ⟨before, htext, hstart⟩ := h.exists_before
  rw [htext, Text.bytes_append, Text.bytes_append, offset, SyntaxError.offset]
  omega

/-- A terminator lies between an error and what the next attempt reads. -/
theorem Occurs.dot_mem_slice (h : f.Occurs text tail) (hcut : tail.Cut left dots rest) :
    '.' ∈ text.slice f.offset (f.offset + Text.bytes (left ++ dots)) := by
  obtain ⟨before, htext, hbefore⟩ := Text.dropBytes?_eq_some_iff.mp h.dropBytes?_eq
  rw [hcut.text_eq, ← List.append_assoc left] at htext
  rw [htext, ← hbefore, Text.slice_bytes]
  obtain ⟨c, hc⟩ := List.exists_mem_of_ne_nil dots hcut.dots_ne_nil
  rw [← hcut.eq_of_mem_dots c hc]
  exact List.mem_append_right left hc

/-- Where the lines counted so far do not exceed the bytes passed, they exceed
them by at most one at the next error. -/
theorem Occurs.follows {line : Nat} (h : f.Occurs text tail) (index : Nat)
    (hline : line ≤ f.start) :
    (f.diagnostic index (line + f.error.line)).Follows text f.start line := by
  have hfeeds := Text.count_le_bytes f.error.before '\n'
  constructor
  · exact Nat.lt_add_of_pos_right (Nat.succ_pos _)
  · exact Nat.le_add_right _ _
  · exact h.offset_le
  · simp only [diagnostic, offset, SyntaxError.line, SyntaxError.offset]
    omega

/-- The terminators that are skipped pay for the line of the attempt before them. -/
theorem line_le_next {line : Nat} (hcut : tail.Cut left dots rest) (hline : line ≤ f.start) :
    line + f.error.line ≤ f.offset + Text.bytes (left ++ dots) := by
  have hfeeds := Text.count_le_bytes f.error.before '\n'
  have hpos := hcut.bytes_pos
  rw [offset, SyntaxError.line, SyntaxError.offset]
  omega

/-- The terminators from an error on are among those the attempt had before it. -/
theorem Occurs.terminatorRuns_le (h : f.Occurs text tail)
    (hrest : Text.dropBytes? f.start text = some rest) :
    tail.terminatorRuns ≤ rest.terminatorRuns := by
  have hread := Text.dropBytes?_eq_some_iff.mpr h.exists_before
  rw [Option.some.inj (hrest.symm.trans hread)]
  exact Text.terminatorRuns_le_append f.error.before tail

end FailedAttempt

namespace Attempts

open FailedAttempt (diagnosticsFrom)

variable {text rest : Text} {start line : Nat} {fs : List FailedAttempt}

/-- The diagnostics of a chain follow its start. -/
theorem follows_of_mem (h : Attempts text start fs) (index : Nat) (hline : line ≤ start) :
    ∀ d ∈ diagnosticsFrom index line fs, d.Follows text start line := by
  induction h generalizing index line with
  | recognized => simp [diagnosticsFrom]
  | unterminated hoccurs | white hoccurs =>
    exact List.forall_mem_singleton.mpr (hoccurs.follows (index + 1) hline)
  | @resumed start e tail left dots rest fs hoccurs hcut _ _ ih =>
    have hnext := FailedAttempt.line_le_next (f := ⟨start, e⟩) hcut hline
    refine List.forall_mem_cons.mpr ⟨hoccurs.follows (index + 1) hline, ?_⟩
    intro d hd
    have hstart : start ≤ start + e.offset + Text.bytes (left ++ dots) := by omega
    exact (ih (index + 1) hnext d hd).mono hstart (Nat.le_add_right _ _)

/-- Lines and offsets grow along a chain, with a terminator from each error to the next. -/
theorem pairwise (h : Attempts text start fs) (index : Nat) (hline : line ≤ start) :
    (diagnosticsFrom index line fs).Pairwise fun d d' =>
      d.line < d'.line ∧ d.offset < d'.offset ∧ '.' ∈ text.slice d.offset d'.offset := by
  induction h generalizing index line with
  | recognized => exact List.Pairwise.nil
  | unterminated | white => exact List.pairwise_singleton _ _
  | @resumed start e tail left dots rest fs hoccurs hcut _ hnext ih =>
    have hle := FailedAttempt.line_le_next (f := ⟨start, e⟩) hcut hline
    have hdot := hoccurs.dot_mem_slice hcut
    have hpos := hcut.bytes_pos
    apply List.Pairwise.cons
    · intro d hd
      have hfollows := hnext.follows_of_mem (index + 1) hle d hd
      have hoffset : start + e.offset ≤ start + e.offset + Text.bytes (left ++ dots) :=
        Nat.le_add_right _ _
      refine ⟨hfollows.line_lt, ?_, Text.mem_slice_of_le hoffset hfollows.le_offset hdot⟩
      exact Nat.lt_of_lt_of_le (Nat.lt_add_of_pos_right hpos) hfollows.le_offset
    · exact ih (index + 1) hle

/-- Every failure but the last one uses up a run of terminators. -/
theorem length_le (h : Attempts text start fs) (hrest : Text.dropBytes? start text = some rest) :
    fs.length ≤ rest.terminatorRuns + 1 := by
  induction h generalizing rest with
  | recognized => simp
  | unterminated | white => simp
  | @resumed start e tail left dots next fs hoccurs hcut _ _ ih =>
    have hnext := ih (hoccurs.dropBytes?_cut hcut)
    have hless := hcut.terminatorRuns_lt
    have hmore := hoccurs.terminatorRuns_le hrest
    rw [List.length_cons]
    omega

end Attempts

/-- Every report of a check is in order. -/
theorem check_orderly (text : Text) (fileIndex : Nat) : (check text fileIndex).Orderly text := by
  obtain ⟨fs, h⟩ := Attempts.exists_check text
  have hdiagnostics := h.diagnostics_check fileIndex
  have hpairwise := h.pairwise 0 (Nat.le_refl 0)
  have hfollows := h.follows_of_mem 0 (Nat.le_refl 0)
  rw [← hdiagnostics] at hpairwise hfollows
  constructor
  · intro k d hd
    rw [hdiagnostics, FailedAttempt.getElem?_diagnosticsFrom] at hd
    obtain ⟨f, -, rfl⟩ := Option.map_eq_some_iff.mp hd
    exact Nat.zero_add (k + 1) ▸ rfl
  · exact hpairwise.imp fun hd => hd.1
  · exact hpairwise.imp fun hd => hd.2.1
  · exact hpairwise.imp fun hd => hd.2.2
  · intro d hd
    exact (hfollows d hd).offset_le
  · intro d hd
    have hline := (hfollows d hd).line_le
    have hoffset := (hfollows d hd).offset_le
    omega
  · rw [hdiagnostics, FailedAttempt.length_diagnosticsFrom]
    exact h.length_le (Text.dropBytes?_zero text)

/-- A check comes to an end, and its report is in order. On the way there no sum
of offsets, lines or numbers exceeds the bytes of the text by more than one, and
whatever a step changes in a counter or puts down in a diagnostic is such a sum. -/
theorem check_ends_orderly (text : Text) (fileIndex : Nat) :
    Recovery.Ends text .scanning .initial (Recovery.finish text) ∧
      (check text fileIndex).Orderly text ∧
      (∀ fuel, ∀ sum ∈ Recovery.sums text (Recovery.run text fuel .scanning .initial).1
        (Recovery.run text fuel .scanning .initial).2, sum ≤ text.bytes + 1) ∧
      ∀ phase s, (Recovery.step text phase s).2.consumed ∈
          s.consumed :: Recovery.sums text phase s ∧
        (Recovery.step text phase s).2.lineCount ∈ s.lineCount :: Recovery.sums text phase s ∧
        ∀ d ∈ (Recovery.step text phase s).2.diagnostics,
          d ∈ s.diagnostics ∨
            ∀ n ∈ [d.line, d.index, d.offset], n ∈ Recovery.sums text phase s := by
  refine ⟨Recovery.ends_run (Recovery.run_fuel_phase text), check_orderly text fileIndex, ?_,
    Recovery.step_mem_sums text⟩
  intro fuel
  exact (Recovery.sound_run text fuel).sum_le

end HornSyntax
