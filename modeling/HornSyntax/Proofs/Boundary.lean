import HornSyntax.Proofs.Beyond
import HornSyntax.Proofs.Leftover
import Mathlib

/-!
A run of terminators is one boundary, however long it is. More dots in the run
behind an error close no quotation, so the attempts up to that error fail as they
did. The next attempt skips the dots with the run, and reads on as before, later
by their number. So does every attempt after it.
-/

namespace HornSyntax

open CharacterClass

/-- A text with a number of dots in front. -/
def Text.dotted (count : Nat) (text : Text) : Text := List.replicate count '.' ++ text

namespace Text

variable {front left behind rest : Text} {count : Nat}

theorem bytes_dotted (count : Nat) (text : Text) :
    (dotted count text).bytes = count + text.bytes := by
  induction count with
  | zero => simp [dotted]
  | succ count ih =>
    have hsize : '.'.utf8Size = 1 := by decide
    have hcons : dotted (count + 1) text = '.' :: dotted count text := rfl
    rw [hcons, bytes_cons, ih, hsize]
    omega

/-- Dots close no quotation. -/
theorem Closes.of_dotted (h : (behind.dotted count).Closes) : behind.Closes := by
  obtain ⟨letters, rest, hletters, htext⟩ := h
  have hquote : '\'' ∉ List.replicate count '.' := by simp [List.mem_replicate]
  obtain ⟨between, rfl, hbehind⟩ := exists_append_of_notMem hquote htext
  rw [List.all_append, Bool.and_eq_true] at hletters
  exact ⟨between, rest, hletters.2, hbehind⟩

/-- The first run of a text takes in the dots that are put into it. -/
theorem Cut.dotted {before dots : Text} (h : Cut (left ++ '.' :: behind) before dots rest)
    (hleft : '.' ∉ left) (count : Nat) :
    ∃ wider, Cut (left ++ '.' :: behind.dotted count) left wider rest ∧
      bytes (left ++ wider) = bytes (before ++ dots) + count := by
  have htext := h.text_eq
  obtain ⟨dot, more, rfl⟩ := List.exists_cons_of_ne_nil h.dots_ne_nil
  obtain rfl : dot = '.' := h.eq_of_mem_dots dot List.mem_cons_self
  obtain ⟨rfl, rfl⟩ := eq_of_append_cons hleft h.notMem_left htext
  refine ⟨'.' :: dotted count more, ⟨?_, hleft, by simp, ?_, h.ne_of_mem_head?⟩, ?_⟩
  · simp [Text.dotted]
  · intro c hc
    simp only [Text.dotted, List.mem_cons, List.mem_append, List.mem_replicate] at hc
    rcases hc with rfl | ⟨-, rfl⟩ | hmem
    · rfl
    · rfl
    · exact h.eq_of_mem_dots c (List.mem_cons_of_mem _ hmem)
  · rw [bytes_append, bytes_append, bytes_cons, bytes_cons, bytes_dotted]
    omega

/-- Whatever lies behind a later dot, the first run is the same. -/
theorem Cut.past_dot {text before dots inner beyond : Text}
    (h : text.Cut before dots (inner ++ '.' :: beyond)) (other : Text) :
    Cut (before ++ (dots ++ (inner ++ '.' :: other))) before dots (inner ++ '.' :: other) := by
  refine ⟨rfl, h.notMem_left, h.dots_ne_nil, h.eq_of_mem_dots, ?_⟩
  rw [head?_past_dot inner beyond other]
  exact h.ne_of_mem_head?

theorem all_isWhite_of_dot (inner other : Text) : (inner ++ '.' :: other).all isWhite = false :=
  List.all_eq_false.mpr ⟨'.', by simp, by decide⟩

/-- Of two cuts of a text the one after fewer bytes lies in front of the other. -/
theorem exists_between {tail : Text} (h : front ++ rest = left ++ tail)
    (hle : front.bytes ≤ left.bytes) :
    ∃ between, left = front ++ between ∧ rest = between ++ tail := by
  rcases List.append_eq_append_iff.mp h with ⟨between, hleft, hrest⟩ | ⟨extra, hfront, htail⟩
  · exact ⟨between, hleft, hrest⟩
  · rw [hfront, bytes_append] at hle
    obtain rfl := eq_nil_of_bytes_eq_zero (show bytes extra = 0 by omega)
    exact ⟨[], by simpa using hfront.symm, htail.symm⟩

end Text

namespace Attempts

open FailedAttempt (Aligned)

variable {text front front' : Text} {start count k : Nat} {f : FailedAttempt}
  {fs : List FailedAttempt}

theorem start_le_of_mem (h : Attempts text start fs) : ∀ f ∈ fs, start ≤ f.start := by
  induction h with
  | recognized => simp
  | unterminated | white => simp
  | resumed hoccurs hcut hmore hnext ih =>
    refine List.forall_mem_cons.mpr ⟨Nat.le_refl _, ?_⟩
    intro f hf
    have hle := ih f hf
    omega

/-- From a byte on there is one chain at most. -/
theorem unique {gs : List FailedAttempt} (h : Attempts text start fs)
    (h' : Attempts text start gs) : gs = fs :=
  (attemptsUntil_isWhite_iff.mpr h).unique (attemptsUntil_isWhite_iff.mpr h')

/-- The attempts on the rest of a text do not depend on what lies in front of it. -/
theorem replace_front (h : Attempts (front ++ text) front.bytes fs)
    (hbytes : front'.bytes = front.bytes + count) :
    Attempts (front' ++ text) front'.bytes (fs.map (FailedAttempt.later count)) := by
  obtain ⟨gs, hgs⟩ := exists_check text
  have hfs : fs = gs.map (FailedAttempt.later front.bytes) := (hgs.later front).unique h
  have hlater : (FailedAttempt.later count) ∘ FailedAttempt.later front.bytes =
      FailedAttempt.later front'.bytes := by
    funext f
    simp only [Function.comp, FailedAttempt.later, hbytes]
    congr 1
    omega
  rw [hfs, List.map_map, hlater]
  exact hgs.later front'

/-- More dots in the run behind a failure move the failures after it by their
number and leave the others as they are. -/
theorem widen {left behind : Text} (h : Attempts text start fs) (hf : fs[k]? = some f)
    (htext : text = front ++ (left ++ '.' :: behind)) (hfront : front.bytes = f.offset)
    (hleft : '.' ∉ left) (count : Nat) :
    ∃ fs', Attempts (front ++ (left ++ '.' :: behind.dotted count)) start fs' ∧
      Aligned (fun j => if j ≤ k then 0 else count) fs.length fs fs' := by
  have hplace : Text.dropBytes? f.offset text = some (left ++ '.' :: behind) :=
    Text.dropBytes?_eq_some_iff.mpr ⟨front, htext, hfront⟩
  subst htext
  have hclosed : Text.Closes (behind.dotted count) → Text.Closes behind := Text.Closes.of_dotted
  induction h generalizing k with
  | recognized => cases hf
  | @unterminated start e tail hoccurs hdot =>
    obtain ⟨-, rfl⟩ : k = 0 ∧ ⟨start, e⟩ = f := by simpa [List.getElem?_singleton] using hf
    obtain rfl := Option.some.inj (hplace.symm.trans hoccurs.dropBytes?_eq)
    exact absurd (by simp) hdot
  | @white start e tail before dots rest hoccurs hcut hwhite =>
    obtain ⟨rfl, rfl⟩ : k = 0 ∧ ⟨start, e⟩ = f := by simpa [List.getElem?_singleton] using hf
    obtain rfl := Option.some.inj (hplace.symm.trans hoccurs.dropBytes?_eq)
    obtain ⟨wider, hcut', -⟩ := hcut.dotted hleft count
    refine ⟨_, .white (hoccurs.past_dot hclosed) hcut' hwhite, ?_⟩
    exact .cons (FailedAttempt.moved_past _ _) (.of_length _ rfl)
  | @resumed start e tail before dots rest fs hoccurs hcut hmore hnext ih =>
    cases k with
    | zero =>
      -- The run behind this failure is widened, and the failures after it are moved.
      obtain rfl := Option.some.inj hf
      obtain rfl := Option.some.inj (hplace.symm.trans hoccurs.dropBytes?_eq)
      obtain ⟨wider, hcut', hbytes⟩ := hcut.dotted hleft count
      have hstart : front.bytes = start + e.offset := hfront
      have hgrown : Text.bytes (front ++ (left ++ wider)) =
          Text.bytes (front ++ (before ++ dots)) + count := by
        rw [Text.bytes_append front, Text.bytes_append front, hbytes, Nat.add_assoc]
      rw [hcut.text_eq, ← hstart, ← Text.bytes_append, ← List.append_assoc before,
        ← List.append_assoc front] at hnext
      have hlater := hnext.replace_front hgrown
      rw [List.append_assoc, List.append_assoc, ← hcut'.text_eq, Text.bytes_append, hstart]
        at hlater
      refine ⟨_, .resumed (hoccurs.past_dot hclosed) hcut' hmore hlater, ?_⟩
      exact .cons (FailedAttempt.moved_past _ _) (.map_later count fs.length fs)
    | succ k =>
      -- This failure and its run lie in front of the widened one.
      obtain ⟨fs', hattempts, haligned⟩ := ih hf
      have hle : start + e.offset + Text.bytes (before ++ dots) ≤ front.bytes := by
        have hstart := hnext.start_le_of_mem f (List.mem_of_getElem? hf)
        rw [hfront, FailedAttempt.offset]
        omega
      obtain ⟨first, hfirst, hbytes⟩ := Text.dropBytes?_eq_some_iff.mp hoccurs.dropBytes?_eq
      have hbytes' : first.bytes = start + e.offset := hbytes
      rw [hcut.text_eq, ← List.append_assoc before, ← List.append_assoc first] at hfirst
      obtain ⟨inner, rfl, rfl⟩ := Text.exists_between hfirst.symm (by
        rw [Text.bytes_append, hbytes']
        exact hle)
      have htail : tail = (before ++ (dots ++ (inner ++ left))) ++ '.' :: behind := by
        simpa using hcut.text_eq
      have hwhole : ∀ other : Text, first ++ (before ++ dots) ++ inner ++ (left ++ '.' :: other) =
          first ++ ((before ++ (dots ++ (inner ++ left))) ++ '.' :: other) := by simp
      rw [← List.append_assoc inner] at hcut
      rw [hwhole, htail] at hoccurs
      have hoccurs' := hoccurs.past_dot hclosed
      have hcut' := hcut.past_dot (behind.dotted count)
      rw [← hwhole] at hoccurs'
      simp only [List.append_assoc] at hoccurs' hcut' hattempts ⊢
      refine ⟨_, .resumed hoccurs' hcut' ?_ hattempts, .cons ?_ ?_⟩
      · rw [← List.append_assoc]
        exact Text.all_isWhite_of_dot _ _
      · exact FailedAttempt.moved_past _ _
      · simpa using haligned

end Attempts

/-- Behind every diagnostic, more dots in the first run of terminators after it
neither add nor hide an error. They leave every diagnostic as it is, down to its
expected rules, but for the offsets behind the run, which grow by their number. -/
theorem check_dotted {text : Text} {fileIndex k : Nat} {d : Diagnostic}
    (hd : (check text fileIndex).diagnostics[k]? = some d) :
    ∃ front tail, text = front ++ tail ∧ front.bytes = d.offset ∧
      ∀ (left behind : Text) (count : Nat), tail = left ++ '.' :: behind → '.' ∉ left →
        (check (front ++ (left ++ '.' :: behind.dotted count)) fileIndex).diagnostics.length =
          (check text fileIndex).diagnostics.length ∧
        ∀ j g g', (check text fileIndex).diagnostics[j]? = some g →
          (check (front ++ (left ++ '.' :: behind.dotted count)) fileIndex).diagnostics[j]? =
            some g' →
          g'.index = g.index ∧ g'.line = g.line ∧ g'.column = g.column ∧
            g'.wording = g.wording ∧ g'.offset = g.offset + if j ≤ k then 0 else count := by
  obtain ⟨fs, h⟩ := Attempts.exists_check text
  rw [h.diagnostics_check, FailedAttempt.getElem?_diagnosticsFrom] at hd
  obtain ⟨f, hf, rfl⟩ := Option.map_eq_some_iff.mp hd
  obtain ⟨tail, hoccurs⟩ := h.occurs_of_mem f (List.mem_of_getElem? hf)
  obtain ⟨front, htext, hfront⟩ := Text.dropBytes?_eq_some_iff.mp hoccurs.dropBytes?_eq
  refine ⟨front, tail, htext, hfront, ?_⟩
  rintro left behind count rfl hleft
  obtain ⟨fs', h', haligned⟩ := h.widen hf htext hfront hleft count
  rw [h.diagnostics_check, h'.diagnostics_check]
  refine ⟨?_, ?_⟩
  · rw [FailedAttempt.length_diagnosticsFrom, FailedAttempt.length_diagnosticsFrom,
      haligned.length_eq]
  · intro j g g' hg hg'
    have hj : j < fs.length := by
      rw [← FailedAttempt.length_diagnosticsFrom 0 0 fs]
      exact (List.getElem?_eq_some_iff.mp hg).1
    have hmoved := haligned.diagnostics hj hg hg'
    exact ⟨hmoved.index_eq, hmoved.line_eq, hmoved.column_eq, hmoved.wording_eq, hmoved.offset_eq⟩

/-- A quotation that is never closed runs over the dot behind it. Two more dots
there move only the error of the next clause. -/
theorem check_dotted_open_quotation :
    (check "p('a. q('b. r".toList 1).diagnostics.map (·.offset) = [2, 8, 13] ∧
      (check "p('a... q('b. r".toList 1).diagnostics.map (·.offset) = [2, 10, 15] ∧
      ∀ g g', (check "p('a. q('b. r".toList 1).diagnostics[1]? = some g →
        (check "p('a... q('b. r".toList 1).diagnostics[1]? = some g' →
          g'.line = g.line ∧ g'.column = g.column ∧ g'.wording = g.wording := by
  have hoffsets : (check "p('a. q('b. r".toList 1).diagnostics.map (·.offset) = [2, 8, 13] := by
    cbv
  have hfirst := congrArg (·[0]?) hoffsets
  simp only [List.getElem?_map] at hfirst
  obtain ⟨d, hd, hoffset⟩ := Option.map_eq_some_iff.mp hfirst
  obtain ⟨front, tail, htext, hfront, hdotted⟩ := check_dotted hd
  have hsplit := Text.splitAtByte_bytes front tail
  rw [← htext, hfront, hoffset] at hsplit
  have hplace : Text.splitAtByte 2 "p('a. q('b. r".toList =
      ("p(".toList, "'a. q('b. r".toList) := by decide
  obtain ⟨rfl, rfl⟩ := Prod.mk.inj (hsplit.symm.trans hplace)
  obtain ⟨-, hsame⟩ := hdotted "'a".toList " q('b. r".toList 2 rfl (by decide)
  refine ⟨hoffsets, by cbv, ?_⟩
  intro g g' hg hg'
  obtain ⟨-, hline, hcolumn, hwording, -⟩ := hsame 1 g g' hg hg'
  exact ⟨hline, hcolumn, hwording⟩

end HornSyntax
