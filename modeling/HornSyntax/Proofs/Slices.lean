import HornSyntax.Proofs.Reachable
import Mathlib

/-!
The slices that recovery takes of a text. It counts in bytes, and a text can be
sliced only at its end and where a character begins. The search for a terminator
and the count of terminators in a row go over single bytes. No other character has
the byte of a terminator in its form, so they end where characters begin, and every
slice can be taken.
-/

namespace HornSyntax

namespace Text

variable {text : Text} {byte : Nat}

/-- The bytes of the UTF-8 form, one after another. -/
def utf8 (text : Text) : List UInt8 := text.encode.data.toList

theorem utf8_eq_flatMap (text : Text) : text.utf8 = text.flatMap String.utf8EncodeChar := by
  simp [utf8, encode, List.utf8Encode]

theorem utf8_cons (c : Char) (rest : Text) :
    utf8 (c :: rest) = String.utf8EncodeChar c ++ utf8 rest := by
  simp only [utf8_eq_flatMap, List.flatMap_cons]

theorem utf8_append (left right : Text) : utf8 (left ++ right) = utf8 left ++ utf8 right := by
  simp only [utf8_eq_flatMap, List.flatMap_append]

theorem length_utf8 (text : Text) : text.utf8.length = text.bytes := by
  rw [← size_encode]
  rfl

/-- Whether a text can be sliced in front of a byte: at its end, or where this is
the first byte of a character. -/
def IsBoundary (text : Text) (byte : Nat) : Prop :=
  byte = text.utf8.length ∨ ∃ b ∈ text.utf8[byte]?, b.IsUTF8FirstByte

theorem isBoundary_cons {c : Char} {rest : Text} :
    IsBoundary (c :: rest) byte ↔
      byte = 0 ∨ c.utf8Size ≤ byte ∧ rest.IsBoundary (byte - c.utf8Size) := by
  have hpos := c.utf8Size_pos
  have hlength := String.length_utf8EncodeChar c
  simp only [IsBoundary, utf8_cons, List.length_append, hlength]
  by_cases hlt : byte < c.utf8Size
  · rw [List.getElem?_append_left (by omega), List.getElem?_eq_getElem (by omega)]
    simp only [Option.mem_def, Option.some.injEq, exists_eq_left',
      UInt8.isUTF8FirstByte_getElem_utf8EncodeChar]
    omega
  · rw [List.getElem?_append_right (by omega), hlength]
    have hnot : byte ≠ 0 := by omega
    have hend : byte = c.utf8Size + rest.utf8.length ↔ byte - c.utf8Size = rest.utf8.length := by
      omega
    rw [hend]
    simp [hnot, Nat.not_lt.mp hlt]

/-- A text can be sliced exactly where bytes can be dropped from it. -/
theorem isBoundary_iff : text.IsBoundary byte ↔ ∃ after, dropBytes? byte text = some after := by
  induction text generalizing byte with
  | nil => cases byte <;> simp [IsBoundary, utf8_eq_flatMap, dropBytes?]
  | cons c rest ih =>
    rw [isBoundary_cons]
    cases byte with
    | zero => simp
    | succ n =>
      by_cases hle : c.utf8Size ≤ n + 1
      · simp [dropBytes?, hle, ih]
      · simp [dropBytes?, hle]

instance (text : Text) (byte : Nat) : Decidable (text.IsBoundary byte) :=
  decidable_of_iff ((dropBytes? byte text).isSome = true)
    (Option.isSome_iff_exists.trans isBoundary_iff.symm)

theorem le_bytes_of_dropBytes? {after : Text} (h : dropBytes? byte text = some after) :
    byte ≤ text.bytes := by
  obtain ⟨before, rfl, rfl⟩ := dropBytes?_eq_some_iff.mp h
  rw [bytes_append]
  omega

end Text

namespace Recovery

/-- The single byte of a terminator. -/
def terminatorByte : UInt8 := 0x2E

theorem utf8EncodeChar_dot : String.utf8EncodeChar '.' = [terminatorByte] := by decide

/-- The forms of two characters that begin alike are the same. -/
theorem eq_of_utf8EncodeChar_append {c d : Char} {more : List UInt8}
    (h : String.utf8EncodeChar c = String.utf8EncodeChar d ++ more) : c = d := by
  have hc := @ByteArray.utf8DecodeChar?_utf8EncodeChar_append ByteArray.empty c
  have hd := @ByteArray.utf8DecodeChar?_utf8EncodeChar_append more.toByteArray d
  rw [ByteArray.append_empty, h, List.toByteArray_append, hd] at hc
  exact (Option.some.inj hc).symm

/-- No other character has the byte of a terminator in its form. -/
theorem terminatorByte_mem {c : Char} (h : terminatorByte ∈ String.utf8EncodeChar c) : c = '.' := by
  obtain ⟨i, hi, hbyte⟩ := List.getElem_of_mem h
  have hfirst : (String.utf8EncodeChar c)[i].IsUTF8FirstByte := by
    rw [hbyte]
    decide
  obtain rfl := UInt8.isUTF8FirstByte_getElem_utf8EncodeChar.mp hfirst
  cases hform : String.utf8EncodeChar c with
  | nil => simp [hform] at hi
  | cons b more =>
    obtain rfl : b = terminatorByte := by simpa [hform] using hbyte
    refine @eq_of_utf8EncodeChar_append c '.' more ?_
    rw [hform, utf8EncodeChar_dot, List.singleton_append]

theorem terminatorByte_mem_utf8 {text : Text} : terminatorByte ∈ text.utf8 ↔ '.' ∈ text := by
  rw [Text.utf8_eq_flatMap, List.mem_flatMap]
  constructor
  · rintro ⟨c, hc, hbyte⟩
    rwa [terminatorByte_mem hbyte] at hc
  · intro hdot
    exact ⟨'.', hdot, by decide⟩

/-- Where the first terminator stands in some bytes. -/
def findTerminator? (bytes : List UInt8) : Option Nat := bytes.findIdx? (· == terminatorByte)

/-- The number of terminators in a row with which some bytes begin. -/
def terminatorsAhead (bytes : List UInt8) : Nat := (bytes.takeWhile (· == terminatorByte)).length

variable {text rest tail left dots : Text} {offset : Nat} {phase : Phase} {s : Recovery}

theorem findTerminator?_of_notMem (h : '.' ∉ tail) : findTerminator? tail.utf8 = none := by
  rw [findTerminator?, List.findIdx?_eq_none_iff]
  intro b hb
  have hne : b ≠ terminatorByte := fun heq => h (terminatorByte_mem_utf8.mp (heq ▸ hb))
  simpa using hne

theorem eq_terminatorByte (h : ∀ c ∈ dots, c = '.') : ∀ b ∈ dots.utf8, b = terminatorByte := by
  intro b hb
  rw [Text.utf8_eq_flatMap, List.mem_flatMap] at hb
  obtain ⟨c, hc, hbyte⟩ := hb
  rwa [h c hc, utf8EncodeChar_dot, List.mem_singleton] at hbyte

/-- The search over bytes finds the first run of terminators of a text. -/
theorem findTerminator?_of_cut (h : tail.Cut left dots rest) :
    findTerminator? tail.utf8 = some left.bytes := by
  have hleft : left.utf8.findIdx? (· == terminatorByte) = none :=
    findTerminator?_of_notMem h.notMem_left
  have hdots : (dots ++ rest).utf8.findIdx? (· == terminatorByte) = some 0 := by
    cases hcases : dots with
    | nil => exact absurd hcases h.dots_ne_nil
    | cons c more =>
      obtain rfl := h.eq_of_mem_dots c (by simp [hcases])
      rw [List.cons_append, Text.utf8_cons, utf8EncodeChar_dot]
      rfl
  rw [findTerminator?, h.text_eq, Text.utf8_append, List.findIdx?_append, hleft, hdots,
    Text.length_utf8]
  simp

/-- The count over bytes comes to the end of the run of terminators. -/
theorem terminatorsAhead_of_cut (h : tail.Cut left dots rest) :
    terminatorsAhead (Text.utf8 (dots ++ rest)) = dots.bytes := by
  have hdots : ∀ b ∈ dots.utf8, (b == terminatorByte) = true := by
    intro b hb
    rw [eq_terminatorByte h.eq_of_mem_dots b hb, BEq.rfl]
  have hrest : rest.utf8.takeWhile (· == terminatorByte) = [] := by
    cases hcases : rest with
    | nil => simp [Text.utf8_eq_flatMap]
    | cons c more =>
      have hc := h.ne_of_mem_head? c (by simp [hcases])
      cases hform : String.utf8EncodeChar c with
      | nil => exact absurd hform String.utf8EncodeChar_ne_nil
      | cons b bytes =>
        have hne : b ≠ terminatorByte := by
          rintro rfl
          exact hc (terminatorByte_mem (by simp [hform]))
        rw [Text.utf8_cons, hform]
        simp [hne]
  rw [terminatorsAhead, Text.utf8_append, List.takeWhile_append_of_pos hdots, hrest,
    List.append_nil, Text.length_utf8]

/-- The byte behind a run of terminators. The search from an offset on has found
the first of them, and the text goes on with `dots` from there. -/
def cursor (offset found : Nat) (dots : Text) : Nat := offset + found + terminatorsAhead dots.utf8

/-- A resynchronization with each slice by itself: what remains, the tail from the
error on, the text from the first terminator on, and what is left behind the run of
terminators. There is no answer where a slice cannot be taken, but where there is
no tail, the run is given up. -/
def slicedStep? (text : Text) (offset : Nat) (s : Recovery) : Option (Phase × Recovery) :=
  (s.remaining? text).bind fun rest =>
    match (Text.dropBytes? offset rest).bind fun tail => findTerminator? tail.utf8 with
    | none => some (.done, s.gaveUp (s.consumed + offset))
    | some found =>
      (Text.dropBytes? (offset + found) rest).bind fun dots =>
        let next := s.resumed (s.consumed + cursor offset found dots)
        (next.remaining? text).map fun left =>
          (if left.all CharacterClass.isWhite then .done else .scanning, next)

theorem slicedStep?_of_notMem (hrest : s.remaining? text = some rest)
    (htail : Text.dropBytes? offset rest = some tail) (hdot : '.' ∉ tail) :
    slicedStep? text offset s = some (step text (.resynchronizing offset) s) := by
  rw [step_resynchronizing_of_notMem hrest htail hdot]
  simp only [slicedStep?, hrest, htail, Option.bind_some, findTerminator?_of_notMem hdot]

/-- The text goes on with the terminators where the search ends, and with what is
behind them where the count ends. -/
theorem dropBytes?_of_cut {after : Text} (htail : Text.dropBytes? offset rest = some tail)
    (hcut : tail.Cut left dots after) :
    Text.dropBytes? (offset + left.bytes) rest = some (dots ++ after) ∧
      Text.dropBytes? (cursor offset left.bytes (dots ++ after)) rest = some after := by
  have hfound : Text.dropBytes? (offset + left.bytes) rest = some (dots ++ after) := by
    rw [Text.dropBytes?_add htail, hcut.text_eq]
    exact Text.dropBytes?_eq_some_iff.mpr ⟨left, rfl, rfl⟩
  refine ⟨hfound, ?_⟩
  rw [cursor, Text.dropBytes?_add hfound, terminatorsAhead_of_cut hcut]
  exact Text.dropBytes?_eq_some_iff.mpr ⟨dots, rfl, rfl⟩

theorem step_of_cut {after : Text} (hrest : s.remaining? text = some rest)
    (htail : Text.dropBytes? offset rest = some tail) (hcut : tail.Cut left dots after) :
    step text (.resynchronizing offset) s =
      (if after.all CharacterClass.isWhite then .done else .scanning,
        s.resumed (s.consumed + cursor offset left.bytes (dots ++ after))) := by
  have hconsumed : s.consumed + cursor offset left.bytes (dots ++ after) =
      s.consumed + offset + (throughTerminators tail).bytes := by
    rw [cursor, terminatorsAhead_of_cut hcut, hcut.throughTerminators_eq, Text.bytes_append]
    omega
  rw [hconsumed, ← hcut.afterTerminators_eq]
  simp [step, resynchronize, hrest, htail, hcut.mem, resumed]

theorem slicedStep?_of_cut {after : Text} (hrest : s.remaining? text = some rest)
    (htail : Text.dropBytes? offset rest = some tail) (hcut : tail.Cut left dots after) :
    slicedStep? text offset s = some (step text (.resynchronizing offset) s) := by
  obtain ⟨hfound, hcursor⟩ := dropBytes?_of_cut htail hcut
  have hleft : (s.resumed (s.consumed + cursor offset left.bytes (dots ++ after))).remaining? text =
      some after := (Text.dropBytes?_add hrest _).trans hcursor
  rw [step_of_cut hrest htail hcut]
  simp only [slicedStep?, hrest, htail, Option.bind_some, findTerminator?_of_cut hcut, hfound,
    hleft, Option.map_some]

/-- The log tells whether a run goes on or is given up. -/
theorem resumed_ne_gaveUp (s : Recovery) (consumed byte : Nat) :
    s.resumed consumed ≠ s.gaveUp byte := by
  intro h
  have hlog := List.append_cancel_left (congrArg Recovery.log h)
  simp [resumedEntry, gaveUpEntry] at hlog

/-- Where the search over bytes ends, and where the count ends, the rest can be
sliced, and recovery goes on behind the count. -/
theorem slices_of_found {found : Nat} (hrest : s.remaining? text = some rest)
    (htail : Text.dropBytes? offset rest = some tail)
    (hfound : findTerminator? tail.utf8 = some found) :
    ∃ dots after, Text.dropBytes? (offset + found) rest = some dots ∧
      Text.dropBytes? (cursor offset found dots) rest = some after ∧
      (step text (.resynchronizing offset) s).2 =
        s.resumed (s.consumed + cursor offset found dots) := by
  have hdot : '.' ∈ tail := by
    apply Classical.byContradiction
    intro hdot
    rw [findTerminator?_of_notMem hdot] at hfound
    cases hfound
  obtain ⟨left, dots, hcut⟩ := Text.exists_cut hdot
  obtain rfl : left.bytes = found :=
    Option.some.inj ((findTerminator?_of_cut hcut).symm.trans hfound)
  obtain ⟨hdots, hcursor⟩ := dropBytes?_of_cut htail hcut
  exact ⟨_, _, hdots, hcursor, congrArg Prod.snd (step_of_cut hrest htail hcut)⟩

theorem slicedStep?_eq (hrest : s.remaining? text = some rest)
    (htail : Text.dropBytes? offset rest = some tail) :
    slicedStep? text offset s = some (step text (.resynchronizing offset) s) := by
  by_cases hdot : '.' ∈ tail
  · obtain ⟨left, dots, hcut⟩ := Text.exists_cut hdot
    exact slicedStep?_of_cut hrest htail hcut
  · exact slicedStep?_of_notMem hrest htail hdot

/-- A run is given up exactly where there is no terminator at or after the error. -/
theorem step_eq_gaveUp_iff (hrest : s.remaining? text = some rest)
    (htail : Text.dropBytes? offset rest = some tail) :
    step text (.resynchronizing offset) s = (.done, s.gaveUp (s.consumed + offset)) ↔
      '.' ∉ tail := by
  constructor
  · intro hstep hdot
    obtain ⟨left, dots, hcut⟩ := Text.exists_cut hdot
    rw [step_of_cut hrest htail hcut] at hstep
    exact resumed_ne_gaveUp _ _ _ (congrArg Prod.snd hstep)
  · exact step_resynchronizing_of_notMem hrest htail

/-- The slices of a resynchronization, where `rest` remains and goes on with `tail`
from the error on. The search over bytes and the count of terminators end where the
rest and the text can be sliced, and recovery goes on from there. -/
structure Slices (text rest tail : Text) (offset : Nat) (s : Recovery) : Prop where
  offset_le : offset ≤ rest.bytes
  isBoundary_offset : rest.IsBoundary offset
  tail_of_rest : Text.dropBytes? offset rest = some tail
  tail_of_text : Text.dropBytes? (s.consumed + offset) text = some tail
  isBoundary_cursor : ∀ found, findTerminator? tail.utf8 = some found →
    rest.IsBoundary (offset + found) ∧
      ∃ dots, Text.dropBytes? (offset + found) rest = some dots ∧
        cursor offset found dots ≤ rest.bytes ∧ rest.IsBoundary (cursor offset found dots) ∧
        text.IsBoundary (s.consumed + cursor offset found dots) ∧
        (step text (.resynchronizing offset) s).2 =
          s.resumed (s.consumed + cursor offset found dots)
  step_eq : slicedStep? text offset s = some (step text (.resynchronizing offset) s)
  gaveUp_iff : step text (.resynchronizing offset) s = (.done, s.gaveUp (s.consumed + offset)) ↔
    '.' ∉ tail

theorem Slices.of_tail (hrest : s.remaining? text = some rest)
    (htail : Text.dropBytes? offset rest = some tail) : Slices text rest tail offset s := by
  constructor
  · exact Text.le_bytes_of_dropBytes? htail
  · exact Text.isBoundary_iff.mpr ⟨tail, htail⟩
  · exact htail
  · exact (Text.dropBytes?_add hrest offset).trans htail
  · intro found hfound
    obtain ⟨dots, after, hdots, hcursor, hstep⟩ := slices_of_found hrest htail hfound
    have hnext := (Text.dropBytes?_add hrest (cursor offset found dots)).trans hcursor
    exact ⟨Text.isBoundary_iff.mpr ⟨dots, hdots⟩, dots, hdots, Text.le_bytes_of_dropBytes? hcursor,
      Text.isBoundary_iff.mpr ⟨after, hcursor⟩, Text.isBoundary_iff.mpr ⟨after, hnext⟩, hstep⟩
  · exact slicedStep?_eq hrest htail
  · exact step_eq_gaveUp_iff hrest htail

/-- Two steps lead from an attempt that fails to the next one. -/
theorem run_of_error {e : SyntaxError} (hrest : s.remaining? text = some rest)
    (herror : recognize rest = .error e) (hdot : '.' ∈ e.after)
    (hmore : (afterTerminators e.after).all CharacterClass.isWhite = false) (fuel : Nat) :
    run text (fuel + 2) .scanning s = run text fuel .scanning (s.past e) := by
  have hnoted : (s.noted e).remaining? text = some rest := hrest
  rw [run_succ (by decide), step_scanning hrest herror, run_succ (by simp),
    step_resynchronizing hnoted (dropBytes?_offset herror) hdot hmore]
  rfl

/-- In every state that recovery reaches, what it has skipped ends where the text
can be sliced. In a state in which it is about to go on behind an error, there is a
tail from the error on, each slice of the step can be taken, and the run is given up
exactly where the tail has no terminator. -/
theorem slices_of_run {text : Text} {fuel : Nat} {phase : Phase} {s : Recovery}
    (h : run text fuel .scanning initial = (phase, s)) :
    s.consumed ≤ text.bytes ∧ text.IsBoundary s.consumed ∧
      ∃ rest, s.remaining? text = some rest ∧
        ∀ offset, phase = .resynchronizing offset → ∃ tail, Slices text rest tail offset s := by
  have hsound := sound_run text fuel
  rw [h] at hsound
  obtain ⟨rest, hrest⟩ := hsound.exists_remaining
  refine ⟨Text.le_bytes_of_dropBytes? hrest, Text.isBoundary_iff.mpr ⟨rest, hrest⟩, rest, hrest, ?_⟩
  rintro offset rfl
  cases hsound with
  | @resynchronizing rest' tail _ _ hrest' htail =>
    obtain rfl := Option.some.inj (hrest.symm.trans hrest')
    exact ⟨tail, .of_tail hrest htail⟩

/-- The second attempt on a text comes upon an error in front of a wide character. -/
theorem slices_of_second_attempt :
    ∃ s, run "é.. p('ß').".toList 3 .scanning initial = (.resynchronizing 4, s) ∧
      s.consumed = 4 ∧ Text.IsBoundary "é.. p('ß').".toList s.consumed ∧
      ¬ Text.IsBoundary "é.. p('ß').".toList 1 ∧
      ∃ rest tail, s.remaining? "é.. p('ß').".toList = some rest ∧
        Slices "é.. p('ß').".toList rest tail 4 s := by
  have hfirst : recognize "é.. p('ß').".toList =
      .error ⟨[], "é.. p('ß').".toList, [.atom, .queryStart]⟩ := by cbv
  have hsecond : recognize " p('ß').".toList =
      .error ⟨" p('".toList, "ß').".toList, [.string]⟩ := by cbv
  have hrest : initial.remaining? "é.. p('ß').".toList = some "é.. p('ß').".toList := rfl
  have hpast : (initial.past ⟨[], "é.. p('ß').".toList, [.atom, .queryStart]⟩).remaining?
      "é.. p('ß').".toList = some " p('ß').".toList := by decide
  have hrun : run "é.. p('ß').".toList 3 .scanning initial =
      (.resynchronizing 4, (initial.past ⟨[], "é.. p('ß').".toList, [.atom, .queryStart]⟩).noted
        ⟨" p('".toList, "ß').".toList, [.string]⟩) := by
    rw [run_of_error hrest hfirst (by decide) (by decide) 1, run_succ (by decide),
      step_scanning hpast hsecond]
    rfl
  obtain ⟨-, hboundary, rest, hleft, hslices⟩ := slices_of_run hrun
  obtain ⟨tail, htail⟩ := hslices 4 rfl
  exact ⟨_, hrun, by decide, hboundary, by decide, rest, tail, hleft, htail⟩

end Recovery

end HornSyntax
