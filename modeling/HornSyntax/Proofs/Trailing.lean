import HornSyntax.Proofs.Beyond
import Mathlib

/-!
Blanks at the end of a text. They hold no token, no terminator and no quotation
mark. So they leave a text recognized or not as it is, and every attempt that
fails before a terminator fails in the same way. Only an error that no terminator
follows may see them, and that is the last one of a report.
-/

namespace HornSyntax

open CharacterClass

section

variable {text pad : Text} {c : Char}

theorem Text.notMem_of_isBlank (hpad : pad.all isBlank = true) (hc : isBlank c = false) :
    c ∉ pad := by
  intro hmem
  rw [List.all_eq_true.mp hpad c hmem] at hc
  cases hc

theorem Text.Closes.append (h : text.Closes) (more : Text) : Text.Closes (text ++ more) := by
  obtain ⟨letters, rest, hletters, rfl⟩ := h
  exact ⟨letters, rest ++ more, hletters, by simp⟩

theorem Text.Closes.of_append_blanks (hpad : pad.all isBlank = true)
    (h : (text ++ pad).Closes) : text.Closes := by
  obtain ⟨letters, rest, hletters, htext⟩ := h
  obtain ⟨between, rfl, -⟩ :=
    exists_append_cons_of_notMem (Text.notMem_of_isBlank hpad (by decide)) htext.symm
  exact ⟨letters, between, hletters, rfl⟩

theorem Text.Cut.append {left dots rest : Text} (h : text.Cut left dots rest)
    (hpad : '.' ∉ pad) : (text ++ pad).Cut left dots (rest ++ pad) := by
  refine ⟨?_, h.notMem_left, h.dots_ne_nil, h.eq_of_mem_dots, ?_⟩
  · rw [h.text_eq, List.append_assoc, List.append_assoc]
  · intro c hc
    cases rest with
    | nil =>
      rintro rfl
      exact hpad (List.mem_of_mem_head? hc)
    | cons d rest => exact h.ne_of_mem_head? c hc

theorem Text.all_isWhite_append_blanks (hpad : pad.all isBlank = true) :
    (text ++ pad).all isWhite = text.all isWhite := by
  have hwhite : pad.all isWhite = true := by
    apply List.all_eq_true.mpr
    intro c hc
    exact isWhite_of_isBlank (List.all_eq_true.mp hpad c hc)
  rw [List.all_append, hwhite, Bool.and_true]

theorem Text.dropBytes?_append_right {start : Nat} {rest : Text}
    (h : dropBytes? start text = some rest) (pad : Text) :
    dropBytes? start (text ++ pad) = some (rest ++ pad) := by
  obtain ⟨before, rfl, hbefore⟩ := dropBytes?_eq_some_iff.mp h
  exact dropBytes?_eq_some_iff.mpr ⟨before, List.append_assoc before rest pad, hbefore⟩

/-- A text of two lists of tokens is one text of each. -/
theorem Spelled.exists_append {ts us : List Token} (h : Spelled (ts ++ us) text) :
    ∃ left right, text = left ++ right ∧ Spelled ts left ∧ Spelled us right := by
  induction ts generalizing text with
  | nil => exact ⟨[], text, rfl, .nil rfl, h⟩
  | cons t ts ih =>
    cases h with
    | cons hgap hrest =>
      obtain ⟨left, right, rfl, hleft, hright⟩ := ih hrest
      exact ⟨_, right, by simp, .cons hgap hleft, hright⟩

/-- Behind the dot of its query a program goes on with blanks only. -/
theorem exists_dot_of_recognize (h : recognize text = .ok ()) :
    ∃ ts body gap, text = body ++ '.' :: gap ∧ Spelled ts body ∧ gap.all isBlank = true ∧
      Stage.start.run (ts ++ [.dot]) = some .finished ∧ ∀ t ∈ ts, t.wellFormed = true := by
  obtain ⟨p, hp, hspelled⟩ := Program.exists_spelled_of_recognize h
  obtain ⟨front, hfront, -⟩ := Program.exists_front_queryTokens p.goals
  have htokens : p.tokens = (p.clauses.flatMap Clause.tokens ++ front) ++ [.dot] := by
    rw [Program.tokens, hfront, List.append_assoc]
  have hrun := Stage.run_program hp
  have hwf := Program.wellFormed_of_mem_tokens hp
  rw [htokens] at hspelled hrun hwf
  obtain ⟨body, last, rfl, hbody, hlast⟩ := hspelled.exists_append
  cases hlast with
  | @cons gap rest _ _ hgap hrest =>
    cases hrest with
    | nil hrest =>
      refine ⟨_, body ++ gap, rest, by simp [Token.text], ?_, hrest, hrun, ?_⟩
      · have hnil := hbody.append (.nil hgap)
        rwa [List.append_nil] at hnil
      · exact fun t ht => hwf t (List.mem_append_left _ ht)

/-- Blanks at its end leave a text recognized or not as it is. -/
theorem recognize_append_blanks (hpad : pad.all isBlank = true) :
    recognize (text ++ pad) = .ok () ↔ recognize text = .ok () := by
  constructor
  · intro h
    obtain ⟨ts, body, gap, htext, hbody, hgap, hrun, hwf⟩ := exists_dot_of_recognize h
    have hdot := Text.notMem_of_isBlank (c := '.') hpad (by decide)
    obtain ⟨more, rfl, rfl⟩ := exists_append_cons_of_notMem hdot htext.symm
    rw [List.all_append, Bool.and_eq_true] at hgap
    have hend : Spelled [.dot] ('.' :: more) := .text_append .dot (.nil hgap.1)
    refine recognize_of_spelled (hbody.append hend) hrun ?_
    intro t ht
    rcases List.mem_append.mp ht with hmem | hlast
    · exact hwf t hmem
    · rw [List.mem_singleton.mp hlast]
      rfl
  · intro h
    obtain ⟨p, hp, hspelled⟩ := Program.exists_spelled_of_recognize h
    have hmore := hspelled.append (.nil hpad)
    rw [List.append_nil] at hmore
    exact Program.recognize_of_spelled hp hmore

/-- Without a terminator behind it an error stays without one. -/
theorem recognize_append_blanks_of_notMem {e : SyntaxError} (hpad : pad.all isBlank = true)
    (h : recognize text = .error e) (hdot : '.' ∉ e.after) :
    ∃ e', recognize (text ++ pad) = .error e' ∧ '.' ∉ e'.after := by
  cases herror : recognize (text ++ pad) with
  | ok u =>
    rw [(recognize_append_blanks hpad).mp herror] at h
    cases h
  | error e' =>
    refine ⟨e', rfl, ?_⟩
    intro hmem
    obtain ⟨left, beyond, hafter⟩ := List.append_of_mem hmem
    obtain ⟨c, hat⟩ := exists_at_of_recognize herror
    have htext := hat.text_eq
    rw [hafter, ← List.append_assoc] at htext
    have hnot := Text.notMem_of_isBlank (c := '.') hpad (by decide)
    obtain ⟨between, hfront, rfl⟩ := exists_append_cons_of_notMem hnot htext.symm
    obtain ⟨before, after, expected⟩ := e'
    obtain rfl : after = left ++ '.' :: (between ++ pad) := hafter
    have hsame : text ++ pad = before ++ (left ++ '.' :: (between ++ pad)) := hat.text_eq
    rw [hsame] at herror
    have hback := recognize_past_dot herror fun h : Text.Closes between => h.append pad
    have hshort : text = before ++ (left ++ '.' :: between) := by rw [hfront]; simp
    rw [← hshort, h] at hback
    obtain rfl := Except.error.inj hback
    exact hdot (by simp)

end

/-- A failure that a terminator follows is the same with blanks at the end. -/
theorem FailedAttempt.Occurs.append_blanks {f : FailedAttempt} {text tail pad : Text}
    (h : f.Occurs text tail) (hdot : '.' ∈ tail) (hpad : pad.all isBlank = true) :
    (f.past (tail ++ pad)).Occurs (text ++ pad) (tail ++ pad) := by
  obtain ⟨front, rfl, -⟩ := Text.dropBytes?_eq_some_iff.mp h.dropBytes?_eq
  obtain ⟨left, beyond, rfl⟩ := List.append_of_mem hdot
  have hcloses : Text.Closes (beyond ++ pad) → Text.Closes beyond :=
    Text.Closes.of_append_blanks hpad
  simpa using h.past_dot hcloses

/-- With blanks at the end of a text the same failures follow one another, but
for the last one. -/
theorem Attempts.append_blanks {text pad : Text} {start : Nat} {fs : List FailedAttempt}
    (h : Attempts text start fs) (hpad : pad.all isBlank = true) :
    ∃ fs', Attempts (text ++ pad) start fs' ∧
      FailedAttempt.Aligned (fun _ => 0) (fs.length - 1) fs fs' := by
  have hdot := Text.notMem_of_isBlank (c := '.') hpad (by decide)
  induction h with
  | recognized hrest hok =>
    have hok' := (recognize_append_blanks hpad).mpr hok
    exact ⟨[], .recognized (Text.dropBytes?_append_right hrest pad) hok', .of_length _ rfl⟩
  | unterminated hoccurs hnone =>
    obtain ⟨rest, hrest, herror⟩ := hoccurs.recognize_eq
    rw [hoccurs.tail_eq] at hnone
    obtain ⟨e', herror', hnone'⟩ := recognize_append_blanks_of_notMem hpad herror hnone
    have hoccurs' := FailedAttempt.Occurs.of_recognize (Text.dropBytes?_append_right hrest pad)
      herror'
    exact ⟨_, .unterminated hoccurs' hnone', .of_length _ rfl⟩
  | white hoccurs hcut hwhite =>
    have hoccurs' := hoccurs.append_blanks hcut.mem hpad
    rw [← Text.all_isWhite_append_blanks hpad] at hwhite
    exact ⟨_, .white hoccurs' (hcut.append hdot) hwhite, .of_length _ rfl⟩
  | @resumed start e tail left dots rest fs hoccurs hcut hmore hnext ih =>
    obtain ⟨fs', hattempts, haligned⟩ := ih
    have hoccurs' := hoccurs.append_blanks hcut.mem hpad
    rw [← Text.all_isWhite_append_blanks hpad] at hmore
    refine ⟨_, .resumed hoccurs' (hcut.append hdot) hmore hattempts, ?_⟩
    cases fs with
    | nil => exact .of_length _ (by simp [haligned.length_eq])
    | cons f fs => exact .cons (FailedAttempt.moved_past _ _) haligned

/-- Blanks at the end of a text neither add nor hide an error. They leave every
diagnostic but the last one as it is, down to its expected rules. -/
theorem check_append_blanks {pad : Text} (hpad : pad.all isBlank = true) (text : Text)
    (fileIndex : Nat) :
    (check (text ++ pad) fileIndex).valid = (check text fileIndex).valid ∧
      (check (text ++ pad) fileIndex).diagnostics.length =
        (check text fileIndex).diagnostics.length ∧
      ∀ k d d', (check text fileIndex).diagnostics[k]? = some d →
        (check (text ++ pad) fileIndex).diagnostics[k]? = some d' →
          k + 1 < (check text fileIndex).diagnostics.length →
            d'.index = d.index ∧ d'.line = d.line ∧ d'.column = d.column ∧
              d'.offset = d.offset ∧ d'.wording = d.wording := by
  obtain ⟨fs, h⟩ := Attempts.exists_check text
  obtain ⟨fs', h', haligned⟩ := h.append_blanks hpad
  have hlength : (check (text ++ pad) fileIndex).diagnostics.length =
      (check text fileIndex).diagnostics.length := by
    rw [h.diagnostics_check, h'.diagnostics_check, FailedAttempt.length_diagnosticsFrom,
      FailedAttempt.length_diagnosticsFrom, haligned.length_eq]
  refine ⟨FileReport.valid_eq_of_length hlength, hlength, ?_⟩
  intro k d d' hd hd' hk
  rw [h.diagnostics_check] at hd hk
  rw [h'.diagnostics_check] at hd'
  rw [FailedAttempt.length_diagnosticsFrom] at hk
  have hmoved := haligned.diagnostics (by omega) hd hd'
  exact ⟨hmoved.index_eq, hmoved.line_eq, hmoved.column_eq, hmoved.offset_eq, hmoved.wording_eq⟩

/-- A blank behind a quotation mark is read as quoted text, so that the last error
moves to the mark, while the error before it stays. -/
theorem check_append_blank_to_quote :
    [' '].all isBlank = true ∧
      (check "p(. '".toList 1).diagnostics.map (·.offset) = [2, 5] ∧
      (check ("p(. '".toList ++ [' ']) 1).diagnostics.map (·.offset) = [2, 4] ∧
      ∀ d d', (check "p(. '".toList 1).diagnostics[0]? = some d →
        (check ("p(. '".toList ++ [' ']) 1).diagnostics[0]? = some d' →
          d'.line = d.line ∧ d'.column = d.column ∧ d'.wording = d.wording := by
  have hblank : [' '].all isBlank = true := by decide
  have hoffsets : (check "p(. '".toList 1).diagnostics.map (·.offset) = [2, 5] := by cbv
  have hlength := congrArg List.length hoffsets
  rw [List.length_map] at hlength
  refine ⟨hblank, hoffsets, by cbv, ?_⟩
  intro d d' hd hd'
  obtain ⟨-, -, hsame⟩ := check_append_blanks hblank "p(. '".toList 1
  obtain ⟨-, hline, hcolumn, -, hwording⟩ := hsame 0 d d' hd hd' (by rw [hlength]; decide)
  exact ⟨hline, hcolumn, hwording⟩

end HornSyntax
