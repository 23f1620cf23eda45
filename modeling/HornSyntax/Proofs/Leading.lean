import HornSyntax.Proofs.Chunk
import HornSyntax.Proofs.LineNumbers

/-!
Clauses in front of a text. They are read from the start to the start, so what
follows them is recognized or not as it is alone, and its error keeps its place
and its expected rules. In the chain of attempts only the first attempt reads
the clauses, and the others begin later by their length. So the diagnostics of
the text are moved as a whole, and only the first one may have another column.
-/

namespace HornSyntax

namespace SyntaxError

/-- The same error behind a text. -/
def behind (front : Text) (e : SyntaxError) : SyntaxError :=
  ⟨front ++ e.before, e.after, e.expected⟩

variable (front : Text) (e : SyntaxError)

theorem offset_behind : (e.behind front).offset = front.bytes + e.offset := by
  rw [behind, offset, Text.bytes_append, offset]

theorem line_behind : (e.behind front).line = e.line + front.count '\n' := by
  rw [behind, line, line, List.count_append]
  omega

variable {front}

/-- A text that ends with a line leaves the line of an error behind it as it is. -/
theorem lastLine_behind (h : front = [] ∨ front.getLast? = some '\n') :
    (e.behind front).before.lastLine = e.before.lastLine := by
  have hfront : front.lastLine = [] := by
    rcases h with rfl | h
    · rfl
    · obtain ⟨init, rfl⟩ := List.getLast?_eq_some_iff.mp h
      simp [Text.lastLine]
  rw [behind]
  by_cases hfeed : '\n' ∈ e.before
  · exact Text.lastLine_append_of_mem hfeed
  · rw [Text.lastLine_append_of_notMem hfeed, hfront, Text.lastLine_of_notMem hfeed,
      List.nil_append]

theorem column_behind (h : front = [] ∨ front.getLast? = some '\n') :
    (e.behind front).column = e.column := by
  rw [column, column, e.lastLine_behind h]

theorem messageAt_behind (h : front = [] ∨ front.getLast? = some '\n') (line : Nat) :
    (e.behind front).messageAt line = e.messageAt line := by
  have hquoted : (e.behind front).quotedLine = e.quotedLine := by
    rw [quotedLine, quotedLine, e.lastLine_behind h]
    rfl
  simp only [messageAt, messageLines, underline, hquoted, e.column_behind h]
  rfl

end SyntaxError

/-- Where a walk over another text comes to the place of an error, the other text
has an error with the same rest and the same expected rules. -/
theorem SyntaxError.At.eq_of_walk {e e' : SyntaxError} {text other : Text} {c c' : Stage × Text}
    (h : e.At text c) (h' : e'.At other c') (hwalk : Walk (.start, other.dropBlanks) c) :
    e'.after = e.after ∧ ∀ r, r ∈ e'.expected ↔ r ∈ e.expected := by
  have hc : c' = c := by
    rcases Relation.ReflTransGen.cases_head (h'.walk_of_walk hwalk) with heq | ⟨d, hstep, -⟩
    · exact heq.symm
    · exact absurd hstep (h.halts.not_step h.unfit)
  subst hc
  exact h'.halts.unique h.halts h'.unfit h.unfit

/-- Whatever is at the place of the error and lists its rules in order is the error. -/
theorem SyntaxError.At.recognize_eq {e : SyntaxError} {text : Text} {c : Stage × Text}
    (h : e.At text c) (hordered : e.expected = Rule.all.filter (· ∈ e.expected)) :
    recognize text = .error e := by
  rcases recognize_cases text with ⟨-, hend⟩ | ⟨e', c', herror', h'⟩
  · exact absurd hend (h.halts.not_walk h.unfit h.walk)
  · obtain ⟨hafter, hrules⟩ := h.eq_of_walk h' h.walk
    have hbefore : e'.before = e.before := by
      have hsame := h'.text_eq
      rw [h.text_eq, hafter] at hsame
      exact (List.append_cancel_right hsame).symm
    have hexpected : e'.expected = e.expected := by
      rw [expected_eq_filter herror', hordered]
      simp only [hrules]
    cases e
    cases e'
    simp only at hbefore hafter hexpected
    rw [herror', hbefore, hafter, hexpected]

/-- Behind clauses a text is recognized as it is alone, and has the same error. -/
theorem recognize_append {front : Text} (hfront : front.IsClauses) (text : Text) :
    recognize (front ++ text) = (recognize text).mapError (·.behind front) := by
  have hwalk := hfront.walk text
  rcases recognize_cases text with ⟨hok, hend⟩ | ⟨e, c, herror, hat⟩
  · rw [hok]
    exact recognize_eq_ok_iff.mpr (hwalk.trans hend)
  · have hbehind : (e.behind front).At (front ++ text) c := by
      refine ⟨?_, hwalk.trans hat.walk, hat.halts, hat.unfit, hat.nodup⟩
      rw [hat.text_eq, SyntaxError.behind, List.append_assoc]
    have hordered := expected_eq_filter herror
    rw [herror]
    exact hbehind.recognize_eq hordered

namespace FailedAttempt

/-- The same failure in a text with a number of bytes more in front. -/
def later (bytes : Nat) (f : FailedAttempt) : FailedAttempt := ⟨bytes + f.start, f.error⟩

/-- The failures of a text as they are behind clauses. The first attempt reads
the clauses too, and the others begin later by their length. -/
def behind (front : Text) : List FailedAttempt → List FailedAttempt
  | [] => []
  | f :: fs => ⟨f.start, f.error.behind front⟩ :: fs.map (later front.bytes)

variable {front text tail : Text} {f g : FailedAttempt} {fs : List FailedAttempt} {k : Nat}

theorem offset_later (bytes : Nat) (f : FailedAttempt) :
    (f.later bytes).offset = bytes + f.offset := by
  rw [later, offset, offset, Nat.add_assoc]

theorem Occurs.later (h : f.Occurs text tail) (front : Text) :
    (f.later front.bytes).Occurs (front ++ text) tail := by
  obtain ⟨rest, hrest, herror⟩ := h.recognize_eq
  constructor
  · refine ⟨rest, ?_, herror⟩
    exact (Text.dropBytes?_append front text f.start).trans hrest
  · rw [offset_later, Text.dropBytes?_append]
    exact h.dropBytes?_eq

/-- The first failure behind clauses. -/
theorem Occurs.behind {e : SyntaxError} (h : Occurs ⟨0, e⟩ text tail) (hfront : front.IsClauses) :
    Occurs ⟨0, e.behind front⟩ (front ++ text) tail := by
  obtain ⟨rest, hrest, herror⟩ := h.recognize_eq
  rw [Text.dropBytes?_zero] at hrest
  obtain rfl := Option.some.inj hrest
  have hbehind := recognize_append hfront text
  rw [herror] at hbehind
  rw [h.tail_eq]
  exact .of_recognize (Text.dropBytes?_zero _) hbehind

theorem lines_map_later (bytes : Nat) (fs : List FailedAttempt) :
    lines (fs.map (later bytes)) = lines fs := by
  rw [lines, lines, List.map_map]
  rfl

theorem lines_take_behind (hf : fs[k]? = some f) :
    lines ((behind front fs).take (k + 1)) = lines (fs.take (k + 1)) + front.count '\n' := by
  cases fs with
  | nil => simp at hf
  | cons f fs =>
    rw [behind, List.take_succ_cons, List.take_succ_cons, lines_cons, lines_cons, ← List.map_take,
      lines_map_later, SyntaxError.line_behind]
    omega

theorem length_behind (front : Text) (fs : List FailedAttempt) :
    (behind front fs).length = fs.length := by
  cases fs <;> simp [behind]

/-- The first failure behind clauses reaches back over them, and the others are moved. -/
theorem getElem?_behind (hf : fs[k]? = some f) (hg : (behind front fs)[k]? = some g) :
    g.offset = f.offset + front.bytes ∧
      (k = 0 ∧ g.error = f.error.behind front ∨ 1 ≤ k ∧ g.error = f.error) := by
  cases fs with
  | nil => simp at hf
  | cons f' fs =>
    cases k with
    | zero =>
      obtain rfl := Option.some.inj hf
      obtain rfl := Option.some.inj hg
      refine ⟨?_, Or.inl ⟨rfl, rfl⟩⟩
      show f'.start + (f'.error.behind front).offset = f'.start + f'.error.offset + front.bytes
      rw [SyntaxError.offset_behind]
      omega
    | succ k =>
      rw [List.getElem?_cons_succ] at hf
      rw [behind, List.getElem?_cons_succ, List.getElem?_map, hf] at hg
      obtain rfl := Option.some.inj hg
      refine ⟨?_, Or.inr ⟨by omega, rfl⟩⟩
      rw [offset_later]
      omega

end FailedAttempt

namespace Attempts

variable {front text : Text} {start : Nat} {fs : List FailedAttempt}

/-- With a text in front every attempt begins later. -/
theorem later (h : Attempts text start fs) (front : Text) :
    Attempts (front ++ text) (front.bytes + start) (fs.map (FailedAttempt.later front.bytes)) := by
  induction h with
  | @recognized start rest hrest hok =>
    exact .recognized ((Text.dropBytes?_append front text start).trans hrest) hok
  | unterminated hoccurs hdot => exact .unterminated (hoccurs.later front) hdot
  | white hoccurs hcut hwhite => exact .white (hoccurs.later front) hcut hwhite
  | resumed hoccurs hcut hmore _ ih =>
    rw [← Nat.add_assoc, ← Nat.add_assoc] at ih
    exact .resumed (hoccurs.later front) hcut hmore ih

/-- Behind clauses the attempts fail as they do on the text alone. -/
theorem behind (h : Attempts text 0 fs) (hfront : front.IsClauses) :
    Attempts (front ++ text) 0 (FailedAttempt.behind front fs) := by
  cases h with
  | @recognized _ rest hrest hok =>
    rw [Text.dropBytes?_zero] at hrest
    obtain rfl := Option.some.inj hrest
    have hbehind := recognize_append hfront text
    rw [hok] at hbehind
    exact .recognized (Text.dropBytes?_zero _) hbehind
  | unterminated hoccurs hdot => exact .unterminated (hoccurs.behind hfront) hdot
  | white hoccurs hcut hwhite => exact .white (hoccurs.behind hfront) hcut hwhite
  | @resumed _ e tail left dots rest fs hoccurs hcut hmore hnext =>
    have hlater := hnext.later front
    have hstart : front.bytes + (0 + e.offset + Text.bytes (left ++ dots)) =
        0 + (e.behind front).offset + Text.bytes (left ++ dots) := by
      rw [SyntaxError.offset_behind]
      omega
    rw [hstart] at hlater
    exact .resumed (hoccurs.behind hfront) hcut hmore hlater

end Attempts

/-- Clauses in front of a text move its diagnostics by their bytes and their line
feeds and change nothing else, but for the column and the message of the first
one where the clauses do not end with a line. -/
theorem check_behind_clauses {front : Text} (hfront : front.IsClauses) (text : Text)
    (fileIndex : Nat) :
    (check (front ++ text) fileIndex).valid = (check text fileIndex).valid ∧
      (check (front ++ text) fileIndex).diagnostics.length =
        (check text fileIndex).diagnostics.length ∧
      ∀ k d d', (check text fileIndex).diagnostics[k]? = some d →
        (check (front ++ text) fileIndex).diagnostics[k]? = some d' →
          d'.index = d.index ∧ d'.offset = d.offset + front.bytes ∧
            d'.line = d.line + front.count '\n' ∧
            (1 ≤ k ∨ front = [] ∨ front.getLast? = some '\n' →
              d'.column = d.column ∧ ∃ e : SyntaxError,
                d.message = e.messageAt d.line ∧ d'.message = e.messageAt d'.line) := by
  obtain ⟨fs, h⟩ := Attempts.exists_check text
  have hlength : (check (front ++ text) fileIndex).diagnostics.length =
      (check text fileIndex).diagnostics.length := by
    rw [(h.behind hfront).diagnostics_check, h.diagnostics_check,
      FailedAttempt.length_diagnosticsFrom, FailedAttempt.length_diagnosticsFrom,
      FailedAttempt.length_behind]
  refine ⟨?_, hlength, ?_⟩
  · rw [Bool.eq_iff_iff, FileReport.valid, FileReport.valid, List.isEmpty_iff, List.isEmpty_iff,
      ← List.length_eq_zero_iff, ← List.length_eq_zero_iff, hlength]
  · intro k d d' hd hd'
    rw [h.diagnostics_check, FailedAttempt.getElem?_diagnosticsFrom] at hd
    rw [(h.behind hfront).diagnostics_check, FailedAttempt.getElem?_diagnosticsFrom] at hd'
    obtain ⟨f, hf, rfl⟩ := Option.map_eq_some_iff.mp hd
    obtain ⟨g, hg, rfl⟩ := Option.map_eq_some_iff.mp hd'
    obtain ⟨hoffset, herror⟩ := FailedAttempt.getElem?_behind hf hg
    refine ⟨rfl, hoffset, ?_, ?_⟩
    · simp only [FailedAttempt.diagnostic, FailedAttempt.lines_take_behind hf, Nat.add_assoc]
    · intro hends
      rcases herror with ⟨hk, herror⟩ | ⟨-, herror⟩
      · have hfeed : front = [] ∨ front.getLast? = some '\n' := hends.resolve_left (by omega)
        refine ⟨?_, f.error, rfl, ?_⟩
        · simp only [FailedAttempt.diagnostic, herror, f.error.column_behind hfeed]
        · simp only [FailedAttempt.diagnostic, herror, f.error.messageAt_behind hfeed]
      · refine ⟨?_, f.error, rfl, ?_⟩
        · simp only [FailedAttempt.diagnostic, herror]
        · simp only [FailedAttempt.diagnostic, herror]

/-- A fact on a line of its own moves the error of the next clause to the next line. -/
theorem check_behind_fact :
    ∃ d d', (check "p(é. ?- a.".toList 1).diagnostics = [d] ∧
      (check ("q.\n".toList ++ "p(é. ?- a.".toList) 1).diagnostics = [d'] ∧
      d.offset = 2 ∧ d'.offset = 5 ∧ d.line = 1 ∧ d'.line = 2 ∧ d'.column = d.column ∧
      ∃ e : SyntaxError, d.message = e.messageAt 1 ∧ d'.message = e.messageAt 2 := by
  have hfront : Text.IsClauses "q.\n".toList := by
    refine ⟨[⟨⟨.name ['q'], []⟩, []⟩], by decide, ?_⟩
    exact Spelled.text_append (.name (.name ['q'])) (Spelled.text_append .dot (.nil (by decide)))
  have herror : recognize "p(é. ?- a.".toList =
      .error ⟨"p(".toList, "é. ?- a.".toList, [.term]⟩ := by cbv
  have hok : recognize " ?- a.".toList = .ok () := by cbv
  have hcut : Text.Cut (['é'] ++ '.' :: " ?- a.".toList) ['é'] ['.'] " ?- a.".toList :=
    Text.cut_single (by decide) (by decide)
  have hlast : Attempts "p(é. ?- a.".toList 5 [] := .recognized (by decide) hok
  have h : Attempts "p(é. ?- a.".toList 0 [⟨0, ⟨"p(".toList, "é. ?- a.".toList, [.term]⟩⟩] :=
    .resumed (.of_recognize (Text.dropBytes?_zero _) herror) hcut (by decide) hlast
  have hd := h.diagnostics_check 1
  have hd' := (h.behind hfront).diagnostics_check 1
  obtain ⟨-, -, hall⟩ := check_behind_clauses hfront "p(é. ?- a.".toList 1
  obtain ⟨-, hoffset, hline, hsame⟩ := hall 0 _ _ (by rw [hd]; rfl) (by rw [hd']; rfl)
  obtain ⟨hcolumn, e, hmessage, hmessage'⟩ := hsame (Or.inr (Or.inr rfl))
  exact ⟨_, _, hd, hd', rfl, hoffset, rfl, hline, hcolumn, e, hmessage, hmessage'⟩

end HornSyntax
