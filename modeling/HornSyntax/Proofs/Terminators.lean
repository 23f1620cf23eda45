import HornSyntax.Proofs.Walk
import HornSyntax.Recovery.Progress

/-!
Runs of terminators. The first run of a text cuts it into what lies before it
and behind it, and recovery goes on behind it. Then the text has one run less.
-/

namespace HornSyntax

/-- The first run of terminators of a text, with what lies before and behind it. -/
structure Text.Cut (text left dots rest : Text) : Prop where
  text_eq : text = left ++ (dots ++ rest)
  notMem_left : '.' ∉ left
  dots_ne_nil : dots ≠ []
  eq_of_mem_dots : ∀ c ∈ dots, c = '.'
  ne_of_mem_head? : ∀ c ∈ rest.head?, c ≠ '.'

namespace Text

variable {text left dots rest : Text}

theorem Cut.mem (h : text.Cut left dots rest) : '.' ∈ text := by
  obtain ⟨c, hc⟩ := List.exists_mem_of_ne_nil dots h.dots_ne_nil
  have hdot := h.eq_of_mem_dots c hc
  rw [h.text_eq, ← hdot]
  exact List.mem_append_right left (List.mem_append_left rest hc)

theorem Cut.bytes_pos (h : text.Cut left dots rest) : 0 < bytes (left ++ dots) := by
  obtain ⟨c, hc⟩ := List.exists_mem_of_ne_nil dots h.dots_ne_nil
  have hmem := List.count_pos_iff.mpr (List.mem_append_right left hc)
  exact Nat.lt_of_lt_of_le hmem (count_le_bytes _ c)

theorem Cut.afterTerminators_eq (h : text.Cut left dots rest) :
    Recovery.afterTerminators text = rest := by
  have hleft : left.all (· != '.') = true := by
    apply List.all_eq_true.mpr
    intro c hc
    have hne : c ≠ '.' := fun heq => h.notMem_left (heq ▸ hc)
    simpa using hne
  have hdots : dots.all (· == '.') = true := by
    apply List.all_eq_true.mpr
    intro c hc
    simpa using h.eq_of_mem_dots c hc
  have hrest : ∀ c ∈ rest.head?, (c == '.') = false := by
    intro c hc
    simpa using h.ne_of_mem_head? c hc
  have hmore : ∀ c ∈ (dots ++ rest).head?, (c != '.') = false := by
    intro c hc
    cases hcases : dots with
    | nil => exact absurd hcases h.dots_ne_nil
    | cons d more =>
      rw [hcases] at hc
      obtain rfl := Option.some.inj hc
      simpa using h.eq_of_mem_dots d (by simp [hcases])
  rw [Recovery.afterTerminators, h.text_eq, dropWhile_append_eq hleft hmore,
    dropWhile_append_eq hdots hrest]

theorem Cut.throughTerminators_eq (h : text.Cut left dots rest) :
    Recovery.throughTerminators text = left ++ dots := by
  have happend := Recovery.throughTerminators_append text
  have hsplit : text = (left ++ dots) ++ rest := by
    rw [List.append_assoc]
    exact h.text_eq
  rw [h.afterTerminators_eq] at happend
  exact List.append_cancel_right (happend.trans hsplit)

/-- A text has one first run of terminators. -/
theorem Cut.unique {left' dots' rest' : Text} (h : text.Cut left dots rest)
    (h' : text.Cut left' dots' rest') : left' ++ dots' = left ++ dots ∧ rest' = rest :=
  ⟨h'.throughTerminators_eq.symm.trans h.throughTerminators_eq,
    h'.afterTerminators_eq.symm.trans h.afterTerminators_eq⟩

/-- Behind the terminators of what a text goes on with, the rest follows. -/
theorem Cut.dropBytes?_eq {whole : Text} {offset : Nat} (h : text.Cut left dots rest)
    (htext : dropBytes? offset whole = some text) :
    dropBytes? (offset + bytes (left ++ dots)) whole = some rest := by
  rw [dropBytes?_add htext]
  apply dropBytes?_eq_some_iff.mpr
  refine ⟨left ++ dots, ?_, rfl⟩
  rw [h.text_eq, List.append_assoc]

/-- A single terminator is a run of its own. -/
theorem cut_single (hleft : '.' ∉ left) (hrest : rest.head? ≠ some '.') :
    Cut (left ++ '.' :: rest) left ['.'] rest := by
  constructor
  · rfl
  · exact hleft
  · simp
  · simp
  · intro c hc heq
    exact hrest (heq ▸ hc)

/-- A text with a terminator is cut at its first run. -/
theorem exists_cut (h : '.' ∈ text) :
    ∃ left dots, text.Cut left dots (Recovery.afterTerminators text) := by
  have hleft : '.' ∉ text.takeWhile (· != '.') := by
    intro hmem
    have hne := List.all_eq_true.mp List.all_takeWhile '.' hmem
    simp at hne
  refine ⟨text.takeWhile (· != '.'), (text.dropWhile (· != '.')).takeWhile (· == '.'), ?_⟩
  constructor
  · rw [Recovery.afterTerminators, List.takeWhile_append_dropWhile,
      List.takeWhile_append_dropWhile]
  · exact hleft
  · intro hnil
    have hmem := Recovery.mem_throughTerminators h
    rw [Recovery.throughTerminators, hnil, List.append_nil] at hmem
    exact hleft hmem
  · intro c hc
    simpa using List.all_eq_true.mp List.all_takeWhile c hc
  · intro c hc
    have hhead := List.head?_dropWhile_not (· == '.') (text.dropWhile (· != '.'))
    rw [Recovery.afterTerminators] at hc
    rw [Option.mem_def.mp hc] at hhead
    simpa using hhead

/-- The number of unbroken runs of terminators, each counted at its last one. -/
def terminatorRuns : Text → Nat
  | [] => 0
  | c :: rest => terminatorRuns rest + if c = '.' ∧ rest.head? ≠ some '.' then 1 else 0

example : terminatorRuns "a..b.\n...c".toList = 3 := by decide

theorem terminatorRuns_le_append (left right : Text) :
    terminatorRuns right ≤ terminatorRuns (left ++ right) := by
  induction left with
  | nil => exact Nat.le_refl _
  | cons c left ih =>
    rw [List.cons_append, terminatorRuns]
    omega

/-- Behind a run of terminators there is one run less. -/
theorem Cut.terminatorRuns_lt {text left dots rest : Text} (h : text.Cut left dots rest) :
    terminatorRuns rest < terminatorRuns text := by
  obtain ⟨init, last, rfl⟩ := List.eq_nil_or_concat dots |>.resolve_left h.dots_ne_nil
  have hlast : last = '.' := h.eq_of_mem_dots last (by simp)
  have hrest : rest.head? ≠ some '.' := fun heq => h.ne_of_mem_head? '.' heq rfl
  have hone : terminatorRuns (last :: rest) = terminatorRuns rest + 1 := by
    rw [terminatorRuns, if_pos ⟨hlast, hrest⟩]
  have hle := terminatorRuns_le_append (left ++ init) (last :: rest)
  have htext : text = (left ++ init) ++ (last :: rest) := by
    rw [h.text_eq]
    simp
  rw [htext]
  omega

end Text

end HornSyntax
