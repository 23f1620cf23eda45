import HornSyntax.CommandLine
import Mathlib.Tactic.SplitIfs

/-!
What can be said of a check, item by item. A draft takes items one after another as
long as they do not name a directory or an output twice or without a name, and do not
ask twice for the report to be printed. What it has taken in the end are the options
that the items ask for.
-/

namespace HornSyntax.CommandLine

inductive Item where
  | dir (name : Text)
  | output (path : Text)
  | stdout
  | verbose
  deriving DecidableEq

namespace Item

@[simp] def dir? : Item → Option Text
  | dir name => some name
  | _ => none

@[simp] def output? : Item → Option Text
  | output path => some path
  | _ => none

end Item

def dirs (items : List Item) : List Text := items.filterMap Item.dir?

def outputs (items : List Item) : List Text := items.filterMap Item.output?

/-- There is at most one name, and it is not empty. -/
def AtMostOne (names : List Text) : Prop := [] ∉ names ∧ names.length ≤ 1

/-- Items that do not stand in one another's way. -/
def Accepted (items : List Item) : Prop :=
  AtMostOne (dirs items) ∧ AtMostOne (outputs items) ∧ items.count .stdout ≤ 1

/-- The options that items ask for. -/
def optionsOf (items : List Item) : Options where
  dir := (dirs items).headD ".".toList
  output := (outputs items).headD "output.txt".toList
  toStdout := .stdout ∈ items
  verbosity := items.count .verbose

variable {items more : List Item} {item : Item} {d d' : Draft}

theorem dirs_append (items more : List Item) : dirs (items ++ more) = dirs items ++ dirs more :=
  List.filterMap_append

theorem outputs_append (items more : List Item) :
    outputs (items ++ more) = outputs items ++ outputs more :=
  List.filterMap_append

@[simp] theorem dirs_append_singleton (items : List Item) (item : Item) :
    dirs (items ++ [item]) = dirs items ++ item.dir?.toList := by
  cases item <;> rw [dirs_append] <;> rfl

@[simp] theorem outputs_append_singleton (items : List Item) (item : Item) :
    outputs (items ++ [item]) = outputs items ++ item.output?.toList := by
  cases item <;> rw [outputs_append] <;> rfl

theorem AtMostOne.of_append {names others : List Text} (h : AtMostOne (names ++ others)) :
    AtMostOne names := by
  obtain ⟨hnil, hone⟩ := h
  rw [List.length_append] at hone
  exact ⟨fun hmem => hnil (List.mem_append_left _ hmem), Nat.le_trans (Nat.le_add_right _ _) hone⟩

theorem atMostOne_append_singleton {names : List Text} {name : Text} :
    AtMostOne (names ++ [name]) ↔ AtMostOne names ∧ name ≠ [] ∧ names = [] := by
  cases names <;> simp [AtMostOne, eq_comm]

/-- What is accepted stays so without the last items. -/
theorem Accepted.of_append (h : Accepted (items ++ more)) : Accepted items := by
  obtain ⟨hdirs, houtputs, hstdout⟩ := h
  rw [dirs_append] at hdirs
  rw [outputs_append] at houtputs
  rw [List.count_append] at hstdout
  exact ⟨hdirs.of_append, houtputs.of_append, Nat.le_trans (Nat.le_add_right _ _) hstdout⟩

/-- An item that can follow others. -/
def Fits (items : List Item) : Item → Prop
  | .dir name => name ≠ [] ∧ dirs items = []
  | .output path => path ≠ [] ∧ outputs items = []
  | .stdout => .stdout ∉ items
  | .verbose => True

theorem accepted_append_singleton :
    Accepted (items ++ [item]) ↔ Accepted items ∧ Fits items item := by
  rw [Accepted, Accepted, dirs_append_singleton, outputs_append_singleton, List.count_append]
  cases item with
  | dir name =>
    simp only [Item.dir?, Item.output?, Option.toList_some, Option.toList_none, List.append_nil,
      atMostOne_append_singleton, Fits]
    grind
  | output path =>
    simp only [Item.dir?, Item.output?, Option.toList_some, Option.toList_none, List.append_nil,
      atMostOne_append_singleton, Fits]
    grind
  | stdout =>
    have hone : items.count .stdout = 0 ↔ .stdout ∉ items := List.count_eq_zero
    simp only [Item.dir?, Item.output?, Option.toList_none, List.append_nil, Fits, ← hone,
      List.count_singleton_self]
    grind
  | verbose => simp [Fits]

namespace Draft

/-- What the draft makes of an item. -/
def take (d : Draft) : Item → Reading
  | .dir name => d.setDir name
  | .output path => d.setOutput path
  | .stdout => d.setStdout
  | .verbose => .ok d.addVerbosity

/-- What the draft makes of items one after another. -/
def takeAll (d : Draft) (items : List Item) : Reading := items.foldlM take d

/-- The draft has taken these items. -/
structure Holds (d : Draft) (items : List Item) : Prop where
  dir_eq : d.dir = (dirs items).head?
  output_eq : d.output = (outputs items).head?
  toStdout_eq : d.toStdout = decide (.stdout ∈ items)
  verbosity_eq : d.verbosity = items.count .verbose

theorem holds_initial : initial.Holds [] := ⟨rfl, rfl, rfl, rfl⟩

theorem Holds.options_eq (h : d.Holds items) : d.options = optionsOf items := by
  simp [options, optionsOf, h.dir_eq, h.output_eq, h.toStdout_eq, h.verbosity_eq,
    List.headD_eq_head?_getD]

/-- The draft takes an item that fits those it has, and refuses any other. -/
theorem Holds.take_cases (h : d.Holds items) (item : Item) :
    (Fits items item ∧ ∃ d', d.take item = .ok d' ∧ d'.Holds (items ++ [item])) ∨
      ¬ Fits items item ∧ d.take item = .error .refused := by
  obtain ⟨hdir, houtput, hstdout, hverbosity⟩ := h
  cases item with
  | dir name =>
    by_cases hfits : Fits items (.dir name)
    · obtain ⟨hname, hnone⟩ := hfits
      refine Or.inl ⟨⟨hname, hnone⟩, _, if_neg ?_, ⟨?_, ?_, ?_, ?_⟩⟩
      · simp [hname, hdir, hnone]
      · simp [hnone]
      · simp [houtput]
      · simp [hstdout]
      · simp [hverbosity]
    · refine Or.inr ⟨hfits, if_pos ?_⟩
      simpa [Fits, hdir, Classical.or_iff_not_imp_left] using hfits
  | output path =>
    by_cases hfits : Fits items (.output path)
    · obtain ⟨hpath, hnone⟩ := hfits
      refine Or.inl ⟨⟨hpath, hnone⟩, _, if_neg ?_, ⟨?_, ?_, ?_, ?_⟩⟩
      · simp [hpath, houtput, hnone]
      · simp [hdir]
      · simp [hnone]
      · simp [hstdout]
      · simp [hverbosity]
    · refine Or.inr ⟨hfits, if_pos ?_⟩
      simpa [Fits, houtput, Classical.or_iff_not_imp_left] using hfits
  | stdout =>
    by_cases hfits : Fits items .stdout
    · refine Or.inl ⟨hfits, _, if_neg ?_, ⟨?_, ?_, ?_, ?_⟩⟩
      · simpa [Fits, hstdout] using hfits
      · simp [hdir]
      · simp [houtput]
      · simp
      · simp [hverbosity]
    · refine Or.inr ⟨hfits, if_pos ?_⟩
      simpa [Fits, hstdout] using hfits
  | verbose =>
    refine Or.inl ⟨trivial, _, rfl, ⟨?_, ?_, ?_, ?_⟩⟩
    · simp [addVerbosity, hdir]
    · simp [addVerbosity, houtput]
    · simp [addVerbosity, hstdout]
    · simp [addVerbosity, hverbosity]

theorem takeAll_cons_of_ok (h : d.take item = .ok d') (items : List Item) :
    d.takeAll (item :: items) = d'.takeAll items := by
  rw [takeAll, List.foldlM_cons, h]
  rfl

theorem takeAll_cons_of_error {request : Request} (h : d.take item = .error request)
    (items : List Item) : d.takeAll (item :: items) = .error request := by
  rw [takeAll, List.foldlM_cons, h]
  rfl

/-- Items together are taken where they are accepted with those that the draft has. -/
theorem Holds.takeAll_cases (h : d.Holds items) (haccepted : Accepted items) (more : List Item) :
    (Accepted (items ++ more) ∧ ∃ d', d.takeAll more = .ok d' ∧ d'.Holds (items ++ more)) ∨
      ¬ Accepted (items ++ more) ∧ d.takeAll more = .error .refused := by
  induction more generalizing d items with
  | nil =>
    rw [List.append_nil]
    exact Or.inl ⟨haccepted, d, rfl, h⟩
  | cons item more ih =>
    rw [List.append_cons]
    rcases h.take_cases item with ⟨hfits, d', htake, hholds⟩ | ⟨hnot, htake⟩
    · rw [takeAll_cons_of_ok htake]
      exact ih hholds (accepted_append_singleton.mpr ⟨haccepted, hfits⟩)
    · rw [takeAll_cons_of_error htake]
      exact Or.inr ⟨fun hall => hnot (accepted_append_singleton.mp hall.of_append).2, rfl⟩

/-- An output that is named ends the wait for its name. -/
def expectingAfter (d : Draft) : Item → Expecting
  | .output _ => .anything
  | _ => d.expecting

theorem expecting_of_take (h : d.take item = .ok d') : d'.expecting = d.expectingAfter item := by
  cases item with
  | dir name =>
    simp only [take, setDir] at h
    split at h
    · cases h
    · obtain rfl := Except.ok.inj h
      rfl
  | output path =>
    simp only [take, setOutput] at h
    split at h
    · cases h
    · obtain rfl := Except.ok.inj h
      rfl
  | stdout =>
    simp only [take, setStdout] at h
    split at h
    · cases h
    · obtain rfl := Except.ok.inj h
      rfl
  | verbose =>
    obtain rfl := Except.ok.inj h
    rfl

theorem expecting_of_takeAll (hexpecting : d.expecting = .anything)
    (h : d.takeAll items = .ok d') : d'.expecting = .anything := by
  induction items generalizing d with
  | nil =>
    obtain rfl := Except.ok.inj h
    exact hexpecting
  | cons item items ih =>
    cases htake : d.take item with
    | error request => simp [takeAll_cons_of_error htake] at h
    | ok next =>
      rw [takeAll_cons_of_ok htake] at h
      refine ih ?_ h
      rw [expecting_of_take htake]
      cases item with
      | output path => rfl
      | dir | stdout | verbose => exact hexpecting

/-- What the draft has taken does not depend on what it expects. -/
theorem Holds.awaiting (h : d.Holds items) (expecting : Expecting) :
    ({ d with expecting := expecting } : Draft).Holds items :=
  ⟨h.dir_eq, h.output_eq, h.toStdout_eq, h.verbosity_eq⟩

theorem takeAll_singleton (d : Draft) (item : Item) : d.takeAll [item] = d.take item := by
  rw [takeAll, List.foldlM_cons]
  cases d.take item <;> rfl

/-- The draft after so many letters that ask for verbosity. -/
def raised (d : Draft) (count : Nat) : Draft := { d with verbosity := d.verbosity + count }

theorem takeAll_verbose (d : Draft) (count : Nat) (more : List Item) :
    d.takeAll (List.replicate count .verbose ++ more) = (d.raised count).takeAll more := by
  induction count generalizing d with
  | zero => rfl
  | succ count ih =>
    rw [List.replicate_succ, List.cons_append]
    refine (ih d.addVerbosity).trans ?_
    simp [raised, addVerbosity, Nat.add_comm, Nat.add_left_comm]

end Draft

end HornSyntax.CommandLine
