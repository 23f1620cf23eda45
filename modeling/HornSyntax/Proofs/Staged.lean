import HornSyntax.Proofs.Walk
import HornSyntax.Proofs.Writing
import HornSyntax.Staging
import Mathlib

/-!
A write step by step comes to the same as a write in one step. A new file in the
directory of the path changes nothing that the path is looked up by, and it is
gone in the end, whether it has taken its place or not.
-/

namespace HornSyntax.FileTree

variable {t t' : FileTree} {location origin parent place : Location} {path last : Text}
  {parents idle : List Text}

/-- Names that lead nowhere else. -/
def IsIdle (all : List Text) : Prop := ∀ name ∈ all, name = [] ∨ name = ['.']

theorem walk_idle (h : IsIdle idle) (hlocation : t.find? location = some .directory) :
    t.walk location idle = .ok location := by
  induction idle with
  | nil => rfl
  | cons name idle ih =>
    obtain ⟨hname, hidle⟩ := List.forall_mem_cons.mp h
    have hstay : (name = [] || name = ['.']) = true := by simpa using hname
    simp only [walk, hlocation, hstay, if_true]
    exact ih hidle

theorem eq_of_walk_idle (h : IsIdle idle) (hwalk : t.walk location idle = .ok parent) :
    parent = location := by
  induction idle with
  | nil => exact (Except.ok.inj hwalk).symm
  | cons name idle ih =>
    obtain ⟨hname, hidle⟩ := List.forall_mem_cons.mp h
    have hstay : (name = [] || name = ['.']) = true := by simpa using hname
    cases hfind : t.find? location with
    | none => simp [walk, hfind] at hwalk
    | some entry =>
      cases entry with
      | file content => simp [walk, hfind] at hwalk
      | directory =>
        simp only [walk, hfind, hstay, if_true] at hwalk
        exact ih hidle hwalk

theorem exists_of_bind_eq_ok {ε α β : Type} {x : Except ε α} {f : α → Except ε β} {b : β}
    (h : x.bind f = .ok b) : ∃ a, x = .ok a ∧ f a = .ok b := by
  cases x with
  | error e => cases h
  | ok a => exact ⟨a, rfl, h⟩

/-- The directory that names lead to is the same with idle names behind them. -/
theorem walk_append_idle_iff {front : List Text} (h : IsIdle idle) :
    t.walk location (front ++ idle) = .ok parent ∧ t.find? parent = some .directory ↔
      t.walk location front = .ok parent ∧ t.find? parent = some .directory := by
  rw [walk_append]
  cases hfront : t.walk location front with
  | error fault => simp [Except.bind]
  | ok reached =>
    simp only [Except.bind]
    constructor
    · rintro ⟨hwalk, hparent⟩
      obtain rfl := eq_of_walk_idle h hwalk
      exact ⟨rfl, hparent⟩
    · rintro ⟨heq, hparent⟩
      obtain rfl := Except.ok.inj heq
      exact ⟨walk_idle h hparent, hparent⟩

theorem exists_trimNames (all : List Text) : ∃ idle, all = trimNames all ++ idle ∧ IsIdle idle := by
  refine ⟨(all.reverse.takeWhile fun name => name = [] || name = ['.']).reverse, ?_, ?_⟩
  · rw [trimNames, ← List.reverse_append, List.takeWhile_append_dropWhile, List.reverse_reverse]
  · intro name hname
    simpa using List.all_eq_true.mp List.all_takeWhile name (List.mem_reverse.mp hname)

theorem trimNames_append_singleton (hlast : IsEntryName last) :
    trimNames (parents ++ [last]) = parents ++ [last] := by
  simp [trimNames, hlast.ne_nil, hlast.ne_dot]

theorem names_joined {all : List Text} (h : ∀ name ∈ all, '/' ∉ name) (hne : all ≠ []) :
    names (Text.joined ['/'] all) = all := by
  induction all with
  | nil => exact absurd rfl hne
  | cons name all ih =>
    obtain ⟨hname, hall⟩ := List.forall_mem_cons.mp h
    cases all with
    | nil =>
      rw [Text.joined, List.intercalate_singleton]
      exact names_of_notMem hname
    | cons next all =>
      rw [Text.joined, List.intercalate_cons_cons, List.append_assoc, List.singleton_append,
        names_append, names_of_notMem hname]
      exact congrArg (name :: ·) (ih hall (List.cons_ne_nil _ _))

/-- The directory of a path is named by the names before the last one, but for
idle names at their end. -/
theorem exists_names_directoryPath (hnames : names path = parents ++ [last])
    (hlast : IsEntryName last) :
    ∃ idle, names (directoryPath path) = trimNames parents ++ idle ∧ IsIdle idle := by
  have hparents : (trimNames (names path)).dropLast = parents := by
    rw [hnames, trimNames_append_singleton hlast, List.dropLast_concat]
  rw [directoryPath, hparents]
  cases hkept : trimNames parents with
  | nil =>
    simp only
    split
    · exact ⟨[[], []], rfl, by simp [IsIdle]⟩
    · exact ⟨[['.']], rfl, by simp [IsIdle]⟩
  | cons name kept =>
    refine ⟨[], ?_, by simp [IsIdle]⟩
    obtain ⟨idle, hidle, -⟩ := exists_trimNames parents
    have hslash : ∀ n ∈ name :: kept, '/' ∉ n := by
      intro n hn
      have hmem : n ∈ names path := by
        rw [hnames, hidle, hkept]
        exact List.mem_append_left _ (List.mem_append_left _ hn)
      exact slash_notMem_of_mem_names n hmem
    simpa using names_joined hslash (List.cons_ne_nil _ _)

theorem length_stagingName (number : Nat) : (stagingName number).length = 10 := by
  have hlt : 100000 + number % 900000 < 10 ^ 6 := by omega
  have hge : ¬ 100000 + number % 900000 < 10 ^ 5 := by omega
  rw [← Nat.length_toDigits_le_iff (by decide) (by decide)] at hlt hge
  rw [stagingName, List.length_append, Text.decimal]
  show 4 + _ = 10
  omega

/-- A name for a new file holds dots, letters and digits. -/
theorem mem_stagingName {number : Nat} {c : Char} (h : c ∈ stagingName number) :
    c ∈ ".tmp".toList ∨ c.isDigit = true := by
  rcases List.mem_append.mp h with hfront | hdigits
  · exact Or.inl hfront
  · exact Or.inr (Text.isDigit_of_mem_decimal hdigits)

theorem notMem_stagingName {c : Char} (hfront : c ∉ ".tmp".toList) (hdigit : c.isDigit = false)
    (number : Nat) : c ∉ stagingName number := by
  intro hmem
  rcases mem_stagingName hmem with h | h
  · exact hfront h
  · rw [hdigit] at h
    cases h

theorem bytes_stagingName (number : Nat) : (stagingName number).bytes = 10 := by
  have hone : ∀ text : Text, (∀ c ∈ text, c.utf8Size = 1) → text.bytes = text.length := by
    intro text
    induction text with
    | nil => simp
    | cons c text ih =>
      intro hall
      obtain ⟨hc, htext⟩ := List.forall_mem_cons.mp hall
      rw [Text.bytes_cons, hc, ih htext, List.length_cons, Nat.add_comm]
  rw [hone, length_stagingName]
  intro c hc
  rw [Char.utf8Size_eq_one_iff, UInt32.le_iff_toNat_le]
  rcases mem_stagingName hc with hfront | hdigit
  · obtain rfl | rfl | rfl | rfl : c = '.' ∨ c = 't' ∨ c = 'm' ∨ c = 'p' := by
      simpa using hfront
    all_goals decide
  · exact Nat.le_trans (CharacterClass.isDigit_iff.mp hdigit).2 (by decide)

theorem isEntryName_stagingName (number : Nat) : IsEntryName (stagingName number) := by
  have hlength := length_stagingName number
  refine ⟨notMem_stagingName (by decide) (by decide) number, ?_, ?_, ?_⟩
  all_goals
    intro heq
    rw [heq] at hlength
    cases hlength

/-- Whether a path to a new file is too long does not depend on its number. -/
theorem checkPath_stagingPath (workingPath path : Text) (number : Nat) :
    checkPath (stagingPath workingPath path number) =
      checkPath (stagingPath workingPath path 0) := by
  have hnul := notMem_stagingName (c := '\x00') (by decide) (by decide)
  have hne : ∀ n, stagingName n ≠ [] := fun n => (isEntryName_stagingName n).ne_nil
  have hsame : ∀ front : Text, checkPath (front ++ stagingName number) =
      checkPath (front ++ stagingName 0) := by
    intro front
    simp [checkPath, hnul, hne, bytes_stagingName]
  unfold stagingPath joinPath
  split
  · exact hsame _
  · have hslash : ∀ dir name : Text, dir ++ '/' :: name = (dir ++ ['/']) ++ name := by simp
    rw [hslash, hslash _ (stagingName 0)]
    exact hsame _

/-- A new file goes into the directory that the names before the last one lead to. -/
theorem walk_staging_iff (hnames : names path = parents ++ [last]) (hlast : IsEntryName last)
    (number : Nat) :
    t.walk origin (names (directoryPath path) ++ [stagingName number]) = .ok place ↔
      ∃ parent, t.walk origin parents = .ok parent ∧ t.find? parent = some .directory ∧
        place = parent ++ [stagingName number] := by
  have hentry := isEntryName_stagingName number
  have hshort : ¬ longestName < (stagingName number).bytes := by
    rw [bytes_stagingName]
    decide
  obtain ⟨idle, hdirectory, hidle⟩ := exists_names_directoryPath hnames hlast
  obtain ⟨idle', hparents, hidle'⟩ := exists_trimNames parents
  -- Both lists of names are the trimmed ones with idle names behind them.
  have hsame : ∀ parent, t.walk origin (names (directoryPath path)) = .ok parent ∧
      t.find? parent = some .directory ↔
        t.walk origin parents = .ok parent ∧ t.find? parent = some .directory := by
    intro parent
    rw [hdirectory, hparents, walk_append_idle_iff hidle, walk_append_idle_iff hidle',
      ← hparents]
  rw [walk_append]
  constructor
  · intro hwalk
    obtain ⟨parent, hfront, hlast⟩ := exists_of_bind_eq_ok hwalk
    obtain ⟨hparent, hplace⟩ := eq_append_of_walk hentry hlast
    obtain ⟨hparents, -⟩ := (hsame parent).mp ⟨hfront, hparent⟩
    exact ⟨parent, hparents, hparent, hplace⟩
  · rintro ⟨parent, hwalk, hparent, rfl⟩
    rw [((hsame parent).mpr ⟨hwalk, hparent⟩).1]
    exact (walk_entry hentry hparent).trans (if_neg hshort)

/-- The number of a new file makes no difference to whether it can be laid down. -/
theorem walk_stagingName (t : FileTree) (origin : Location) (front : List Text) (number : Nat) :
    (t.walk origin (front ++ [stagingName number])).map (fun _ => ()) =
      (t.walk origin (front ++ [stagingName 0])).map fun _ => () := by
  have hlong : ∀ n, ¬ longestName < (stagingName n).bytes := by
    intro n
    rw [bytes_stagingName]
    decide
  rw [walk_append, walk_append]
  cases t.walk origin front with
  | error fault => rfl
  | ok reached =>
    change (t.walk reached [stagingName number]).map (fun _ => ()) =
      (t.walk reached [stagingName 0]).map fun _ => ()
    cases hfind : t.find? reached with
    | none => simp [walk, hfind, Except.map]
    | some entry =>
      cases entry with
      | file content => simp [walk, hfind, Except.map]
      | directory =>
        rw [walk_entry (isEntryName_stagingName number) hfind, if_neg (hlong number),
          walk_entry (isEntryName_stagingName 0) hfind, if_neg (hlong 0)]
        rfl

/-- One of the names tried for a new file is free. -/
def HasFreeName (t : FileTree) (path : Text) (tried : List Nat) : Prop :=
  ∃ number ∈ tried, ∀ place,
    t.walk (t.origin path) (names (directoryPath path) ++ [stagingName number]) = .ok place →
      t.find? place = none

theorem newPlace_cons (t : FileTree) (path : Text) (number : Nat) (more : List Nat) :
    t.newPlace path (number :: more) =
      (t.stage path).bind fun _ =>
        (t.walk (t.origin path) (names (directoryPath path) ++ [stagingName number])).bind
          fun place => if (t.find? place).isSome then t.newPlace path more else .ok place := by
  have hwalk := t.walk_stagingName (t.origin path) (names (directoryPath path)) number
  rw [newPlace, stage, checkPath_stagingPath _ _ number]
  cases checkPath (stagingPath (pathOf t.workingDirectory) path 0) with
  | error fault => rfl
  | ok u =>
    generalize t.walk (t.origin path) (names (directoryPath path) ++ [stagingName number]) = r at *
    generalize t.walk (t.origin path) (names (directoryPath path) ++ [stagingName 0]) = r' at *
    cases r with
    | error fault =>
      cases r' with
      | error fault' =>
        obtain rfl := Except.error.inj hwalk
        rfl
      | ok place => cases hwalk
    | ok place =>
      cases r' with
      | error fault => cases hwalk
      | ok place' => rfl

theorem newPlace_of_stage_error {fault : Fault} {tried : List Nat} (h : t.stage path = .error fault)
    (hne : tried ≠ []) : t.newPlace path tried = .error fault := by
  obtain ⟨number, more, rfl⟩ := List.exists_cons_of_ne_nil hne
  rw [newPlace_cons, h]
  rfl

theorem stage_eq_ok_iff : t.stage path = .ok () ↔
    checkPath (stagingPath (pathOf t.workingDirectory) path 0) = .ok () ∧
      ∃ place, t.walk (t.origin path) (names (directoryPath path) ++ [stagingName 0]) =
        .ok place := by
  unfold stage
  cases checkPath (stagingPath (pathOf t.workingDirectory) path 0) with
  | error fault => simp [bind, Except.bind]
  | ok u =>
    cases t.walk (t.origin path) (names (directoryPath path) ++ [stagingName 0]) with
    | error fault => simp [bind, Except.bind]
    | ok place => simp [bind, Except.bind, pure, Except.pure]

/-- Among names of which one is free a place for a new file is found. -/
theorem exists_newPlace {tried : List Nat} (h : t.stage path = .ok ())
    (hfree : t.HasFreeName path tried) :
    ∃ place number, t.newPlace path tried = .ok place ∧ t.find? place = none ∧
      t.walk (t.origin path) (names (directoryPath path) ++ [stagingName number]) = .ok place := by
  induction tried with
  | nil =>
    obtain ⟨number, hnone, -⟩ := hfree
    cases hnone
  | cons number more ih =>
    obtain ⟨place, hwalk⟩ : ∃ place, t.walk (t.origin path)
        (names (directoryPath path) ++ [stagingName number]) = .ok place := by
      have hunit := t.walk_stagingName (t.origin path) (names (directoryPath path)) number
      obtain ⟨-, place, hzero⟩ := stage_eq_ok_iff.mp h
      rw [hzero] at hunit
      cases hwalk : t.walk (t.origin path) (names (directoryPath path) ++ [stagingName number]) with
      | error fault => rw [hwalk] at hunit; cases hunit
      | ok place => exact ⟨place, rfl⟩
    rw [newPlace_cons, h, hwalk]
    cases hfind : t.find? place with
    | none => exact ⟨place, number, by simp [Except.bind, hfind], hfind, hwalk⟩
    | some entry =>
      -- The first name is taken, so another one is free.
      obtain ⟨other, hmem, hother⟩ := hfree
      rcases List.mem_cons.mp hmem with rfl | hmore
      · rw [hother place hwalk] at hfind
        cases hfind
      · simpa [Except.bind, hfind] using ih ⟨other, hmore, hother⟩

theorem splitPath_of_names (hnames : names path = parents ++ [last]) (hlast : last ≠ []) :
    splitPath path = (parents, last, false) := by
  have hproper : last.isEmpty = false := List.isEmpty_eq_false_iff.mpr hlast
  simp [splitPath, hnames, hproper]

/-- A path leads to its slot in the presence of a new file as well. -/
theorem slot_put (hnames : names path = parents ++ [last]) (hlast : last ≠ [])
    (hwalk : t.walk (t.origin path) parents = .ok parent)
    (hparent : t.find? parent = some .directory) (hplace : t.find? place = none)
    (content : ByteArray) : (t.put place (.file content)).slot path = t.slot path := by
  have hkeep : ∀ l, t.find? l = some .directory →
      (t.put place (.file content)).find? l = some .directory := by
    intro l hl
    have hne : l ≠ place := by
      rintro rfl
      rw [hplace] at hl
      cases hl
    rwa [find?_put_of_ne t hne]
  have hentry : ∀ l, (t.put place (.file content)).find? l = some .directory ↔
      t.find? l = some .directory := by
    intro l
    refine ⟨fun hl => ?_, hkeep l⟩
    by_cases hne : l = place
    · subst hne
      have hroot : l ≠ [] := by
        rintro rfl
        cases hplace
      rw [find?_put_self t hroot] at hl
      cases hl
    · rwa [find?_put_of_ne t hne] at hl
  have horigin : (t.put place (.file content)).origin path = t.origin path := rfl
  unfold slot
  simp only [splitPath_of_names hnames hlast, horigin, hwalk, walk_of_directories hwalk hkeep,
    hparent, hkeep parent hparent, hentry, bind, Except.bind]

theorem remove_put (h : t.find? location = none) (entry : Entry) :
    (t.put location entry).remove location = t := by
  have hroot : location ≠ [] := by
    rintro rfl
    cases h
  rw [find?, if_neg hroot, List.lookup_eq_none_iff] at h
  have hkept : t.entries.filter (·.1 != location) = t.entries := by
    apply List.filter_eq_self.mpr
    intro found hfound
    have hne : location ≠ found.1 := by simpa using h found hfound
    simpa using hne.symm
  cases t
  simp [remove, put, hkept]

theorem move_put (h : t.find? place = none) (entry : Entry) (location : Location) :
    (t.put place entry).move place location = t.put location entry := by
  have hroot : place ≠ [] := by
    rintro rfl
    cases h
  rw [move, find?_put_self t hroot]
  simp only [remove_put h]

theorem slot_eq_ok_iff : t.slot path = .ok location ↔
    ∃ parent last, t.IsSlot path parent last ∧ location = parent ++ [last] := by
  refine ⟨exists_isSlot, ?_⟩
  rintro ⟨parent, last, h, rfl⟩
  obtain ⟨parents, hnames, hwalk⟩ := h.walk_eq
  have hproper := h.isEntryName
  have hbusy : (last = [] || last = ['.'] || last = ['.', '.']) = false := by
    simp [hproper.ne_nil, hproper.ne_dot, hproper.ne_dots]
  unfold slot
  simp only [h.checkPath_eq, splitPath_of_names hnames hproper.ne_nil, hwalk, h.parent_eq, hbusy,
    Nat.not_lt.mpr h.short, h.entry_ne, bind, Except.bind, Bool.false_eq_true, if_false]

/-- A place for a path in a tree, beside which the path of a new file is not too long. -/
def Accepts (t : FileTree) (path : Text) (parent : Location) (last : Text) : Prop :=
  t.IsSlot path parent last ∧
    checkPath (stagingPath (pathOf t.workingDirectory) path 0) = .ok ()

theorem target_eq_ok_iff_accepts : t.target path = .ok location ↔
    ∃ parent last, t.Accepts path parent last ∧ location = parent ++ [last] := by
  rw [target_eq_ok_iff, slot_eq_ok_iff, stage_eq_ok_iff]
  constructor
  · rintro ⟨⟨hpath, -⟩, parent, last, hslot, hlocation⟩
    exact ⟨parent, last, ⟨hslot, hpath⟩, hlocation⟩
  · rintro ⟨parent, last, ⟨hslot, hpath⟩, hlocation⟩
    obtain ⟨parents, hnames, hwalk⟩ := hslot.walk_eq
    have hplace := (walk_staging_iff hnames hslot.isEntryName 0).mpr
      ⟨parent, hwalk, hslot.parent_eq, rfl⟩
    exact ⟨⟨hpath, _, hplace⟩, parent, last, hslot, hlocation⟩

/-- The names of a path end in that of an entry. -/
def EndsInName (path : Text) : Prop :=
  ∃ parents last, names path = parents ++ [last] ∧ IsEntryName last

/-- A write step by step comes to the same as a write in one step, and leaves
the tree as it is where it fails. -/
theorem perform_eq {w : WriteRequest} (hname : EndsInName w.path)
    (hfree : t.HasFreeName w.path w.tried) :
    t.perform w =
      match t.target w.path with
      | .error fault => (t, .error fault)
      | .ok location => (t.put location (.file (Text.encode w.contents)), .ok ()) := by
  obtain ⟨parents, last, hnames, hlast⟩ := hname
  rw [perform, target]
  cases hstage : t.stage w.path with
  | error fault =>
    obtain ⟨number, hmem, -⟩ := hfree
    rw [newPlace_of_stage_error hstage (List.ne_nil_of_mem hmem)]
    rfl
  | ok u =>
    obtain ⟨place, number, hnew, hplace, hwalk⟩ := exists_newPlace hstage hfree
    obtain ⟨parent, hparents, hparent, -⟩ := (walk_staging_iff hnames hlast number).mp hwalk
    have hslot := slot_put hnames hlast.ne_nil hparents hparent hplace (Text.encode w.contents)
    simp only [hnew, hslot, bind, Except.bind]
    cases t.slot w.path with
    | error fault => simp only [remove_put hplace]
    | ok location => simp only [move_put hplace]

end HornSyntax.FileTree
