import HornSyntax.Proofs.Path

/-!
What stands at the name of a file in a directory. The names of the directory are
followed from place to place. If one of these places holds nothing, the file is
missing, and if one is a file, then nothing can stand below it. Otherwise the entry
of that name decides, so that every name stands for one thing, and reading its path
finds out for which.
-/

namespace HornSyntax

inductive Standing where
  | missing
  | text (text : Text)
  | unreadable (fault : Fault)

/-- What reading a file tells of it. -/
def Standing.answer : Standing → Except Fault Text
  | .missing => .error .notFound
  | .text contents => .ok contents
  | .unreadable fault => .error fault

/-- The answer tells everything apart but what is missing and what is not found. -/
theorem Standing.eq_of_answer {standing standing' : Standing}
    (h : standing.answer = standing'.answer) (hne : standing ≠ .unreadable .notFound)
    (hne' : standing' ≠ .unreadable .notFound) : standing = standing' := by
  cases standing <;> cases standing' <;> simp_all [answer]

namespace FileTree

/-- The way into a directory comes by a place, with names left to follow. -/
def ComesBy (t : FileTree) (dir : Text) (place : Location) (left : List Text) : Prop :=
  ∃ passed, directoryNames dir = passed ++ left ∧ t.walk (t.origin dir) passed = .ok place

/-- The way into a directory ends at a place, where there is one. -/
def LeadsTo (t : FileTree) (dir : Text) (parent : Location) : Prop :=
  t.ComesBy dir parent [] ∧ t.find? parent = some .directory

/-- The place of a name in a directory that is there, within the limits of the system. -/
structure Reaches (t : FileTree) (dir name : Text) (parent : Location) : Prop where
  checkPath_eq : checkPath (joinPath dir name) = .ok ()
  leadsTo : t.LeadsTo dir parent
  short : name.bytes ≤ longestName

/-- What a name in a directory stands for. -/
inductive Stands (t : FileTree) (dir name : Text) : Standing → Prop
  | invalidPath {fault : Fault} (hpath : checkPath (joinPath dir name) = .error fault) :
      Stands t dir name (.unreadable fault)
  | gap {place : Location} {left : List Text} (hpath : checkPath (joinPath dir name) = .ok ())
      (hway : t.ComesBy dir place left) (hplace : t.find? place = none) :
      Stands t dir name .missing
  | belowFile {place : Location} {left : List Text} {content : ByteArray}
      (hpath : checkPath (joinPath dir name) = .ok ()) (hway : t.ComesBy dir place left)
      (hplace : t.find? place = some (.file content)) :
      Stands t dir name (.unreadable .notADirectory)
  | longDirectory {place : Location} {next : Text} {left : List Text}
      (hpath : checkPath (joinPath dir name) = .ok ()) (hway : t.ComesBy dir place (next :: left))
      (hplace : t.find? place = some .directory) (hlong : longestName < next.bytes) :
      Stands t dir name (.unreadable .nameTooLong)
  | longName {parent : Location} (hpath : checkPath (joinPath dir name) = .ok ())
      (hparent : t.LeadsTo dir parent) (hlong : longestName < name.bytes) :
      Stands t dir name (.unreadable .nameTooLong)
  | absent {parent : Location} (hreach : t.Reaches dir name parent)
      (hentry : t.find? (parent ++ [name]) = none) : Stands t dir name .missing
  | directory {parent : Location} (hreach : t.Reaches dir name parent)
      (hentry : t.find? (parent ++ [name]) = some .directory) :
      Stands t dir name (.unreadable .isADirectory)
  | noText {parent : Location} {content : ByteArray} (hreach : t.Reaches dir name parent)
      (hentry : t.find? (parent ++ [name]) = some (.file content))
      (hcontent : Text.decode? content = none) : Stands t dir name (.unreadable .invalidText)
  | text {parent : Location} {content : ByteArray} {text : Text}
      (hreach : t.Reaches dir name parent)
      (hentry : t.find? (parent ++ [name]) = some (.file content))
      (hcontent : Text.decode? content = some text) : Stands t dir name (.text text)

variable {t t' : FileTree} {dir name : Text} {location place parent : Location}
  {left more : List Text} {standing standing' : Standing}

theorem walk_of_none (h : t.find? location = none) {all : List Text} (hne : all ≠ []) :
    t.walk location all = .error .notFound := by
  obtain ⟨name, rest, rfl⟩ := List.exists_cons_of_ne_nil hne
  simp [walk, h]

theorem walk_of_file {content : ByteArray} (h : t.find? location = some (.file content))
    {all : List Text} (hne : all ≠ []) : t.walk location all = .error .notADirectory := by
  obtain ⟨name, rest, rfl⟩ := List.exists_cons_of_ne_nil hne
  simp [walk, h]

/-- The names that stay in a directory or go up are short. -/
theorem walk_of_long (h : t.find? location = some .directory) (hlong : longestName < name.bytes) :
    t.walk location (name :: more) = .error .nameTooLong := by
  have hne : ∀ short : Text, short.bytes ≤ longestName → name ≠ short := by
    rintro short hshort rfl
    omega
  have hnil := hne [] (by decide)
  have hdot := hne ['.'] (by decide)
  have hdots := hne ['.', '.'] (by decide)
  simp [walk, h, hnil, hdot, hdots, hlong]

/-- From a directory a short name leads on, whatever names follow it. -/
theorem exists_walk_cons (h : t.find? location = some .directory)
    (hshort : name.bytes ≤ longestName) :
    ∃ next, ∀ all, t.walk location (name :: all) = t.walk next all := by
  by_cases hstay : name = [] ∨ name = ['.']
  · exact ⟨location, fun all => by simp [walk, h, hstay]⟩
  · by_cases hup : name = ['.', '.']
    · exact ⟨location.dropLast, fun all => by simp [walk, h, hup]⟩
    · exact ⟨location ++ [name], fun all => by
        simp [walk, h, hstay, hup, Nat.not_lt.mpr hshort]⟩

/-- A walk ends in a directory, or it comes by a place from which it cannot go on. -/
theorem walk_cases (t : FileTree) (location : Location) (all : List Text) :
    (∃ parent, t.walk location all = .ok parent ∧ t.find? parent = some .directory) ∨
      ∃ passed left place, all = passed ++ left ∧ t.walk location passed = .ok place ∧
        (t.find? place = none ∨ (∃ content, t.find? place = some (.file content)) ∨
          ∃ next rest, left = next :: rest ∧ t.find? place = some .directory ∧
            longestName < next.bytes) := by
  induction all generalizing location with
  | nil =>
    cases hfind : t.find? location with
    | none => exact Or.inr ⟨[], [], location, rfl, rfl, Or.inl hfind⟩
    | some entry =>
      cases entry with
      | file content =>
        exact Or.inr ⟨[], [], location, rfl, rfl, Or.inr (Or.inl ⟨content, hfind⟩)⟩
      | directory => exact Or.inl ⟨location, rfl, hfind⟩
  | cons name all ih =>
    cases hfind : t.find? location with
    | none => exact Or.inr ⟨[], name :: all, location, rfl, rfl, Or.inl hfind⟩
    | some entry =>
      cases entry with
      | file content =>
        exact Or.inr ⟨[], name :: all, location, rfl, rfl, Or.inr (Or.inl ⟨content, hfind⟩)⟩
      | directory =>
        by_cases hlong : longestName < name.bytes
        · exact Or.inr ⟨[], name :: all, location, rfl, rfl,
            Or.inr (Or.inr ⟨name, all, rfl, hfind, hlong⟩)⟩
        · obtain ⟨next, hnext⟩ := exists_walk_cons hfind (Nat.not_lt.mp hlong)
          rcases ih next with ⟨parent, hwalk, hparent⟩ | ⟨passed, left, place, hall, hwalk, hstop⟩
          · exact Or.inl ⟨parent, (hnext all).trans hwalk, hparent⟩
          · subst hall
            exact Or.inr ⟨name :: passed, left, place, rfl, (hnext passed).trans hwalk, hstop⟩

theorem ComesBy.walk_eq (h : t.ComesBy dir place left) (more : List Text) :
    t.walk (t.origin dir) (directoryNames dir ++ more) = t.walk place (left ++ more) := by
  obtain ⟨passed, hnames, hwalk⟩ := h
  rw [hnames, List.append_assoc, walk_append, hwalk]
  rfl

theorem locate_joinPath_eq (hslash : '/' ∉ name) (hpath : checkPath (joinPath dir name) = .ok ()) :
    t.locate (joinPath dir name) = t.walk (t.origin dir) (directoryNames dir ++ [name]) := by
  unfold locate
  rw [hpath, origin_joinPath t dir hslash, names_joinPath dir hslash]
  rfl

theorem read_of_locate_error {path : Text} {fault : Fault} (h : t.locate path = .error fault) :
    t.read path = .error fault := by
  unfold read
  rw [h]
  rfl

/-- Where the way into a directory cannot be followed to a name in it, the name cannot be read. -/
theorem ComesBy.read_eq {fault : Fault} (hway : t.ComesBy dir place left)
    (hname : IsEntryName name) (hpath : checkPath (joinPath dir name) = .ok ())
    (hstop : t.walk place (left ++ [name]) = .error fault) :
    t.read (joinPath dir name) = .error fault := by
  apply read_of_locate_error
  rw [locate_joinPath_eq hname.notMem_slash hpath, hway.walk_eq, hstop]

theorem LeadsTo.locate_eq (hparent : t.LeadsTo dir parent) (hname : IsEntryName name)
    (hpath : checkPath (joinPath dir name) = .ok ()) :
    t.locate (joinPath dir name) =
      if longestName < name.bytes then .error .nameTooLong else .ok (parent ++ [name]) := by
  rw [locate_joinPath_eq hname.notMem_slash hpath, hparent.1.walk_eq, List.nil_append,
    walk_entry hname hparent.2]

theorem Reaches.locate_eq (h : t.Reaches dir name parent) (hname : IsEntryName name) :
    t.locate (joinPath dir name) = .ok (parent ++ [name]) := by
  rw [h.leadsTo.locate_eq hname h.checkPath_eq, if_neg (Nat.not_lt.mpr h.short)]

/-- Reading finds out what a name stands for. -/
theorem Stands.read_eq (h : t.Stands dir name standing) (hname : IsEntryName name) :
    t.read (joinPath dir name) = standing.answer := by
  cases h with
  | invalidPath hpath =>
    apply read_of_locate_error
    simp [locate, hpath, bind, Except.bind]
  | gap hpath hway hplace => exact hway.read_eq hname hpath (walk_of_none hplace (by simp))
  | belowFile hpath hway hplace => exact hway.read_eq hname hpath (walk_of_file hplace (by simp))
  | longDirectory hpath hway hplace hlong =>
    exact hway.read_eq hname hpath (walk_of_long hplace hlong)
  | longName hpath hparent hlong =>
    exact hparent.1.read_eq hname hpath (walk_of_long hparent.2 hlong)
  | absent hreach hentry =>
    simp [read, hreach.locate_eq hname, hentry, bind, Except.bind, Standing.answer]
  | directory hreach hentry =>
    simp [read, hreach.locate_eq hname, hentry, bind, Except.bind, Standing.answer]
  | noText hreach hentry hcontent =>
    simp [read, hreach.locate_eq hname, hentry, hcontent, bind, Except.bind, Standing.answer]
  | text hreach hentry hcontent =>
    simp [read, hreach.locate_eq hname, hentry, hcontent, bind, Except.bind, Standing.answer]

/-- Every name stands for something. -/
theorem exists_stands (t : FileTree) (dir name : Text) : ∃ standing, t.Stands dir name standing := by
  cases hpath : checkPath (joinPath dir name) with
  | error fault => exact ⟨_, .invalidPath hpath⟩
  | ok u =>
    rcases t.walk_cases (t.origin dir) (directoryNames dir) with
      ⟨parent, hwalk, hparent⟩ | ⟨passed, left, place, hnames, hwalk, hstop⟩
    · have hleads : t.LeadsTo dir parent := ⟨⟨_, (List.append_nil _).symm, hwalk⟩, hparent⟩
      by_cases hlong : longestName < name.bytes
      · exact ⟨_, .longName hpath hleads hlong⟩
      · have hreach : t.Reaches dir name parent := ⟨hpath, hleads, Nat.not_lt.mp hlong⟩
        cases hentry : t.find? (parent ++ [name]) with
        | none => exact ⟨_, .absent hreach hentry⟩
        | some entry =>
          cases entry with
          | directory => exact ⟨_, .directory hreach hentry⟩
          | file content =>
            cases hcontent : Text.decode? content with
            | none => exact ⟨_, .noText hreach hentry hcontent⟩
            | some text => exact ⟨_, .text hreach hentry hcontent⟩
    · have hway : t.ComesBy dir place left := ⟨passed, hnames, hwalk⟩
      rcases hstop with hnone | ⟨content, hfile⟩ | ⟨next, rest, rfl, hdirectory, hlong⟩
      · exact ⟨_, .gap hpath hway hnone⟩
      · exact ⟨_, .belowFile hpath hway hfile⟩
      · exact ⟨_, .longDirectory hpath hway hdirectory hlong⟩

/-- What is missing is not unreadable. -/
theorem Stands.ne_notFound (h : t.Stands dir name standing) (hname : IsEntryName name) :
    standing ≠ .unreadable .notFound := by
  rintro rfl
  cases h with
  | invalidPath hpath =>
    have hne : joinPath dir name ≠ [] := by
      unfold joinPath
      split <;> simp [hname.ne_nil]
    unfold checkPath at hpath
    rw [if_neg hne] at hpath
    split_ifs at hpath <;> cases hpath

/-- What reading tells of a name is what it stands for. -/
theorem stands_of_read (hname : IsEntryName name) (hne : standing ≠ .unreadable .notFound)
    (h : t.read (joinPath dir name) = standing.answer) : t.Stands dir name standing := by
  obtain ⟨other, hother⟩ := t.exists_stands dir name
  have hanswer := (hother.read_eq hname).symm.trans h
  obtain rfl := Standing.eq_of_answer hanswer (hother.ne_notFound hname) hne
  exact hother

/-- A name stands for one thing. -/
theorem Stands.unique (h : t.Stands dir name standing) (h' : t.Stands dir name standing')
    (hname : IsEntryName name) : standing' = standing := by
  have hanswer := (h'.read_eq hname).symm.trans (h.read_eq hname)
  exact Standing.eq_of_answer hanswer (h'.ne_notFound hname) (h.ne_notFound hname)

/-- In a directory only the entry of a name decides what the name stands for. -/
theorem read_eq_of_find?_eq (hparent : t.LeadsTo dir parent) (hparent' : t'.LeadsTo dir parent)
    (hname : IsEntryName name) (h : t'.find? (parent ++ [name]) = t.find? (parent ++ [name])) :
    t'.read (joinPath dir name) = t.read (joinPath dir name) := by
  cases hpath : checkPath (joinPath dir name) with
  | error fault =>
    have hinvalid : t.Stands dir name (.unreadable fault) := .invalidPath hpath
    have hinvalid' : t'.Stands dir name (.unreadable fault) := .invalidPath hpath
    rw [hinvalid.read_eq hname, hinvalid'.read_eq hname]
  | ok u =>
    unfold read
    rw [hparent.locate_eq hname hpath, hparent'.locate_eq hname hpath]
    split_ifs
    · rfl
    · simp only [bind, Except.bind, h]

end FileTree

end HornSyntax
