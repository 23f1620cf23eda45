import HornSyntax.Directory
import Mathlib.Data.List.Nodup
import Mathlib.Data.List.Perm.Subperm

/-!
Paths that lead into a directory. Their names are those of the directory and
one more, so that following them comes to the directory first and looks the last
name up there. A walk goes through directories only, and thus depends on nothing
else in the tree. Numbered files have different names and are different entries,
so a tree holds no more of them than it has entries.
-/

namespace HornSyntax

namespace FileTree

theorem names_ne_nil (path : Text) : names path ≠ [] := by
  unfold names
  split
  · simp
  · split
    · simp
    · split <;> simp

theorem names_slash_cons (rest : Text) : names ('/' :: rest) = [] :: names rest := by
  rw [names, if_pos rfl]

/-- A slash separates the names before it from those behind it. -/
theorem names_append (before after : Text) :
    names (before ++ '/' :: after) = names before ++ names after := by
  induction before with
  | nil => exact names_slash_cons after
  | cons c before ih =>
    by_cases hc : c = '/'
    · subst hc
      rw [List.cons_append, names_slash_cons, names_slash_cons, ih, List.cons_append]
    · obtain ⟨first, others, hfirst⟩ := List.exists_cons_of_ne_nil (names_ne_nil before)
      rw [List.cons_append, names, if_neg hc, ih, names, if_neg hc, hfirst]
      rfl

theorem names_of_notMem {name : Text} (h : '/' ∉ name) : names name = [name] := by
  induction name with
  | nil => rfl
  | cons c name ih =>
    have hc : c ≠ '/' := fun heq => h (heq ▸ List.mem_cons_self)
    rw [names, if_neg hc, ih fun hmem => h (List.mem_cons_of_mem c hmem)]

/-- The names of a directory in the paths that lead into it. -/
def directoryNames (dir : Text) : List Text :=
  if dir = [] || dir.getLast? = some '/' then (names dir).dropLast else names dir

theorem names_joinPath (dir : Text) {name : Text} (h : '/' ∉ name) :
    names (joinPath dir name) = directoryNames dir ++ [name] := by
  have hname := names_of_notMem h
  by_cases hnil : dir = []
  · simp [joinPath, directoryNames, hnil, hname, names]
  · by_cases hslash : dir.getLast? = some '/'
    · obtain ⟨init, rfl⟩ := List.getLast?_eq_some_iff.mp hslash
      have hdir : names (init ++ ['/']) = names init ++ [[]] := names_append init []
      have hjoin : init ++ ['/'] ++ name = init ++ '/' :: name := by simp
      simp [joinPath, directoryNames, hdir, hjoin, names_append, hname]
    · simp [joinPath, directoryNames, hnil, hslash, names_append, hname]

theorem head?_joinPath (dir : Text) {name : Text} (h : '/' ∉ name) :
    (joinPath dir name).head? = some '/' ↔ dir.head? = some '/' := by
  have hname : name.head? ≠ some '/' := fun heq => h (List.mem_of_mem_head? heq)
  cases dir with
  | nil => simpa [joinPath] using hname
  | cons c dir =>
    unfold joinPath
    split <;> simp

variable {t t' : FileTree} {location parent : Location} {path dir name : Text}

theorem origin_joinPath (t : FileTree) (dir : Text) (h : '/' ∉ name) :
    t.origin (joinPath dir name) = t.origin dir := by
  simp only [origin, head?_joinPath dir h]

theorem walk_append (t : FileTree) (location : Location) (front back : List Text) :
    t.walk location (front ++ back) =
      (t.walk location front).bind fun reached => t.walk reached back := by
  induction front generalizing location with
  | nil => rfl
  | cons name front ih =>
    rw [List.cons_append, walk, walk]
    cases t.find? location with
    | none => rfl
    | some entry =>
      cases entry with
      | file content => rfl
      | directory =>
        simp only [ih]
        split_ifs <;> rfl

/-- A walk that arrives went through directories, so it arrives in every tree that has them. -/
theorem walk_of_directories {all : List Text} (h : t.walk location all = .ok parent)
    (hkeep : ∀ l, t.find? l = some .directory → t'.find? l = some .directory) :
    t'.walk location all = .ok parent := by
  induction all generalizing location with
  | nil => exact h
  | cons name all ih =>
    unfold walk at h ⊢
    cases hfind : t.find? location with
    | none => simp [hfind] at h
    | some entry =>
      cases entry with
      | file content => simp [hfind] at h
      | directory =>
        simp only [hfind, hkeep location hfind] at h ⊢
        split_ifs at h ⊢ <;> exact ih h

/-- A name that stands for an entry of its own in a directory. -/
structure IsEntryName (name : Text) : Prop where
  notMem_slash : '/' ∉ name
  ne_nil : name ≠ []
  ne_dot : name ≠ ['.']
  ne_dots : name ≠ ['.', '.']

/-- Behind a directory a walk goes to one of its entries, unless the name is too long. -/
theorem walk_entry (hname : IsEntryName name) (hparent : t.find? parent = some .directory) :
    t.walk parent [name] =
      if longestName < name.bytes then .error .nameTooLong else .ok (parent ++ [name]) := by
  have hstay : ¬ (name = [] ∨ name = ['.']) := by
    simp [hname.ne_nil, hname.ne_dot]
  simp [walk, hparent, hstay, hname.ne_dots]

/-- A walk that arrives behind one more name comes from a directory. -/
theorem eq_append_of_walk (hname : IsEntryName name) (h : t.walk parent [name] = .ok location) :
    t.find? parent = some .directory ∧ location = parent ++ [name] := by
  cases hparent : t.find? parent with
  | none => simp [walk, hparent] at h
  | some entry =>
    cases entry with
    | file content => simp [walk, hparent] at h
    | directory =>
      rw [walk_entry hname hparent] at h
      split_ifs at h
      exact ⟨rfl, (Except.ok.inj h).symm⟩

theorem locate_eq_ok_iff : t.locate path = .ok location ↔
    checkPath path = .ok () ∧ t.walk (t.origin path) (names path) = .ok location := by
  unfold locate
  cases checkPath path with
  | error fault => simp [bind, Except.bind]
  | ok u => simp [bind, Except.bind]

/-- A path gives a text where it leads to a file in UTF-8. -/
theorem read_eq_ok_iff {text : Text} : t.read path = .ok text ↔
    ∃ location content, t.locate path = .ok location ∧
      t.find? location = some (.file content) ∧ Text.decode? content = some text := by
  unfold read
  cases hlocate : t.locate path with
  | error fault => simp [bind, Except.bind]
  | ok location =>
    cases hfind : t.find? location with
    | none => simp [bind, Except.bind, hfind]
    | some entry =>
      cases entry with
      | directory => simp [bind, Except.bind, hfind]
      | file content =>
        cases hdecode : Text.decode? content with
        | none => simp [bind, Except.bind, hfind, hdecode]
        | some decoded => simp [bind, Except.bind, hfind, hdecode]

/-- A path into a directory leads to the entry of its last name there. -/
theorem locate_joinPath (hname : IsEntryName name)
    (h : t.locate (joinPath dir name) = .ok location) :
    ∃ parent, t.walk (t.origin dir) (directoryNames dir) = .ok parent ∧
      location = parent ++ [name] := by
  have hwalk := (locate_eq_ok_iff.mp h).2
  rw [origin_joinPath t dir hname.notMem_slash, names_joinPath dir hname.notMem_slash,
    walk_append] at hwalk
  cases hparent : t.walk (t.origin dir) (directoryNames dir) with
  | error fault => simp [hparent, Except.bind] at hwalk
  | ok parent =>
    rw [hparent] at hwalk
    exact ⟨parent, rfl, (eq_append_of_walk hname hwalk).2⟩

end FileTree

/-- The name of a numbered file. -/
def fileName (fileIndex : Nat) : Text := Text.decimal fileIndex ++ ".txt".toList

theorem fileName_injective {i j : Nat} (h : fileName i = fileName j) : i = j :=
  Text.decimal_injective (List.append_cancel_right h)

theorem isEntryName_fileName (fileIndex : Nat) : FileTree.IsEntryName (fileName fileIndex) := by
  have hlength := List.length_pos_of_ne_nil (Text.decimal_ne_nil fileIndex)
  have hne : ∀ other : Text, other.length < 4 → fileName fileIndex ≠ other := by
    intro other hother heq
    have hsame := congrArg List.length heq
    simp [fileName] at hsame
    omega
  refine ⟨?_, hne _ (by decide), hne _ (by decide), hne _ (by decide)⟩
  intro hmem
  rcases List.mem_append.mp hmem with hdigit | hdot
  · exact absurd (Text.isDigit_of_mem_decimal hdigit) (by decide)
  · exact absurd hdot (by decide)

namespace FileTree

variable {t : FileTree} {dir : Text} {count : Nat}

theorem mem_entries_of_find? {location : Location} {content : ByteArray}
    (h : t.find? location = some (.file content)) : location ∈ t.entries.map Prod.fst := by
  unfold find? at h
  by_cases hroot : location = []
  · simp [hroot] at h
  · rw [if_neg hroot] at h
    obtain ⟨front, back, hentries, -⟩ := List.lookup_eq_some_iff.mp h
    simp [hentries]

/-- The numbered files that can be read are entries of their own. -/
theorem le_length_entries (h : ∀ k < count, ∃ text, t.read (inputPath dir (k + 1)) = .ok text) :
    count ≤ t.entries.length := by
  cases count with
  | zero => exact Nat.zero_le _
  | succ count =>
    have hlocation : ∀ k < count + 1, ∃ parent,
        t.walk (t.origin dir) (directoryNames dir) = .ok parent ∧
          parent ++ [fileName (k + 1)] ∈ t.entries.map Prod.fst := by
      intro k hk
      obtain ⟨text, htext⟩ := h k hk
      obtain ⟨location, content, hlocate, hfind, -⟩ := read_eq_ok_iff.mp htext
      obtain ⟨parent, hparent, rfl⟩ := locate_joinPath (isEntryName_fileName (k + 1)) hlocate
      exact ⟨parent, hparent, mem_entries_of_find? hfind⟩
    obtain ⟨parent, hparent, -⟩ := hlocation 0 (Nat.succ_pos count)
    let locations := (List.range (count + 1)).map fun k => parent ++ [fileName (k + 1)]
    have hnodup : locations.Nodup := by
      apply List.nodup_range.map
      intro i j hij
      have hname := List.append_cancel_left hij
      have hindex := fileName_injective (List.singleton_inj.mp hname)
      omega
    have hsubset : locations ⊆ t.entries.map Prod.fst := by
      intro location hlocation'
      obtain ⟨k, hk, rfl⟩ := List.mem_map.mp hlocation'
      obtain ⟨parent', hparent', hmem⟩ := hlocation k (List.mem_range.mp hk)
      obtain rfl := Except.ok.inj (hparent.symm.trans hparent')
      exact hmem
    have hle := (hnodup.subperm hsubset).length_le
    simpa [locations] using hle

end FileTree

end HornSyntax
