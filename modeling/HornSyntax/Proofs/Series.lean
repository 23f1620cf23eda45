import HornSyntax.Proofs.Standing

/-!
The series of numbered files in a directory, from `1.txt` up to the first that
gives no text. There is exactly one such series, since a tree has only so many
entries, and checking the directory follows it to its end. So the report covers
the files of the series in their order, or the file behind them stops the check,
and whatever else the directory holds makes no difference. Where a file is missing
and where it cannot be read is a matter of what its name stands for in the tree.
-/

namespace HornSyntax

/-- The report on files with these texts, numbered from one. -/
def aggregate (texts : List Text) : Text :=
  banner ++ (texts.zipIdx 1).flatMap fun file => fileBlock file.1 file.2

/-- From a number on the files of a directory have these texts, and the file
after them has this fault. -/
inductive Series (read : Text → Except Fault Text) (dir : Text) : Nat → List Text → Fault → Prop
  | ended {index : Nat} {fault : Fault} (hfault : read (inputPath dir index) = .error fault) :
      Series read dir index [] fault
  | more {index : Nat} {text : Text} {texts : List Text} {fault : Fault}
      (htext : read (inputPath dir index) = .ok text)
      (hrest : Series read dir (index + 1) texts fault) :
      Series read dir index (text :: texts) fault

namespace Series

variable {read read' : Text → Except Fault Text} {dir text : Text} {index k : Nat}
  {texts : List Text} {fault : Fault}

theorem read_eq (h : Series read dir index texts fault) (hk : texts[k]? = some text) :
    read (inputPath dir (index + k)) = .ok text := by
  induction h generalizing k with
  | ended => simp at hk
  | @more index _ _ _ htext _ ih =>
    cases k with
    | zero =>
      obtain rfl := Option.some.inj hk
      exact htext
    | succ k =>
      have hnext := ih hk
      rwa [Nat.add_right_comm] at hnext

theorem fault_eq (h : Series read dir index texts fault) :
    read (inputPath dir (index + texts.length)) = .error fault := by
  induction h with
  | ended hfault => exact hfault
  | more _ _ ih => rwa [List.length_cons, Nat.add_comm _ 1, ← Nat.add_assoc]

/-- A series depends on its own files and the one after them only. -/
theorem congr (h : Series read dir index texts fault)
    (hsame : ∀ k ≤ texts.length,
      read' (inputPath dir (index + k)) = read (inputPath dir (index + k))) :
    Series read' dir index texts fault := by
  induction h with
  | ended hfault => exact .ended ((hsame 0 (Nat.le_refl 0)).trans hfault)
  | @more index _ texts _ htext _ ih =>
    apply Series.more
    · exact (hsame 0 (Nat.zero_le _)).trans htext
    · apply ih
      intro k hk
      have hnext := hsame (k + 1) (Nat.succ_le_succ hk)
      rwa [Nat.add_comm k 1, ← Nat.add_assoc] at hnext

/-- A file without a text ends a series before it. -/
theorem exists_of_unreadable {count : Nat}
    (h : ∀ text, read (inputPath dir (index + count)) ≠ .ok text) :
    ∃ texts fault, Series read dir index texts fault := by
  induction count generalizing index with
  | zero =>
    cases hread : read (inputPath dir index) with
    | ok text => exact absurd hread (h text)
    | error fault => exact ⟨[], fault, .ended hread⟩
  | succ count ih =>
    cases hread : read (inputPath dir index) with
    | error fault => exact ⟨[], fault, .ended hread⟩
    | ok text =>
      rw [Nat.add_comm count 1, ← Nat.add_assoc] at h
      obtain ⟨texts, fault, hrest⟩ := ih h
      exact ⟨text :: texts, fault, .more hread hrest⟩

end Series

namespace Summary

variable {read : Text → Except Fault Text} {dir : Text} {texts : List Text} {fault : Fault}
  {bound : Nat} {s : Summary}

/-- Adds the blocks of files in a row. -/
def addAll (s : Summary) (dir : Text) (texts : List Text) : Summary :=
  texts.foldl (fun s text => s.add (inputPath dir (s.files + 1)) text) s

theorem files_addAll (s : Summary) (dir : Text) (texts : List Text) :
    (s.addAll dir texts).files = s.files + texts.length := by
  induction texts generalizing s with
  | nil => rfl
  | cons text texts ih =>
    have hfiles : (s.add (inputPath dir (s.files + 1)) text).files = s.files + 1 := rfl
    have hrest := ih (s.add (inputPath dir (s.files + 1)) text)
    rw [hfiles] at hrest
    rw [List.length_cons]
    exact hrest.trans (by omega)

theorem output_addAll (s : Summary) (dir : Text) (texts : List Text) :
    (s.addAll dir texts).output =
      s.output ++ (texts.zipIdx (s.files + 1)).flatMap fun file => fileBlock file.1 file.2 := by
  induction texts generalizing s with
  | nil => simp [addAll]
  | cons text texts ih =>
    have hrest := ih (s.add (inputPath dir (s.files + 1)) text)
    simp only [add] at hrest
    rw [List.zipIdx_cons, List.flatMap_cons, ← List.append_assoc]
    exact hrest

/-- Going on with the next file follows a series to its end, where the bound allows it. -/
theorem extend_of_series (h : Series read dir (s.files + 1) texts fault)
    (hbound : texts.length < bound) :
    extend read dir bound s =
      if fault = .notFound then
        .ok ((s.addAll dir texts).stop (inputPath dir (s.files + 1 + texts.length)))
      else .error (.read (inputPath dir (s.files + 1 + texts.length)) fault) := by
  generalize hindex : s.files + 1 = index at h
  induction h generalizing s bound with
  | @ended index fault hfault =>
    cases bound with
    | zero => cases hbound
    | succ bound =>
      subst hindex
      simp only [extend, hfault]
      cases fault <;> rfl
  | @more index text texts fault htext _ ih =>
    cases bound with
    | zero => cases hbound
    | succ bound =>
      subst hindex
      have hlast : s.files + 1 + 1 + texts.length = s.files + 1 + (texts.length + 1) := by omega
      have hrest := ih (s := s.add (inputPath dir (s.files + 1)) text)
        (Nat.lt_of_succ_lt_succ hbound) rfl
      rw [hlast] at hrest
      simp only [extend, htext]
      exact hrest

end Summary

namespace FileTree

variable {t : FileTree} {dir : Text} {texts : List Text} {fault : Fault}

theorem length_le_of_series (h : Series t.read dir 1 texts fault) :
    texts.length ≤ t.entries.length := by
  have hread : ∀ k < texts.length, ∃ text, t.read (inputPath dir (k + 1)) = .ok text := by
    intro k hk
    have htext := h.read_eq (List.getElem?_eq_getElem hk)
    rw [Nat.add_comm] at htext
    exact ⟨texts[k], htext⟩
  exact le_length_entries hread

/-- Every directory has its series, since some number goes without a file. -/
theorem exists_series (t : FileTree) (dir : Text) :
    ∃ texts fault, Series t.read dir 1 texts fault := by
  obtain ⟨k, hk⟩ : ∃ k, ¬ ∃ text, t.read (inputPath dir (k + 1)) = .ok text := by
    by_contra hall
    push Not at hall
    have hle := le_length_entries fun k (_ : k < t.entries.length + 1) => hall k
    omega
  rw [Nat.add_comm] at hk
  exact Series.exists_of_unreadable (not_exists.mp hk)

/-- Checking a directory follows its series, and no bound cuts it short. -/
theorem checkDirectory_of_series (h : Series t.read dir 1 texts fault) :
    t.checkDirectory dir =
      if fault = .notFound then
        .ok ((Summary.initial.addAll dir texts).stop (inputPath dir (texts.length + 1)))
      else .error (.read (inputPath dir (texts.length + 1)) fault) := by
  have hbound := Nat.lt_succ_of_le (length_le_of_series h)
  have hextend := Summary.extend_of_series (s := .initial) h hbound
  have hlast : Summary.initial.files + 1 + texts.length = texts.length + 1 := Nat.add_comm _ _
  rwa [hlast] at hextend

/-- Nothing but the answers for the files of the series and the next one is used. -/
theorem checkDirectory_congr {t' : FileTree} (h : Series t.read dir 1 texts fault)
    (hsame : ∀ k ≤ texts.length,
      t'.read (joinPath dir (fileName (k + 1))) = t.read (joinPath dir (fileName (k + 1)))) :
    t'.checkDirectory dir = t.checkDirectory dir := by
  have h' : Series t'.read dir 1 texts fault := by
    apply h.congr
    intro k hk
    rw [Nat.add_comm]
    exact hsame k hk
  rw [checkDirectory_of_series h, checkDirectory_of_series h']

theorem stands_of_series (h : Series t.read dir 1 texts fault) {k : Nat} {text : Text}
    (hk : texts[k]? = some text) : t.Stands dir (fileName (k + 1)) (.text text) := by
  have htext := h.read_eq hk
  rw [Nat.add_comm] at htext
  exact stands_of_read (isEntryName_fileName _) (by simp) htext

theorem read_next_of_series (h : Series t.read dir 1 texts fault) :
    t.read (joinPath dir (fileName (texts.length + 1))) = .error fault := by
  have hfault := h.fault_eq
  rwa [Nat.add_comm] at hfault

end FileTree

/-- Checking a directory comes to an end. Each number is a name of its own, which is
missing, a text or unreadable. The names from `1.txt` on are texts up to some number,
and the next one is not. If that one is missing, the report holds the blocks of these
texts in order; if it is unreadable, the check fails with its path. Nothing else
matters: two trees in which the names up to that one stand for the same give the same
result, and so do two in which the directory has the same entries of these names. -/
theorem checkDirectory_follows_series (t : FileTree) (dir : Text) :
    (∀ k, ∃! standing, t.Stands dir (fileName k) standing) ∧
    (∀ i j, fileName i = fileName j → i = j) ∧
    ∃ texts : List Text, texts.length ≤ t.entries.length ∧
      (∀ k text, texts[k]? = some text → t.Stands dir (fileName (k + 1)) (.text text)) ∧
      (∀ text, ¬ t.Stands dir (fileName (texts.length + 1)) (.text text)) ∧
      (t.Stands dir (fileName (texts.length + 1)) .missing ∧
          (∃ s, t.checkDirectory dir = .ok s ∧ s.files = texts.length ∧
            s.output = aggregate texts) ∨
        ∃ fault, t.Stands dir (fileName (texts.length + 1)) (.unreadable fault) ∧
          t.checkDirectory dir =
            .error (.read (FileTree.joinPath dir (fileName (texts.length + 1))) fault)) ∧
      (∀ t' : FileTree, (∀ k ≤ texts.length, ∀ standing,
        t'.Stands dir (fileName (k + 1)) standing ↔ t.Stands dir (fileName (k + 1)) standing) →
          t'.checkDirectory dir = t.checkDirectory dir) ∧
      ∀ (t' : FileTree) (parent : Location), t.LeadsTo dir parent → t'.LeadsTo dir parent →
        (∀ k ≤ texts.length,
          t'.find? (parent ++ [fileName (k + 1)]) = t.find? (parent ++ [fileName (k + 1)])) →
            t'.checkDirectory dir = t.checkDirectory dir := by
  obtain ⟨texts, fault, h⟩ := t.exists_series dir
  have hname : ∀ k, FileTree.IsEntryName (fileName k) := isEntryName_fileName
  have hnext := FileTree.read_next_of_series h
  have hresult := FileTree.checkDirectory_of_series h
  refine ⟨?_, fun i j => fileName_injective, texts, FileTree.length_le_of_series h,
    fun k text => FileTree.stands_of_series h, ?_, ?_, ?_, ?_⟩
  · intro k
    obtain ⟨standing, hstands⟩ := t.exists_stands dir (fileName k)
    exact ⟨standing, hstands, fun other hother => hstands.unique hother (hname k)⟩
  · intro text hstands
    have hread := hstands.read_eq (hname _)
    rw [hnext] at hread
    cases hread
  · by_cases hmissing : fault = .notFound
    · subst hmissing
      rw [if_pos rfl] at hresult
      refine Or.inl ⟨FileTree.stands_of_read (hname _) (by simp) hnext, _, hresult, ?_, ?_⟩
      · exact (Summary.files_addAll .initial dir texts).trans (Nat.zero_add _)
      · exact Summary.output_addAll .initial dir texts
    · rw [if_neg hmissing] at hresult
      refine Or.inr ⟨fault, ?_, hresult⟩
      exact FileTree.stands_of_read (hname _) (by simpa using hmissing) hnext
  · intro t' hsame
    apply FileTree.checkDirectory_congr h
    intro k hk
    obtain ⟨standing, hstands⟩ := t.exists_stands dir (fileName (k + 1))
    have hstands' := (hsame k hk standing).mpr hstands
    rw [hstands.read_eq (hname _), hstands'.read_eq (hname _)]
  · intro t' parent hparent hparent' hsame
    apply FileTree.checkDirectory_congr h
    intro k hk
    exact FileTree.read_eq_of_find?_eq hparent hparent' (hname _) (hsame k hk)

/-- A tree without entries. -/
def bareTree : FileTree := ⟨[], []⟩

/-- A directory that is missing under a name that is too long cannot be checked. -/
theorem not_checked_of_long_name :
    bareTree.find? bareTree.workingDirectory = some .directory ∧
      bareTree.find? (bareTree.workingDirectory ++ [List.replicate 256 'a']) = none ∧
      bareTree.checkDirectory (List.replicate 256 'a') =
        .error (.read (List.replicate 256 'a' ++ "/1.txt".toList) .nameTooLong) := by
  refine ⟨rfl, rfl, ?_⟩
  have hread : bareTree.read (inputPath (List.replicate 256 'a') 1) = .error .nameTooLong := by
    decide +kernel
  have hpath : inputPath (List.replicate 256 'a') 1 =
      List.replicate 256 'a' ++ "/1.txt".toList := by
    decide +kernel
  have hresult := FileTree.checkDirectory_of_series (.ended hread)
  rw [if_neg (by decide)] at hresult
  rw [← hpath]
  exact hresult

end HornSyntax
