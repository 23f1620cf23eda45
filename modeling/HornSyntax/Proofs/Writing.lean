import HornSyntax.Proofs.Path

/-!
Writing a file. A content takes the place of one entry, which its path names in
an existing directory and which is no directory itself. The path leads there
afterwards too.
-/

namespace HornSyntax.FileTree

variable {t t' : FileTree} {location : Location} {path contents : Text}

theorem slash_notMem_of_mem_names : ∀ name ∈ names path, '/' ∉ name := by
  induction path with
  | nil => simp [names]
  | cons c path ih =>
    by_cases hc : c = '/'
    · subst hc
      rw [names_slash_cons]
      exact List.forall_mem_cons.mpr ⟨List.not_mem_nil, ih⟩
    · obtain ⟨first, others, hfirst⟩ := List.exists_cons_of_ne_nil (names_ne_nil path)
      rw [hfirst] at ih
      obtain ⟨hnot, hothers⟩ := List.forall_mem_cons.mp ih
      rw [names, if_neg hc, hfirst]
      refine List.forall_mem_cons.mpr ⟨?_, hothers⟩
      simp [Ne.symm hc, hnot]

/-- A path without a slash at its end is its names up to the last and the last. -/
theorem names_of_splitPath (h : (splitPath path).2.2 = false) :
    names path = (splitPath path).1 ++ [(splitPath path).2.1] := by
  let kept := ((names path).reverse.dropWhile (·.isEmpty)).reverse
  have hlength : kept.length = (names path).length := by
    simpa [splitPath, kept] using h
  have hkept : kept = names path := by
    apply List.reverse_injective
    have hsuffix : kept.reverse <:+ (names path).reverse := by
      rw [List.reverse_reverse]
      exact List.dropWhile_suffix _
    exact hsuffix.eq_of_length (by simpa using hlength)
  have hne : kept ≠ [] := hkept ▸ names_ne_nil path
  have hlast : kept.getLastD [] = kept.getLast hne := by
    rw [List.getLastD_eq_getLast?, List.getLast?_eq_getLast_of_ne_nil hne, Option.getD_some]
  have hsplit : splitPath path =
      (kept.dropLast, kept.getLastD [], kept.length != (names path).length) := rfl
  rw [hsplit, hlast, List.dropLast_append_getLast, hkept]

/-- The place of a file that a path names, in a directory and not taken by one. -/
structure IsSlot (t : FileTree) (path : Text) (parent : Location) (last : Text) : Prop where
  checkPath_eq : checkPath path = .ok ()
  isEntryName : IsEntryName last
  short : last.bytes ≤ longestName
  walk_eq : ∃ parents, names path = parents ++ [last] ∧ t.walk (t.origin path) parents = .ok parent
  parent_eq : t.find? parent = some .directory
  entry_ne : t.find? (parent ++ [last]) ≠ some .directory

theorem exists_isSlot (h : t.slot path = .ok location) :
    ∃ parent last, t.IsSlot path parent last ∧ location = parent ++ [last] := by
  unfold slot at h
  cases hpath : checkPath path with
  | error fault => simp [hpath, bind, Except.bind] at h
  | ok u =>
    cases hparent : t.walk (t.origin path) (splitPath path).1 with
    | error fault => simp [hpath, hparent, bind, Except.bind] at h
    | ok parent =>
      cases hfind : t.find? parent with
      | none => simp [hpath, hparent, hfind, bind, Except.bind] at h
      | some entry =>
        cases entry with
        | file content => simp [hpath, hparent, hfind, bind, Except.bind] at h
        | directory =>
          simp only [hpath, hparent, hfind, bind, Except.bind] at h
          split_ifs at h with hbusy hlong hslashed hentry
          have hnames := names_of_splitPath (Bool.eq_false_iff.mpr hslashed)
          have hlast : (splitPath path).2.1 ∈ names path := by
            rw [hnames]
            simp
          simp only [Bool.or_eq_true, decide_eq_true_eq, not_or] at hbusy
          refine ⟨parent, (splitPath path).2.1, ⟨hpath, ?_, ?_, ?_, hfind, hentry⟩, ?_⟩
          · exact ⟨slash_notMem_of_mem_names _ hlast, hbusy.1.1, hbusy.1.2, hbusy.2⟩
          · exact Nat.not_lt.mp hlong
          · exact ⟨(splitPath path).1, hnames, hparent⟩
          · exact (Except.ok.inj h).symm

variable {parent : Location} {last : Text}

/-- A path leads to the place that it names, and does so once a file is there. -/
theorem IsSlot.locate_put (h : t.IsSlot path parent last) (content : ByteArray) :
    (t.put (parent ++ [last]) (.file content)).locate path = .ok (parent ++ [last]) := by
  obtain ⟨parents, hnames, hwalk⟩ := h.walk_eq
  have hkeep : ∀ l, t.find? l = some .directory →
      (t.put (parent ++ [last]) (.file content)).find? l = some .directory := by
    intro l hl
    have hne : l ≠ parent ++ [last] := fun heq => h.entry_ne (heq ▸ hl)
    rwa [find?_put_of_ne t hne]
  apply locate_eq_ok_iff.mpr
  refine ⟨h.checkPath_eq, ?_⟩
  have hput := walk_of_directories hwalk hkeep
  rw [hnames, walk_append]
  have horigin : (t.put (parent ++ [last]) (.file content)).origin path = t.origin path := rfl
  rw [horigin, hput]
  exact (walk_entry h.isEntryName (hkeep parent h.parent_eq)).trans
    (if_neg (Nat.not_lt.mpr h.short))

theorem target_eq_ok_iff : t.target path = .ok location ↔
    t.stage path = .ok () ∧ t.slot path = .ok location := by
  unfold target
  cases t.stage path with
  | error fault => simp [bind, Except.bind]
  | ok u => simp [bind, Except.bind]

theorem write_eq : t.write path contents =
    (t.target path).map fun location => t.put location (.file (Text.encode contents)) := by
  unfold write
  cases t.target path <;> rfl

end HornSyntax.FileTree
