import HornSyntax.Proofs.Staged
import Mathlib

/-!
Writes one after another. Each one puts its whole content in its place or leaves
the tree as it is, so the directories stay the same, every path keeps leading to
the same place, and a place holds what was last put there.
-/

namespace HornSyntax.FileTree

variable {t t' : FileTree} {w : WriteRequest} {ws : List WriteRequest} {location parent : Location}
  {path last : Text}

/-- Trees with the same directories and the same start of relative paths. -/
structure SameDirectories (t t' : FileTree) : Prop where
  workingDirectory_eq : t'.workingDirectory = t.workingDirectory
  find?_iff : ∀ l, t'.find? l = some .directory ↔ t.find? l = some .directory

namespace SameDirectories

theorem refl (t : FileTree) : t.SameDirectories t := ⟨rfl, fun _ => Iff.rfl⟩

/-- A file that takes the place of none of them leaves the directories the same. -/
theorem put (hroot : location ≠ []) (h : t.find? location ≠ some .directory) (content : ByteArray) :
    t.SameDirectories (t.put location (.file content)) := by
  refine ⟨rfl, ?_⟩
  intro l
  by_cases hne : l = location
  · subst hne
    rw [find?_put_self t hroot]
    simp [h]
  · rw [find?_put_of_ne t hne]

/-- A path leads to the same place. -/
theorem locate_iff (h : t.SameDirectories t') :
    t'.locate path = .ok location ↔ t.locate path = .ok location := by
  have horigin : t'.origin path = t.origin path := by
    rw [origin, origin, h.workingDirectory_eq]
  rw [locate_eq_ok_iff, locate_eq_ok_iff, horigin]
  constructor
  · rintro ⟨hpath, hwalk⟩
    exact ⟨hpath, walk_of_directories hwalk fun l => (h.find?_iff l).mp⟩
  · rintro ⟨hpath, hwalk⟩
    exact ⟨hpath, walk_of_directories hwalk fun l => (h.find?_iff l).mpr⟩

end SameDirectories

theorem IsSlot.locate_eq (h : t.IsSlot path parent last) :
    t.locate path = .ok (parent ++ [last]) := by
  obtain ⟨parents, hnames, hwalk⟩ := h.walk_eq
  refine locate_eq_ok_iff.mpr ⟨h.checkPath_eq, ?_⟩
  rw [hnames, walk_append, hwalk]
  exact (walk_entry h.isEntryName h.parent_eq).trans (if_neg (Nat.not_lt.mpr h.short))

/-- What a write does that can take any name it needs for a new file: it succeeds
exactly where its path has a place, puts the contents there and nothing else
anywhere, and leaves the tree as it is where it fails. -/
structure AllOrNothing (t : FileTree) (w : WriteRequest) : Prop where
  ok_iff : (t.perform w).2 = .ok () ↔ ∃ parent last, t.Accepts w.path parent last
  written : (t.perform w).2 = .ok () → ∃ location, t.locate w.path = .ok location ∧
    (t.perform w).1.locate w.path = .ok location ∧
    (t.perform w).1.find? location = some (.file (Text.encode w.contents)) ∧
    ∀ other, other ≠ location → (t.perform w).1.find? other = t.find? other
  kept : (t.perform w).2 ≠ .ok () → (t.perform w).1 = t
  writeReport_eq : t.writeReport w.path w.contents =
    ((t.perform w).2.map fun _ => (t.perform w).1).mapError (.write w.path)

/-- A write succeeds and fills a place, or it fails and changes nothing. -/
theorem perform_cases (hname : EndsInName w.path) (hfree : t.HasFreeName w.path w.tried) :
    (∃ parent last, t.Accepts w.path parent last ∧
      t.perform w = (t.put (parent ++ [last]) (.file (Text.encode w.contents)), .ok ())) ∨
    (∀ parent last, ¬ t.Accepts w.path parent last) ∧ ∃ fault, t.perform w = (t, .error fault) := by
  rw [perform_eq hname hfree]
  cases htarget : t.target w.path with
  | error fault =>
    refine Or.inr ⟨?_, fault, rfl⟩
    intro parent last haccepts
    rw [target_eq_ok_iff_accepts.mpr ⟨parent, last, haccepts, rfl⟩] at htarget
    cases htarget
  | ok location =>
    obtain ⟨parent, last, haccepts, rfl⟩ := target_eq_ok_iff_accepts.mp htarget
    exact Or.inl ⟨parent, last, haccepts, rfl⟩

theorem find?_of_newPlace {tried : List Nat} (h : t.newPlace path tried = .ok location) :
    t.find? location = none ∧ ∃ number, t.walk (t.origin path)
      (names (directoryPath path) ++ [stagingName number]) = .ok location := by
  induction tried with
  | nil => cases h
  | cons number more ih =>
    rw [newPlace_cons] at h
    obtain ⟨-, -, h⟩ := exists_of_bind_eq_ok h
    obtain ⟨place, hwalk, h⟩ := exists_of_bind_eq_ok h
    cases hfind : t.find? place with
    | some entry =>
      rw [hfind, Option.isSome_some, if_pos rfl] at h
      exact ih h
    | none =>
      rw [hfind, Option.isSome_none, if_neg Bool.false_ne_true] at h
      obtain rfl := Except.ok.inj h
      exact ⟨hfind, number, hwalk⟩

theorem IsSlot.endsInName (h : t.IsSlot path parent last) : EndsInName path := by
  obtain ⟨parents, hnames, -⟩ := h.walk_eq
  exact ⟨parents, last, hnames, h.isEntryName⟩

/-- Whatever path is given, and whether or not a free name is tried, a write fails and
changes nothing, or it fills the place of the path. -/
theorem perform_kept_or_filled (t : FileTree) (w : WriteRequest) :
    (∃ fault, t.perform w = (t, .error fault)) ∨
      ∃ parent last, t.IsSlot w.path parent last ∧
        t.perform w = (t.put (parent ++ [last]) (.file (Text.encode w.contents)), .ok ()) := by
  unfold perform
  cases hnew : t.newPlace w.path w.tried with
  | error fault => exact Or.inl ⟨fault, rfl⟩
  | ok place =>
    obtain ⟨hplace, number, hwalk⟩ := find?_of_newPlace hnew
    cases hslot : (t.put place (.file (Text.encode w.contents))).slot w.path with
    | error fault =>
      refine Or.inl ⟨fault, ?_⟩
      simp only [hslot, remove_put hplace]
    | ok location =>
      obtain ⟨_, last, hlaid, -⟩ := exists_isSlot hslot
      obtain ⟨parents, hnames, -⟩ := hlaid.walk_eq
      have hlast := hlaid.isEntryName
      obtain ⟨reached, hparents, hparent, -⟩ := (walk_staging_iff hnames hlast number).mp hwalk
      have hsame := slot_put hnames hlast.ne_nil hparents hparent hplace (Text.encode w.contents)
      obtain ⟨parent, last, hplain, rfl⟩ := exists_isSlot (hsame.symm.trans hslot)
      refine Or.inr ⟨parent, last, hplain, ?_⟩
      simp only [hslot, move_put hplace]

/-- A write succeeds exactly where its path has a place, whatever path is given. -/
theorem perform_ok_iff (hfree : t.HasFreeName w.path w.tried) :
    (t.perform w).2 = .ok () ↔ ∃ parent last, t.Accepts w.path parent last := by
  by_cases hname : EndsInName w.path
  · rcases perform_cases hname hfree with ⟨parent, last, haccepts, h⟩ | ⟨hnone, fault, h⟩
    · rw [h]
      exact iff_of_true rfl ⟨parent, last, haccepts⟩
    · rw [h]
      refine iff_of_false (by simp) ?_
      rintro ⟨parent, last, haccepts⟩
      exact hnone parent last haccepts
  · refine iff_of_false ?_ ?_
    · rcases t.perform_kept_or_filled w with ⟨fault, h⟩ | ⟨parent, last, hslot, -⟩
      · simp [h]
      · exact absurd hslot.endsInName hname
    · rintro ⟨parent, last, haccepts, -⟩
      exact hname haccepts.endsInName

theorem sameDirectories_perform (hname : EndsInName w.path)
    (hfree : t.HasFreeName w.path w.tried) : t.SameDirectories (t.perform w).1 := by
  rcases perform_cases hname hfree with ⟨parent, last, haccepts, hperform⟩ | ⟨-, fault, hperform⟩
  · rw [hperform]
    exact .put (by simp) haccepts.1.entry_ne _
  · rw [hperform]
    exact .refl t

theorem allOrNothing (hname : EndsInName w.path) (hfree : t.HasFreeName w.path w.tried) :
    t.AllOrNothing w := by
  have hwrite : t.writeReport w.path w.contents =
      ((t.perform w).2.map fun _ => (t.perform w).1).mapError (.write w.path) := by
    rw [writeReport, write_eq, perform_eq hname hfree]
    cases t.target w.path <;> rfl
  have hsame := sameDirectories_perform hname hfree
  rcases perform_cases hname hfree with
    ⟨parent, last, haccepts, hperform⟩ | ⟨-, fault, hperform⟩
  · rw [hperform] at hsame
    have hlocate := haccepts.1.locate_eq
    refine ⟨perform_ok_iff hfree, ?_, ?_, hwrite⟩
    · intro _
      rw [hperform]
      exact ⟨_, hlocate, hsame.locate_iff.mpr hlocate, t.find?_put_self (by simp) _,
        fun other hne => t.find?_put_of_ne hne _⟩
    · intro hfault
      rw [hperform] at hfault
      exact absurd rfl hfault
  · refine ⟨perform_ok_iff hfree, ?_, ?_, hwrite⟩
    · intro hok
      rw [hperform] at hok
      cases hok
    · intro _
      rw [hperform]

/-- Each of the writes can take a name that is free when it comes. -/
def HasFreeNames (t : FileTree) (ws : List WriteRequest) : Prop :=
  ∀ front w back, ws = front ++ w :: back → (t.performAll front).HasFreeName w.path w.tried

theorem HasFreeNames.nil (t : FileTree) : t.HasFreeNames [] := by
  intro front w back h
  simp at h

theorem HasFreeNames.cons (hfree : t.HasFreeName w.path w.tried)
    (h : (t.perform w).1.HasFreeNames ws) : t.HasFreeNames (w :: ws) := by
  intro front u back heq
  cases front with
  | nil =>
    obtain ⟨rfl, -⟩ := List.cons.inj heq
    exact hfree
  | cons v front =>
    obtain ⟨rfl, hws⟩ := List.cons.inj heq
    exact h front u back hws

theorem HasFreeNames.head (h : t.HasFreeNames (w :: ws)) : t.HasFreeName w.path w.tried :=
  h [] w ws rfl

theorem HasFreeNames.tail (h : t.HasFreeNames (w :: ws)) : (t.perform w).1.HasFreeNames ws := by
  rintro front u back rfl
  exact h (w :: front) u back rfl

/-- What a place holds after writes one after another. -/
theorem find?_performAll (hnames : ∀ w ∈ ws, EndsInName w.path) (hfree : t.HasFreeNames ws)
    (location : Location) :
    (∀ w, (w, .ok ()) ∈ t.outcomes ws → t.locate w.path ≠ .ok location) ∧
        (t.performAll ws).find? location = t.find? location ∨
      ∃ front w back, t.outcomes ws = front ++ (w, .ok ()) :: back ∧
        t.locate w.path = .ok location ∧
        (∀ u, (u, .ok ()) ∈ back → t.locate u.path ≠ .ok location) ∧
        (t.performAll ws).find? location = some (.file (Text.encode w.contents)) := by
  induction ws generalizing t with
  | nil => exact Or.inl ⟨by simp [outcomes], rfl⟩
  | cons w ws ih =>
    obtain ⟨hname, hnames⟩ := List.forall_mem_cons.mp hnames
    have hone := allOrNothing hname hfree.head
    have hsame := sameDirectories_perform hname hfree.head
    have hafter := ih hnames hfree.tail
    simp only [ne_eq, hsame.locate_iff] at hafter
    rcases hafter with ⟨hnone, hfind⟩ | ⟨front, u, back, houtcomes, hu, hback, hfind⟩
    · by_cases hlast : (t.perform w).2 = .ok () ∧ t.locate w.path = .ok location
      · obtain ⟨place, hplace, -, hcontents, -⟩ := hone.written hlast.1
        obtain rfl := Except.ok.inj (hlast.2.symm.trans hplace)
        refine Or.inr ⟨[], w, (t.perform w).1.outcomes ws, ?_, hlast.2, hnone, ?_⟩
        · rw [outcomes, hlast.1]
          rfl
        · exact hfind.trans hcontents
      · have hkept : (t.perform w).1.find? location = t.find? location := by
          by_cases hok : (t.perform w).2 = .ok ()
          · obtain ⟨place, hplace, -, -, hother⟩ := hone.written hok
            apply hother
            rintro rfl
            exact hlast ⟨hok, hplace⟩
          · rw [hone.kept hok]
        refine Or.inl ⟨?_, hfind.trans hkept⟩
        intro u hu hlocate
        rcases List.mem_cons.mp hu with heq | hmem
        · obtain ⟨rfl, hok⟩ := Prod.mk.inj heq
          exact hlast ⟨hok.symm, hlocate⟩
        · exact hnone u hmem hlocate
    · refine Or.inr ⟨(w, (t.perform w).2) :: front, u, back, ?_, hu, hback, hfind⟩
      rw [outcomes, houtcomes]
      rfl

theorem sameDirectories_performAll (hnames : ∀ w ∈ ws, EndsInName w.path)
    (hfree : t.HasFreeNames ws) : t.SameDirectories (t.performAll ws) := by
  induction ws generalizing t with
  | nil => exact .refl t
  | cons w ws ih =>
    obtain ⟨hname, hnames⟩ := List.forall_mem_cons.mp hnames
    have hone := sameDirectories_perform hname hfree.head
    have hall := ih hnames hfree.tail
    exact ⟨hall.workingDirectory_eq.trans hone.workingDirectory_eq,
      fun l => (hall.find?_iff l).trans (hone.find?_iff l)⟩

/-- Writes one after another are all or nothing, each as it comes. Afterwards
every path leads where it led before, and every place holds the contents of the
last write to it that succeeded, or what it held before if there was none. -/
theorem writes_all_or_nothing (t : FileTree) (ws : List WriteRequest)
    (hnames : ∀ w ∈ ws, EndsInName w.path) (hfree : t.HasFreeNames ws) :
    (∀ front w back, ws = front ++ w :: back → (t.performAll front).AllOrNothing w) ∧
      (∀ path location, (t.performAll ws).locate path = .ok location ↔
        t.locate path = .ok location) ∧
      ∀ location,
        (∀ w, (w, .ok ()) ∈ t.outcomes ws → t.locate w.path ≠ .ok location) ∧
            (t.performAll ws).find? location = t.find? location ∨
          ∃ front w back, t.outcomes ws = front ++ (w, .ok ()) :: back ∧
            t.locate w.path = .ok location ∧
            (∀ u, (u, .ok ()) ∈ back → t.locate u.path ≠ .ok location) ∧
            (t.performAll ws).find? location = some (.file (Text.encode w.contents)) := by
  refine ⟨?_, ?_, find?_performAll hnames hfree⟩
  · rintro front w back rfl
    exact allOrNothing (hnames w (by simp)) (hfree front w back rfl)
  · intro path location
    exact (sameDirectories_performAll hnames hfree).locate_iff

theorem HasFreeName.of_walk {tried : List Nat} (number : Nat) (place : Location)
    (hmem : number ∈ tried)
    (hwalk : t.walk (t.origin path) (names (directoryPath path) ++ [stagingName number]) =
      .ok place) (hplace : t.find? place = none) : t.HasFreeName path tried := by
  refine ⟨number, hmem, ?_⟩
  intro other hother
  obtain rfl := Except.ok.inj (hwalk.symm.trans hother)
  exact hplace

/-- A tree with a directory, in which a new file was left behind, and a file. -/
def workshop : FileTree where
  entries := [(["d".toList], .directory), (["d".toList, stagingName 0], .file .empty),
    (["f".toList], .file .empty)]
  workingDirectory := []

/-- Two reports for one place and one for a place in a file. -/
def reports : List WriteRequest :=
  [⟨"d/r".toList, "a".toList, [0, 1]⟩, ⟨"f/r".toList, "b".toList, [0]⟩,
    ⟨"./d//r".toList, "c".toList, [0, 2]⟩]

theorem mem_of_mem_outcomes {result : Except Fault Unit} (h : (w, result) ∈ t.outcomes ws) :
    w ∈ ws := by
  induction ws generalizing t with
  | nil => cases h
  | cons u ws ih =>
    rcases List.mem_cons.mp h with heq | hmem
    · obtain ⟨rfl, -⟩ := Prod.mk.inj heq
      exact List.mem_cons_self
    · exact List.mem_cons_of_mem u (ih hmem)

/-- Of two reports for one place the second one is there in the end, and the new
file that was left behind stays as it was. -/
theorem writes_of_reports :
    (∀ w ∈ reports, EndsInName w.path) ∧ workshop.HasFreeNames reports ∧
      (workshop.outcomes reports).map (·.2) = [.ok (), .error .notADirectory, .ok ()] ∧
      (∃ location, workshop.locate "d/r".toList = .ok location ∧
        (workshop.performAll reports).find? location = some (.file (Text.encode "c".toList))) ∧
      (workshop.performAll reports).find? ["d".toList, stagingName 0] = some (.file .empty) := by
  have hcases : ∀ w ∈ reports, w = ⟨"d/r".toList, "a".toList, [0, 1]⟩ ∨
      w = ⟨"f/r".toList, "b".toList, [0]⟩ ∨ w = ⟨"./d//r".toList, "c".toList, [0, 2]⟩ := by
    intro w hw
    simpa [reports] using hw
  have hnames : ∀ w ∈ reports, EndsInName w.path := by
    have hr : IsEntryName "r".toList := ⟨by decide, by decide, by decide, by decide⟩
    intro w hw
    obtain rfl | rfl | rfl := hcases w hw
    · exact ⟨["d".toList], "r".toList, by decide +kernel, hr⟩
    · exact ⟨["f".toList], "r".toList, by decide +kernel, hr⟩
    · exact ⟨[".".toList, "d".toList, []], "r".toList, by decide +kernel, hr⟩
  have hfree : workshop.HasFreeNames reports := by
    refine .cons ?_ (.cons ?_ (.cons ?_ (.nil _)))
    · exact .of_walk 1 ["d".toList, stagingName 1] (by decide)
        (by decide +kernel) (by decide +kernel)
    · have hfile : (workshop.perform ⟨"d/r".toList, "a".toList, [0, 1]⟩).1.walk []
          (names (directoryPath "f/r".toList) ++ [stagingName 0]) = .error .notADirectory := by
        decide +kernel
      exact ⟨0, by decide, fun place hplace => by cases hfile.symm.trans hplace⟩
    · exact .of_walk 2 ["d".toList, stagingName 2] (by decide)
        (by decide +kernel) (by decide +kernel)
  have hlocate : workshop.locate "./d//r".toList = .ok ["d".toList, "r".toList] := by
    decide +kernel
  obtain ⟨hall, hpaths, hplaces⟩ := writes_all_or_nothing workshop reports hnames hfree
  refine ⟨hnames, hfree, by decide +kernel, ⟨["d".toList, "r".toList], by decide +kernel, ?_⟩, ?_⟩
  · have hlast := hall (reports.take 2) ⟨"./d//r".toList, "c".toList, [0, 2]⟩ [] rfl
    obtain ⟨location, -, hplace, hcontents, -⟩ := hlast.written (by decide +kernel)
    obtain rfl := Except.ok.inj (hlocate.symm.trans ((hpaths _ _).mp hplace))
    exact hcontents
  · rcases hplaces ["d".toList, stagingName 0] with ⟨-, hfind⟩ | ⟨front, w, back, heq, hw, -, -⟩
    · exact hfind.trans (by decide +kernel)
    · have hmem : (w, .ok ()) ∈ workshop.outcomes reports := by
        rw [heq]
        simp
      obtain rfl | rfl | rfl := hcases w (mem_of_mem_outcomes hmem)
      all_goals exact absurd hw (by decide +kernel)

/-- A report under a name of more bytes than a name can have. -/
def longNamed : WriteRequest := ⟨List.replicate 256 'a', "x".toList, [0]⟩

/-- A report under a name that is too long is not written, although its directory
is there and it is no directory itself. -/
theorem not_written_of_long_name :
    EndsInName longNamed.path ∧ workshop.HasFreeName longNamed.path longNamed.tried ∧
      (∃ parents last parent, names longNamed.path = parents ++ [last] ∧
        workshop.walk (workshop.origin longNamed.path) parents = .ok parent ∧
        workshop.find? parent = some .directory ∧
        workshop.find? (parent ++ [last]) ≠ some .directory) ∧
      (workshop.perform longNamed).2 ≠ .ok () := by
  have hslash : '/' ∉ longNamed.path := fun hmem =>
    absurd (List.eq_of_mem_replicate hmem) (by decide)
  have hentry : IsEntryName longNamed.path := ⟨hslash, by decide, by decide, by decide⟩
  have hnames : names longNamed.path = [] ++ [longNamed.path] := names_of_notMem hslash
  refine ⟨⟨[], _, hnames, hentry⟩, ?_, ⟨[], _, [], hnames, rfl, rfl, ?_⟩, ?_⟩
  · exact .of_walk 0 [stagingName 0] (by decide) (by decide +kernel) (by decide +kernel)
  · decide +kernel
  · decide +kernel

end HornSyntax.FileTree
