import HornSyntax.Proofs.Requests
import HornSyntax.Proofs.Series
import HornSyntax.Proofs.WriteSeries

/-!
How a run comes out. It reads everything before it writes, and it writes at most
one file, step by step. What it reports is decided by the texts of the input files,
but whether it succeeds is not: for that only the shape of the tree counts, that is
which entries are directories and which files are in UTF-8.
-/

namespace HornSyntax

/-- Two places that both hold nothing, a directory, a text or a file without a text. -/
inductive SameShape : Option Entry → Option Entry → Prop
  | nothing : SameShape none none
  | directory : SameShape (some .directory) (some .directory)
  | text {content content' : ByteArray} {text text' : Text} (h : Text.decode? content = some text)
      (h' : Text.decode? content' = some text') :
      SameShape (some (.file content)) (some (.file content'))
  | noText {content content' : ByteArray} (h : Text.decode? content = none)
      (h' : Text.decode? content' = none) : SameShape (some (.file content)) (some (.file content'))

theorem SameShape.refl (entry : Option Entry) : SameShape entry entry := by
  cases entry with
  | none => exact nothing
  | some entry =>
    cases entry with
    | directory => exact directory
    | file content =>
      cases h : Text.decode? content with
      | none => exact noText h h
      | some decoded => exact text h h

theorem SameShape.eq_directory_iff {entry entry' : Option Entry} (h : SameShape entry entry') :
    entry' = some .directory ↔ entry = some .directory := by
  cases h <;> simp

theorem SameShape.isSome_eq {entry entry' : Option Entry} (h : SameShape entry entry') :
    entry'.isSome = entry.isSome := by
  cases h <;> rfl

namespace FileTree

/-- Two trees of the same shape, whatever texts the files in them have. -/
structure Alike (t t' : FileTree) : Prop where
  workingDirectory_eq : t'.workingDirectory = t.workingDirectory
  sameShape : ∀ location, SameShape (t.find? location) (t'.find? location)

/-- A text in the place of another leaves the shape of the tree as it is. -/
theorem alike_put {t : FileTree} {location : Location} {content : ByteArray} {text : Text}
    (hfind : t.find? location = some (.file content)) (htext : Text.decode? content = some text)
    (other : Text) : t.Alike (t.put location (.file (Text.encode other))) := by
  constructor
  · rfl
  · intro l
    by_cases hl : l = location
    · have hne : location ≠ [] := by
        rintro rfl
        cases hfind
      rw [hl, t.find?_put_self hne, hfind]
      exact .text htext (Text.decode?_encode other)
    · rw [t.find?_put_of_ne hl]
      exact .refl _

namespace Alike

variable {t t' : FileTree} {path dir : Text} {location : Location} {texts : List Text}
  {fault : Fault} {index : Nat}

theorem walk_eq (h : t.Alike t') (location : Location) (all : List Text) :
    t'.walk location all = t.walk location all := by
  induction all generalizing location with
  | nil => rfl
  | cons name all ih =>
    have hsame := h.sameShape location
    simp only [walk]
    generalize t.find? location = entry at hsame ⊢
    generalize t'.find? location = entry' at hsame ⊢
    cases hsame with
    | nothing => rfl
    | directory => simp only [ih]
    | text => rfl
    | noText => rfl

theorem origin_eq (h : t.Alike t') (path : Text) : t'.origin path = t.origin path := by
  simp only [origin, h.workingDirectory_eq]

theorem locate_eq (h : t.Alike t') (path : Text) : t'.locate path = t.locate path := by
  simp only [locate, h.origin_eq, h.walk_eq]

/-- A path gives texts in both trees or the same fault. -/
theorem read_cases (h : t.Alike t') (path : Text) :
    (∃ text text', t.read path = .ok text ∧ t'.read path = .ok text') ∨
      ∃ fault, t.read path = .error fault ∧ t'.read path = .error fault := by
  unfold read
  rw [h.locate_eq]
  cases t.locate path with
  | error fault => exact Or.inr ⟨fault, rfl, rfl⟩
  | ok location =>
    have hsame := h.sameShape location
    simp only [bind, Except.bind]
    generalize t.find? location = entry at hsame ⊢
    generalize t'.find? location = entry' at hsame ⊢
    cases hsame with
    | nothing => exact Or.inr ⟨.notFound, rfl, rfl⟩
    | directory => exact Or.inr ⟨.isADirectory, rfl, rfl⟩
    | @text _ _ text text' htext htext' =>
      exact Or.inl ⟨text, text', by simp only [htext], by simp only [htext']⟩
    | noText htext htext' =>
      exact Or.inr ⟨.invalidText, by simp only [htext], by simp only [htext']⟩

/-- The series of a directory is as long in both trees and ends alike. -/
theorem exists_series (h : t.Alike t') (hseries : Series t.read dir index texts fault) :
    ∃ texts', Series t'.read dir index texts' fault ∧ texts'.length = texts.length := by
  induction hseries with
  | @ended index fault hfault =>
    rcases h.read_cases (inputPath dir index) with ⟨text, -, htext, -⟩ | ⟨fault', hfault', hsame⟩
    · rw [hfault] at htext
      cases htext
    · obtain rfl := Except.error.inj (hfault.symm.trans hfault')
      exact ⟨[], .ended hsame, rfl⟩
  | @more index text _ _ htext _ ih =>
    rcases h.read_cases (inputPath dir index) with ⟨-, text', -, htext'⟩ | ⟨fault', hfault', -⟩
    · obtain ⟨texts', hrest, hlength⟩ := ih
      refine ⟨text' :: texts', .more htext' hrest, ?_⟩
      rw [List.length_cons, hlength, List.length_cons]
    · rw [htext] at hfault'
      cases hfault'

theorem slot_eq (h : t.Alike t') (path : Text) : t'.slot path = t.slot path := by
  unfold slot
  simp only [h.origin_eq, h.walk_eq, (h.sameShape _).eq_directory_iff]
  congr 1
  funext u
  congr 1
  funext parent
  have hsame := h.sameShape parent
  generalize t.find? parent = entry at hsame ⊢
  generalize t'.find? parent = entry' at hsame ⊢
  cases hsame <;> rfl

theorem newPlace_eq (h : t.Alike t') (path : Text) (tried : List Nat) :
    t'.newPlace path tried = t.newPlace path tried := by
  induction tried with
  | nil => rfl
  | cons number more ih =>
    simp only [newPlace, h.workingDirectory_eq, h.origin_eq, h.walk_eq, (h.sameShape _).isSome_eq, ih]

/-- Texts laid down at one place leave two trees of the same shape. -/
theorem put (h : t.Alike t') (hlocation : location ≠ []) (contents contents' : Text) :
    (t.put location (.file (Text.encode contents))).Alike
      (t'.put location (.file (Text.encode contents'))) := by
  refine ⟨h.workingDirectory_eq, ?_⟩
  intro l
  by_cases hl : l = location
  · rw [hl, t.find?_put_self hlocation, t'.find?_put_self hlocation]
    exact .text (Text.decode?_encode contents) (Text.decode?_encode contents')
  · rw [t.find?_put_of_ne hl, t'.find?_put_of_ne hl]
    exact h.sameShape l

/-- Whether a write succeeds depends on the shape of the tree only, and not on what is written. -/
theorem perform_eq (h : t.Alike t') (path contents contents' : Text) (tried : List Nat) :
    (t'.perform ⟨path, contents', tried⟩).2 = (t.perform ⟨path, contents, tried⟩).2 := by
  rw [perform, perform]
  simp only [h.newPlace_eq]
  cases hnew : t.newPlace path tried with
  | error fault => rfl
  | ok place =>
    have hplace : place ≠ [] := by
      rintro rfl
      cases (find?_of_newPlace hnew).1
    simp only [(h.put hplace contents contents').slot_eq]
    cases (t.put place (.file (Text.encode contents))).slot path <;> rfl

/-- Whether a directory can be checked depends on the shape of the tree only. -/
theorem checkDirectory_cases (h : t.Alike t') (dir : Text) :
    (∃ s s', t.checkDirectory dir = .ok s ∧ t'.checkDirectory dir = .ok s') ∨
      ∃ failure,
        t.checkDirectory dir = .error failure ∧ t'.checkDirectory dir = .error failure := by
  obtain ⟨texts, fault, hseries⟩ := t.exists_series dir
  obtain ⟨texts', hseries', hlength⟩ := h.exists_series hseries
  rw [checkDirectory_of_series hseries, checkDirectory_of_series hseries', hlength]
  by_cases hfault : fault = .notFound
  · rw [if_pos hfault, if_pos hfault]
    exact Or.inl ⟨_, _, rfl, rfl⟩
  · rw [if_neg hfault, if_neg hfault]
    exact Or.inr ⟨_, rfl, rfl⟩

end Alike

end FileTree

namespace CommandLine

variable {t t' : FileTree} {arguments : List Text} {options : Options} {tried : List Nat}

theorem run_of_request (h : request arguments = .check options) (t : FileTree)
    (tried : List Nat) :
    run arguments t tried =
      match t.checkDirectory options.dir with
      | .error failure => ⟨1, [], some failure, t⟩
      | .ok s =>
        if options.toStdout then ⟨0, s.output, none, t⟩
        else
          match t.perform ⟨options.output, s.output, tried⟩ with
          | (left, .error fault) => ⟨1, [], some (.write options.output fault), left⟩
          | (left, .ok ()) => ⟨0, [], none, left⟩ := by
  have hcheck : (onTree tried).checkDirectory options.dir =
      fun r => (r.tree.checkDirectory options.dir, r) := rfl
  have hlog : (onTree tried).log = fun _ r => ((), r) := rfl
  have hreplace : ∀ contents, (onTree tried).replaceFile options.output contents = fun r =>
      ((r.tree.perform ⟨options.output, contents, tried⟩).2,
        { r with tree := (r.tree.perform ⟨options.output, contents, tried⟩).1 }) := fun _ => rfl
  simp only [run, runOn, h, check, StateT.run, bind, StateT.bind, hcheck]
  cases t.checkDirectory options.dir with
  | error failure => rfl
  | ok s =>
    cases options.toStdout with
    | true => rfl
    | false =>
      simp only [hlog, hreplace, StateT.bind, bind, Bool.false_eq_true, if_false]
      rcases t.perform ⟨options.output, s.output, tried⟩ with ⟨left, fault | u⟩
      · rfl
      · rfl

theorem code_of_alike (h : t.Alike t') (harguments : request arguments = .check options)
    (tried : List Nat) : (run arguments t' tried).code = (run arguments t tried).code := by
  rw [run_of_request harguments, run_of_request harguments]
  rcases h.checkDirectory_cases options.dir with ⟨s, s', hs, hs'⟩ | ⟨failure, hs, hs'⟩
  · simp only [hs, hs']
    by_cases hstdout : options.toStdout = true
    · rw [if_pos hstdout, if_pos hstdout]
    · rw [if_neg hstdout, if_neg hstdout]
      have hsame := h.perform_eq options.output s.output s'.output tried
      revert hsame
      rcases t.perform ⟨options.output, s.output, tried⟩ with ⟨left, fault | u⟩
      all_goals
        rcases t'.perform ⟨options.output, s'.output, tried⟩ with ⟨left', fault' | u'⟩
        all_goals simp
  · simp only [hs, hs']

/-- What a run leaves behind that checks files with some options. All of them are read
before the report is written, and the tree is changed by a write that succeeds only. -/
structure RunsTo (t : FileTree) (options : Options) (tried : List Nat) (r : Result) : Prop where
  unread : ∀ failure, t.checkDirectory options.dir = .error failure → r = ⟨1, [], some failure, t⟩
  printed : ∀ s, t.checkDirectory options.dir = .ok s → options.toStdout = true →
    r = ⟨0, s.output, none, t⟩
  unwritten : ∀ s fault, t.checkDirectory options.dir = .ok s → options.toStdout = false →
    (t.perform ⟨options.output, s.output, tried⟩).2 = .error fault →
      r = ⟨1, [], some (.write options.output fault), t⟩
  written : ∀ s, t.checkDirectory options.dir = .ok s → options.toStdout = false →
    (t.perform ⟨options.output, s.output, tried⟩).2 = .ok () →
      ∃ t' location, r = ⟨0, [], none, t'⟩ ∧ t'.read options.output = .ok s.output ∧
        t'.locate options.output = .ok location ∧
          ∀ other, other ≠ location → t'.find? other = t.find? other
  writable : ∀ s : Summary, t.HasFreeName options.output tried →
    ((t.perform ⟨options.output, s.output, tried⟩).2 = .ok () ↔
      ∃ parent last, t.Accepts options.output parent last)

theorem runsTo_of_request (h : request arguments = .check options) (t : FileTree)
    (tried : List Nat) : RunsTo t options tried (run arguments t tried) := by
  rw [run_of_request h]
  constructor
  · intro failure hcheck
    rw [hcheck]
  · intro s hcheck hstdout
    simp only [hcheck, hstdout, if_true]
  · intro s fault hcheck hstdout hfault
    simp only [hcheck, hstdout, Bool.false_eq_true, if_false]
    rcases t.perform_kept_or_filled ⟨options.output, s.output, tried⟩ with
      ⟨fault', hperform⟩ | ⟨parent, last, -, hperform⟩
    · rw [hperform] at hfault ⊢
      obtain rfl := Except.error.inj hfault
      rfl
    · rw [hperform] at hfault
      cases hfault
  · intro s hcheck hstdout hok
    simp only [hcheck, hstdout, Bool.false_eq_true, if_false]
    rcases t.perform_kept_or_filled ⟨options.output, s.output, tried⟩ with
      ⟨fault, hperform⟩ | ⟨parent, last, hslot, hperform⟩
    · rw [hperform] at hok
      cases hok
    · rw [hperform]
      have hlocate := hslot.locate_put (Text.encode s.output)
      have hfind := t.find?_put_self (by simp : parent ++ [last] ≠ [])
        (.file (Text.encode s.output))
      refine ⟨_, parent ++ [last], rfl, ?_, hlocate, fun other ho => t.find?_put_of_ne ho _⟩
      exact FileTree.read_eq_ok_iff.mpr ⟨_, _, hlocate, hfind, Text.decode?_encode s.output⟩
  · intro s hfree
    exact FileTree.perform_ok_iff hfree

/-- Arguments ask for a check where they spell out items that do not stand in one
another's way, and what the run leaves behind is decided by these items. If a file cannot
be read or the report cannot be written, it exits with 1, prints nothing and leaves the
tree as it is. Otherwise it exits with 0 and either prints the report and leaves the
tree, or puts the report in the place of the output file and changes nothing else. Other
texts in the files that can be read never make a difference to the exit code. -/
theorem run_check_outcome (arguments : List Text) (t : FileTree) (tried : List Nat) :
    (∀ options, request arguments = .check options ↔
      ∃ items, Spells items arguments ∧ Accepted items ∧ options = optionsOf items) ∧
    ∀ items, Spells items arguments → Accepted items →
      RunsTo t (optionsOf items) tried (run arguments t tried) ∧
        ∀ path location text other, t.locate path = .ok location → t.read path = .ok text →
          (run arguments (t.put location (.file (Text.encode other))) tried).code =
            (run arguments t tried).code := by
  refine ⟨fun options => request_eq_check_iff, ?_⟩
  intro items hspells haccepted
  have hrequest := request_eq_check_iff.mpr ⟨items, hspells, haccepted, rfl⟩
  refine ⟨runsTo_of_request hrequest t tried, ?_⟩
  intro path location text other hlocate hread
  obtain ⟨location', content, hlocate', hfind, htext⟩ := FileTree.read_eq_ok_iff.mp hread
  obtain rfl := Except.ok.inj (hlocate.symm.trans hlocate')
  exact code_of_alike (FileTree.alike_put hfind htext other) hrequest tried

/-- A tree that holds one input, a query without goals. -/
def loneInput : FileTree := ⟨[(["1.txt".toList], .file (Text.encode "?-".toList))], []⟩

/-- The output is to take the place of the input in the working directory. -/
def overInput : List Item := [.verbose, .output "1.txt".toList, .dir ".".toList]

/-- The report can take the place of the only input, and is on its old text. With
another text in the input the run succeeds as well. -/
theorem run_over_input :
    Spells overInput ["-vo".toList, "1.txt".toList, ".".toList] ∧ Accepted overInput ∧
      ∃ t', run ["-vo".toList, "1.txt".toList, ".".toList] loneInput [0] = ⟨0, [], none, t'⟩ ∧
        t'.read "1.txt".toList = .ok (aggregate ["?-".toList]) ∧
        (run ["-vo".toList, "1.txt".toList, ".".toList]
          (loneInput.put ["1.txt".toList] (.file (Text.encode "?- a.".toList))) [0]).code = 0 := by
  have hspells : Spells overInput ["-vo".toList, "1.txt".toList, ".".toList] := by
    have hplain : IsPlain "1.txt".toList ∧ IsPlain ".".toList := by
      constructor <;> simp [IsPlain]
    exact .value (.outputLetter 1) hplain.1 (.word (.dir hplain.2) .nil)
  have haccepted : Accepted overInput := by
    refine ⟨⟨?_, ?_⟩, ⟨?_, ?_⟩, ?_⟩ <;> decide
  have hlocate : loneInput.locate "./1.txt".toList = .ok ["1.txt".toList] := rfl
  have hread : loneInput.read "./1.txt".toList = .ok "?-".toList :=
    FileTree.read_eq_ok_iff.mpr ⟨_, _, hlocate, rfl, Text.decode?_encode _⟩
  have hend : loneInput.read "./2.txt".toList = .error .notFound := rfl
  have hseries : Series loneInput.read ".".toList 1 ["?-".toList] .notFound :=
    .more hread (.ended hend)
  have hcheck := FileTree.checkDirectory_of_series hseries
  rw [if_pos rfl] at hcheck
  generalize hsummary : (Summary.initial.addAll ".".toList ["?-".toList]).stop
    (inputPath ".".toList (["?-".toList].length + 1)) = s at hcheck
  have houtput : s.output = aggregate ["?-".toList] := by
    rw [← hsummary]
    exact Summary.output_addAll .initial ".".toList ["?-".toList]
  have hfree : loneInput.HasFreeName "1.txt".toList [0] :=
    .of_walk 0 [FileTree.stagingName 0] (by decide) (by decide +kernel) (by decide +kernel)
  have haccepts : loneInput.Accepts "1.txt".toList [] "1.txt".toList := by
    refine ⟨⟨by decide +kernel, ⟨by decide, by decide, by decide, by decide⟩, by decide +kernel,
      ⟨[], by decide +kernel, rfl⟩, rfl, ?_⟩, by decide +kernel⟩
    decide +kernel
  obtain ⟨-, hall⟩ := run_check_outcome ["-vo".toList, "1.txt".toList, ".".toList] loneInput [0]
  obtain ⟨hrunsTo, hsame⟩ := hall overInput hspells haccepted
  have hok := (hrunsTo.writable s hfree).mpr ⟨_, _, haccepts⟩
  obtain ⟨t', -, hrun, hreport, -⟩ := hrunsTo.written s hcheck rfl hok
  refine ⟨hspells, haccepted, t', hrun, houtput ▸ hreport, ?_⟩
  rw [hsame _ _ _ "?- a.".toList hlocate hread, hrun]

end CommandLine

end HornSyntax
