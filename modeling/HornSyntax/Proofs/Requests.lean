import HornSyntax.Proofs.Items
import Mathlib.Data.List.TakeWhile

/-!
What arguments ask for a check. A directory, an output, the wish to print and a step
of verbosity are said in a few ways each, and options of one letter may share an
argument. Arguments that ask for a check are exactly those that spell out items in a
row which a draft can take.
-/

namespace HornSyntax.CommandLine

/-- A word that is not taken as an option. -/
def IsPlain (word : Text) : Prop := ∀ c rest, word ≠ '-' :: c :: rest

/-- Options of one letter in one argument, of which the first ones ask for verbosity. -/
def bundle (count : Nat) (letters : Text) : Text := '-' :: (List.replicate count 'v' ++ letters)

/-- What a word says of its own. Behind a letter the equals sign before the name of an
output may be left out. -/
inductive Says : Text → List Item → Prop
  | dir {name : Text} (hname : IsPlain name) : Says name [.dir name]
  | stdout : Says "--stdout".toList [.stdout]
  | verbose : Says "--verbose".toList [.verbose]
  | output (path : Text) : Says ("--output=".toList ++ path) [.output path]
  | letters {count : Nat} (hcount : 0 < count) :
      Says (bundle count []) (List.replicate count .verbose)
  | outputLetter (count : Nat) (path : Text) :
      Says (bundle count ('o' :: '=' :: path)) (List.replicate count .verbose ++ [.output path])
  | attached {path : Text} (count : Nat) (hne : path ≠ []) (hequals : path.head? ≠ some '=') :
      Says (bundle count ('o' :: path)) (List.replicate count .verbose ++ [.output path])

/-- What a word says that the name of an output has to follow. -/
inductive Announces : Text → List Item → Prop
  | output : Announces "--output".toList []
  | outputLetter (count : Nat) :
      Announces (bundle count ['o']) (List.replicate count .verbose)

/-- The arguments that spell out items in a row. -/
inductive Spells : List Item → List Text → Prop
  | nil : Spells [] []
  | directories (names : List Text) : Spells (names.map .dir) ("--".toList :: names)
  | word {said items : List Item} {word : Text} {arguments : List Text} (hword : Says word said)
      (hrest : Spells items arguments) : Spells (said ++ items) (word :: arguments)
  | value {said items : List Item} {word path : Text} {arguments : List Text}
      (hword : Announces word said) (hpath : IsPlain path) (hrest : Spells items arguments) :
      Spells (said ++ .output path :: items) (word :: path :: arguments)

variable {items more : List Item} {item : Item} {arguments : List Text} {options : Options}
  {d d' : Draft} {word : Text} {count : Nat}

namespace Draft

/-- What is asked for by a draft and the arguments behind it. -/
def settle (d : Draft) (arguments : List Text) : Request :=
  match arguments.foldlM readArgument d with
  | .error request => request
  | .ok d => if d.expecting = .value then .refused else .check d.options

theorem settle_nil (h : d.expecting ≠ .value) : d.settle [] = .check d.options := if_neg h

theorem settle_cons (h : d.readArgument word = .ok d') :
    d.settle (word :: arguments) = d'.settle arguments := by
  simp only [settle, List.foldlM_cons, h]
  rfl

theorem settle_cons_of_error {request : Request} (h : d.readArgument word = .error request) :
    d.settle (word :: arguments) = request := by
  simp only [settle, List.foldlM_cons, h]
  rfl

theorem isPlain_or (word : Text) : IsPlain word ∨ ∃ c rest, word = '-' :: c :: rest := by
  by_cases h : IsPlain word
  · exact Or.inl h
  · exact Or.inr (by simpa [IsPlain] using h)

theorem readArgument_directory (h : d.expecting = .directory) (word : Text) :
    d.readArgument word = d.setDir word := by
  simp only [readArgument, h]

theorem readArgument_value (h : d.expecting = .value) (hword : IsPlain word) :
    d.readArgument word = d.setOutput word := by
  unfold readArgument
  rw [h]
  split <;> simp_all [IsPlain]

theorem readArgument_anything (h : d.expecting = .anything) (hword : IsPlain word) :
    d.readArgument word = d.setDir word := by
  unfold readArgument
  rw [h]
  split <;> simp_all [IsPlain]

theorem readLetters_replicate (d : Draft) (count : Nat) (letters : Text) :
    d.readLetters (List.replicate count 'v' ++ letters) = (d.raised count).readLetters letters := by
  induction count generalizing d with
  | zero => rfl
  | succ count ih =>
    rw [List.replicate_succ, List.cons_append, readLetters, ih]
    simp [raised, addVerbosity, Nat.add_comm, Nat.add_left_comm]

/-- In one argument a letter follows the dash, and not another dash. -/
theorem readArgument_bundle (h : d.expecting = .anything) {letters : Text}
    (hfirst : ∃ c rest, c ≠ '-' ∧ List.replicate count 'v' ++ letters = c :: rest) :
    d.readArgument (bundle count letters) = (d.raised count).readLetters letters := by
  obtain ⟨c, rest, hc, heq⟩ := hfirst
  rw [← readLetters_replicate, bundle, heq]
  unfold readArgument
  rw [h]
  split <;> simp_all

theorem readArgument_dashes (h : d.expecting = .anything) {long : Text} (hne : long ≠ []) :
    d.readArgument ('-' :: '-' :: long) =
      d.readLong (long.takeWhile (· != '=')) (long.dropWhile (· != '=')).tail? := by
  obtain ⟨c, rest, rfl⟩ := List.exists_cons_of_ne_nil hne
  simp only [readArgument, h]
  cases (c :: rest).dropWhile (· != '=') <;> rfl

theorem ne_equals_of_notMem {name : Text} (h : '=' ∉ name) : ∀ c ∈ name, (c != '=') = true := by
  intro c hc
  have hne : c ≠ '=' := fun heq => h (heq ▸ hc)
  simpa using hne

/-- A long option without an equals sign has no value. -/
theorem readArgument_long (h : d.expecting = .anything) {name : Text} (hname : '=' ∉ name)
    (hne : name ≠ []) : d.readArgument ('-' :: '-' :: name) = d.readLong name none := by
  have hall := ne_equals_of_notMem hname
  rw [readArgument_dashes h hne, List.takeWhile_eq_self_iff.mpr hall,
    List.dropWhile_eq_nil_iff.mpr hall]
  rfl

/-- A long option has what follows its first equals sign for a value. -/
theorem readArgument_long_equals (h : d.expecting = .anything) {name : Text} (hname : '=' ∉ name)
    (value : Text) :
    d.readArgument ('-' :: '-' :: (name ++ '=' :: value)) = d.readLong name (some value) := by
  have hall := ne_equals_of_notMem hname
  rw [readArgument_dashes h (by simp), List.takeWhile_append_of_pos hall,
    List.dropWhile_append_of_pos hall]
  simp

/-- Behind a double dash every word is a directory. -/
theorem foldlM_directories (h : d.expecting = .directory) (names : List Text) :
    names.foldlM readArgument d = d.takeAll (names.map .dir) ∧
      ∀ d', d.takeAll (names.map .dir) = .ok d' → d'.expecting = .directory := by
  induction names generalizing d with
  | nil =>
    refine ⟨rfl, ?_⟩
    intro d' hd'
    obtain rfl := Except.ok.inj hd'
    exact h
  | cons name names ih =>
    have hread : d.readArgument name = d.take (.dir name) := readArgument_directory h name
    rw [List.foldlM_cons, hread, List.map_cons]
    cases htake : d.take (.dir name) with
    | error request =>
      rw [takeAll_cons_of_error htake]
      exact ⟨rfl, by simp⟩
    | ok next =>
      rw [takeAll_cons_of_ok htake]
      exact ih ((expecting_of_take htake).trans h)

end Draft

open Draft

theorem exists_first_letter (count : Nat) (letters : Text) :
    ∃ c rest, c ≠ '-' ∧ List.replicate count 'v' ++ 'o' :: letters = c :: rest := by
  cases count with
  | zero => exact ⟨'o', letters, by decide, rfl⟩
  | succ count => exact ⟨'v', _, by decide, rfl⟩

/-- A word is read as the items that it says. -/
theorem Says.readArgument_eq {said : List Item} (h : Says word said)
    (hexpecting : d.expecting = .anything) : d.readArgument word = d.takeAll said := by
  cases h with
  | dir hname => rw [takeAll_singleton, readArgument_anything hexpecting hname, take]
  | stdout =>
    rw [takeAll_singleton]
    exact readArgument_long hexpecting (by decide) (by decide)
  | verbose =>
    rw [takeAll_singleton]
    exact readArgument_long hexpecting (by decide) (by decide)
  | output path =>
    rw [takeAll_singleton]
    exact readArgument_long_equals hexpecting (by decide : '=' ∉ "output".toList) path
  | @letters count hcount =>
    obtain ⟨more, rfl⟩ := Nat.exists_eq_succ_of_ne_zero (Nat.ne_of_gt hcount)
    rw [readArgument_bundle hexpecting ⟨'v', _, by decide, rfl⟩, readLetters]
    have hall := takeAll_verbose d (more + 1) []
    rw [List.append_nil] at hall
    exact hall.symm
  | outputLetter count path =>
    rw [takeAll_verbose, takeAll_singleton,
      readArgument_bundle hexpecting (exists_first_letter count _)]
    rfl
  | @attached path count hne hequals =>
    rw [takeAll_verbose, takeAll_singleton,
      readArgument_bundle hexpecting (exists_first_letter count path)]
    obtain ⟨c, rest, rfl⟩ := List.exists_cons_of_ne_nil hne
    have hc : c ≠ '=' := by simpa using hequals
    simp [readLetters, take, hc]

/-- A word that announces an output is read as the items that it says, and the name of
the output is waited for. -/
theorem Announces.readArgument_eq {said : List Item} (h : Announces word said)
    (hexpecting : d.expecting = .anything) :
    ∃ d', d.takeAll said = .ok d' ∧ d.readArgument word = .ok { d' with expecting := .value } := by
  cases h with
  | output => exact ⟨d, rfl, readArgument_long hexpecting (by decide) (by decide)⟩
  | outputLetter count =>
    refine ⟨d.raised count, ?_, ?_⟩
    · have hall := takeAll_verbose d count []
      rwa [List.append_nil] at hall
    · rw [readArgument_bundle hexpecting (exists_first_letter count [])]
      rfl

/-- Between two words that say something of their own. -/
structure Draft.Ready (d : Draft) (items : List Item) : Prop where
  holds : d.Holds items
  accepted : Accepted items
  expecting_eq : d.expecting = .anything

theorem ready_initial : Draft.initial.Ready [] :=
  ⟨holds_initial, by simp [Accepted, AtMostOne, dirs, outputs], rfl⟩

/-- The items of a word are taken with those before, or the arguments are refused. -/
theorem Says.settle_cases {said : List Item} (h : Says word said) (hd : d.Ready items) :
    (∃ d' : Draft, d'.Ready (items ++ said) ∧
      ∀ arguments, d.settle (word :: arguments) = d'.settle arguments) ∨
    ¬ Accepted (items ++ said) ∧ ∀ arguments, d.settle (word :: arguments) = .refused := by
  have hread := h.readArgument_eq hd.expecting_eq
  rcases hd.holds.takeAll_cases hd.accepted said with ⟨hall, d', htake, hholds⟩ | ⟨hnot, htake⟩
  · refine Or.inl ⟨d', ⟨hholds, hall, expecting_of_takeAll hd.expecting_eq htake⟩, ?_⟩
    intro arguments
    exact settle_cons (hread.trans htake)
  · refine Or.inr ⟨hnot, ?_⟩
    intro arguments
    exact settle_cons_of_error (hread.trans htake)

/-- An output that is announced and named is taken with what was said before, or the
arguments are refused. -/
theorem Announces.settle_cases {said : List Item} {path : Text} (h : Announces word said)
    (hd : d.Ready items) (hpath : IsPlain path) :
    (∃ d' : Draft, d'.Ready (items ++ said ++ [.output path]) ∧
      ∀ arguments, d.settle (word :: path :: arguments) = d'.settle arguments) ∨
    ¬ Accepted (items ++ said ++ [.output path]) ∧
      ∀ arguments, d.settle (word :: path :: arguments) = .refused := by
  obtain ⟨d₁, htake₁, hread⟩ := h.readArgument_eq hd.expecting_eq
  rcases hd.holds.takeAll_cases hd.accepted said with ⟨hall, d₂, htake₂, hholds⟩ | ⟨-, hrefused⟩
  · obtain rfl := Except.ok.inj (htake₁.symm.trans htake₂)
    have hvalue : ({ d₁ with expecting := .value } : Draft).readArgument path =
        ({ d₁ with expecting := .value } : Draft).take (.output path) :=
      readArgument_value rfl hpath
    rw [accepted_append_singleton]
    rcases (hholds.awaiting .value).take_cases (.output path) with
      ⟨hfits, d', htake, hholds'⟩ | ⟨hnot, htake⟩
    · have haccepted := accepted_append_singleton.mpr ⟨hall, hfits⟩
      refine Or.inl ⟨d', ⟨hholds', haccepted, expecting_of_take htake⟩, ?_⟩
      intro arguments
      rw [settle_cons hread, settle_cons (hvalue.trans htake)]
    · refine Or.inr ⟨fun h => hnot h.2, ?_⟩
      intro arguments
      rw [settle_cons hread, settle_cons_of_error (hvalue.trans htake)]
  · rw [hrefused] at htake₁
    cases htake₁

/-- An output that is announced has to be named. -/
theorem Announces.exists_value {said : List Item} (h : Announces word said) (hd : d.Ready items)
    (hcheck : d.settle (word :: arguments) = .check options) :
    ∃ path rest, IsPlain path ∧ arguments = path :: rest := by
  obtain ⟨d₁, -, hread⟩ := h.readArgument_eq hd.expecting_eq
  rw [settle_cons hread] at hcheck
  cases arguments with
  | nil => cases hcheck
  | cons path rest =>
    rcases isPlain_or path with hpath | ⟨c, more, rfl⟩
    · exact ⟨path, rest, hpath, rfl⟩
    · cases hcheck

/-- Arguments that spell out items ask for a check where the items are accepted with
those that the draft has, and are refused otherwise. -/
theorem Spells.settle_cases (h : Spells more arguments) (hd : d.Ready items) :
    (Accepted (items ++ more) ∧ d.settle arguments = .check (optionsOf (items ++ more))) ∨
      ¬ Accepted (items ++ more) ∧ d.settle arguments = .refused := by
  induction h generalizing d items with
  | nil =>
    rw [List.append_nil, settle_nil (by simp [hd.expecting_eq]), hd.holds.options_eq]
    exact Or.inl ⟨hd.accepted, rfl⟩
  | directories names =>
    have hread : d.readArgument "--".toList = .ok { d with expecting := .directory } := by
      unfold readArgument
      rw [hd.expecting_eq]
      rfl
    obtain ⟨hfold, hafter⟩ := foldlM_directories
      (d := { d with expecting := .directory }) rfl names
    rw [settle_cons hread, settle, hfold]
    rcases (hd.holds.awaiting .directory).takeAll_cases hd.accepted (names.map .dir) with
      ⟨hall, d', htake, hholds⟩ | ⟨hnot, htake⟩
    · refine Or.inl ⟨hall, ?_⟩
      simp [htake, hafter d' htake, hholds.options_eq]
    · refine Or.inr ⟨hnot, ?_⟩
      simp only [htake]
  | word hword _ ih =>
    rw [← List.append_assoc]
    rcases hword.settle_cases hd with ⟨d', hd', hsettle⟩ | ⟨hnot, hsettle⟩
    · rw [hsettle]
      exact ih hd'
    · rw [hsettle]
      exact Or.inr ⟨fun h => hnot h.of_append, rfl⟩
  | value hword hpath _ ih =>
    rw [← List.append_assoc, List.append_cons]
    rcases hword.settle_cases hd hpath with ⟨d', hd', hsettle⟩ | ⟨hnot, hsettle⟩
    · rw [hsettle]
      exact ih hd'
    · rw [hsettle]
      exact Or.inr ⟨fun h => hnot h.of_append, rfl⟩

/-- A word that ends the reading of arguments, and not with a check. -/
def Stops (word : Text) : Prop :=
  ∀ d : Draft, d.expecting = .anything →
    ∃ request, d.readArgument word = .error request ∧ ∀ options, request ≠ .check options

theorem eq_toList_of_ofList {name : Text} {s : String} (h : String.ofList name = s) :
    name = s.toList := by
  rw [← h, String.toList_ofList]

theorem long_cases (name : Text) (hname : '=' ∉ name) (hne : name ≠ []) :
    (∃ said, Says ('-' :: '-' :: name) said) ∨ (∃ said, Announces ('-' :: '-' :: name) said) ∨
      Stops ('-' :: '-' :: name) := by
  by_cases houtput : name = "output".toList
  · subst houtput
    exact Or.inr (Or.inl ⟨_, .output⟩)
  by_cases hstdout : name = "stdout".toList
  · subst hstdout
    exact Or.inl ⟨_, .stdout⟩
  by_cases hverbose : name = "verbose".toList
  · subst hverbose
    exact Or.inl ⟨_, .verbose⟩
  refine Or.inr (Or.inr ?_)
  intro d hexpecting
  rw [readArgument_long hexpecting hname hne]
  unfold readLong
  split
  · contradiction
  · exact absurd (eq_toList_of_ofList ‹_›) houtput
  · exact absurd (eq_toList_of_ofList ‹_›) hstdout
  · exact absurd (eq_toList_of_ofList ‹_›) hverbose
  · exact ⟨_, rfl, by simp⟩
  · exact ⟨_, rfl, by simp⟩
  · exact ⟨_, rfl, by simp⟩

theorem long_equals_cases (name value : Text) (hname : '=' ∉ name) :
    (∃ said, Says ('-' :: '-' :: (name ++ '=' :: value)) said) ∨
      Stops ('-' :: '-' :: (name ++ '=' :: value)) := by
  by_cases houtput : name = "output".toList
  · subst houtput
    exact Or.inl ⟨_, .output value⟩
  refine Or.inr ?_
  intro d hexpecting
  rw [readArgument_long_equals hexpecting hname]
  unfold readLong
  split
  · exact absurd (eq_toList_of_ofList ‹_›) houtput
  all_goals first | contradiction | exact ⟨_, rfl, by simp⟩

theorem exists_replicate_append (letters : Text) :
    ∃ count tail, letters = List.replicate count 'v' ++ tail ∧ tail.head? ≠ some 'v' := by
  induction letters with
  | nil => exact ⟨0, [], rfl, by simp⟩
  | cons c rest ih =>
    by_cases hc : c = 'v'
    · obtain ⟨count, tail, rfl, htail⟩ := ih
      subst hc
      exact ⟨count + 1, tail, rfl, htail⟩
    · exact ⟨0, c :: rest, rfl, by simpa using hc⟩

/-- The letters that ask for verbosity come first, and what follows them decides. -/
theorem letters_cases (c : Char) (rest : Text) (hc : c ≠ '-') :
    (∃ said, Says ('-' :: c :: rest) said) ∨ (∃ said, Announces ('-' :: c :: rest) said) ∨
      Stops ('-' :: c :: rest) := by
  obtain ⟨count, tail, hletters, htail⟩ := exists_replicate_append (c :: rest)
  have hword : '-' :: c :: rest = bundle count tail := congrArg ('-' :: ·) hletters
  rw [hword]
  cases tail with
  | nil =>
    refine Or.inl ⟨_, .letters (Nat.pos_of_ne_zero ?_)⟩
    rintro rfl
    cases hletters
  | cons first path =>
    by_cases hfirst : first = 'o'
    · subst hfirst
      cases path with
      | nil => exact Or.inr (Or.inl ⟨_, .outputLetter count⟩)
      | cons next path =>
        by_cases hnext : next = '='
        · subst hnext
          exact Or.inl ⟨_, .outputLetter count path⟩
        · exact Or.inl ⟨_, .attached count (by simp) (by simpa using hnext)⟩
    · refine Or.inr (Or.inr ?_)
      intro d hexpecting
      rw [readArgument_bundle hexpecting ⟨c, rest, hc, hletters.symm⟩]
      have hv : first ≠ 'v' := by simpa using htail
      unfold readLetters
      split
      all_goals first | (exact ⟨_, rfl, by simp⟩) | simp_all

/-- A word says something, announces an output, is a double dash or ends the reading. -/
theorem word_cases (word : Text) :
    (∃ said, Says word said) ∨ (∃ said, Announces word said) ∨ word = "--".toList ∨
      Stops word := by
  rcases isPlain_or word with hplain | ⟨c, rest, rfl⟩
  · exact Or.inl ⟨_, .dir hplain⟩
  by_cases hc : c = '-'
  · subst hc
    by_cases hequals : '=' ∈ rest
    · obtain ⟨name, value, rfl, hname⟩ := List.eq_append_cons_of_mem hequals
      exact (long_equals_cases name value hname).imp_right fun h => Or.inr (Or.inr h)
    · by_cases hne : rest = []
      · subst hne
        exact Or.inr (Or.inr (Or.inl rfl))
      · exact (long_cases rest hequals hne).imp_right (Or.imp_right Or.inr)
  · exact (letters_cases c rest hc).imp_right (Or.imp_right Or.inr)

/-- Arguments that ask for a check spell out items. -/
theorem exists_spells (arguments : List Text) (hd : d.Ready items)
    (h : d.settle arguments = .check options) : ∃ more, Spells more arguments := by
  induction hlength : arguments.length using Nat.strong_induction_on
    generalizing arguments d items with
  | _ length ih =>
    subst hlength
    cases arguments with
    | nil => exact ⟨[], .nil⟩
    | cons word rest =>
      rcases word_cases word with ⟨said, hword⟩ | ⟨said, hword⟩ | rfl | hstops
      · rcases hword.settle_cases hd with ⟨d', hd', hsettle⟩ | ⟨-, hsettle⟩
        · rw [hsettle] at h
          obtain ⟨more, hrest⟩ := ih rest.length (by simp) rest hd' h rfl
          exact ⟨said ++ more, .word hword hrest⟩
        · rw [hsettle] at h
          cases h
      · obtain ⟨path, rest, hpath, rfl⟩ := hword.exists_value hd h
        rcases hword.settle_cases hd hpath with ⟨d', hd', hsettle⟩ | ⟨-, hsettle⟩
        · rw [hsettle] at h
          have hshorter : rest.length < (word :: path :: rest).length := by
            simp only [List.length_cons]
            omega
          obtain ⟨more, hrest⟩ := ih rest.length hshorter rest hd' h rfl
          exact ⟨said ++ .output path :: more, .value hword hpath hrest⟩
        · rw [hsettle] at h
          cases h
      · exact ⟨_, .directories rest⟩
      · obtain ⟨request, hread, hcheck⟩ := hstops d hd.expecting_eq
        rw [settle_cons_of_error hread] at h
        exact absurd h (hcheck options)

/-- Arguments ask for a check exactly where they spell out items that are accepted. -/
theorem request_eq_check_iff : request arguments = .check options ↔
    ∃ items, Spells items arguments ∧ Accepted items ∧ options = optionsOf items := by
  constructor
  · intro h
    obtain ⟨items, hspells⟩ := exists_spells arguments ready_initial h
    rcases hspells.settle_cases ready_initial with ⟨hall, hsettle⟩ | ⟨-, hsettle⟩
    · exact ⟨items, hspells, hall, Request.check.inj (h.symm.trans hsettle)⟩
    · cases h.symm.trans hsettle
  · rintro ⟨items, hspells, haccepted, rfl⟩
    rcases hspells.settle_cases ready_initial with ⟨-, hsettle⟩ | ⟨hnot, -⟩
    · exact hsettle
    · exact absurd haccepted hnot

end HornSyntax.CommandLine
