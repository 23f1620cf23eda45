import HornSyntax.Text

/-!
A tree of files and directories. An entry is known by the names on the way
from the root to it, the root itself is always a directory, and relative paths
start at a working directory. Names and paths have a greatest length. Reading
gives the text of a file; writing puts a whole new content in the place of a
file or leaves the tree as it is.
-/

namespace HornSyntax

/-- Why an entry cannot be read or written. -/
inductive Fault where
  | notFound
  | notADirectory
  | isADirectory
  | nameTooLong
  | invalidPath
  | invalidText
  | busy
  | other (cause : Text)
  deriving DecidableEq

def Fault.text : Fault → Text
  | notFound => "No such file or directory (os error 2)".toList
  | notADirectory => "Not a directory (os error 20)".toList
  | isADirectory => "Is a directory (os error 21)".toList
  | nameTooLong => "File name too long (os error 36)".toList
  | invalidPath => "file name contained an unexpected NUL byte".toList
  | invalidText => "stream did not contain valid UTF-8".toList
  | busy => "Device or resource busy (os error 16)".toList
  | other cause => cause

-- Named here, so that the equality of contents does not depend on other imports.
instance decEqContent : DecidableEq ByteArray := ByteArray.decEq

inductive Entry where
  | file (content : ByteArray)
  | directory
  deriving DecidableEq

/-- The names from the root to an entry. -/
abbrev Location := List Text

structure FileTree where
  entries : List (Location × Entry)
  workingDirectory : Location

namespace FileTree

/-- The entry at a location, if there is one. -/
def find? (t : FileTree) (location : Location) : Option Entry :=
  if location = [] then some .directory else t.entries.lookup location

/-- The tree with one entry added or replaced. -/
def put (t : FileTree) (location : Location) (entry : Entry) : FileTree :=
  { t with entries := (location, entry) :: t.entries.filter (·.1 != location) }

theorem find?_put_self (t : FileTree) {location : Location} (h : location ≠ []) (entry : Entry) :
    (t.put location entry).find? location = some entry := by
  simp [find?, put, h]

theorem find?_put_of_ne (t : FileTree) {location other : Location} (h : other ≠ location)
    (entry : Entry) : (t.put location entry).find? other = t.find? other := by
  have hother : (other == location) = false := by simpa using h
  simp only [find?, put, List.lookup_cons, hother]
  congr 1
  induction t.entries with
  | nil => rfl
  | cons first rest ih =>
    obtain ⟨key, value⟩ := first
    by_cases hkey : key = location
    · subst hkey
      simpa [List.lookup_cons, hother] using ih
    · simp only [List.filter_cons, bne_iff_ne, ne_eq, hkey, not_false_eq_true, if_true,
        List.lookup_cons, ih]

/-- The names between the slashes of a path. -/
def names : Text → List Text
  | [] => [[]]
  | c :: rest =>
    if c = '/' then [] :: names rest
    else
      match names rest with
      | [] => [[c]]
      | first :: others => (c :: first) :: others

/-- The path of a file or directory in a directory, which is named with or
without a slash at its end. -/
def joinPath (dir name : Text) : Text :=
  if dir = [] || dir.getLast? = some '/' then dir ++ name else dir ++ '/' :: name

/-- A path that starts at the root, for one that may start at `dir`. -/
def absolutePath (dir path : Text) : Text :=
  if path.head? = some '/' then path else joinPath dir path

/-- The path of a location. -/
def pathOf (location : Location) : Text := '/' :: Text.joined ['/'] location

/-- The most bytes that a name can have. -/
def longestName : Nat := 255

/-- The most bytes that a path can have. -/
def longestPath : Nat := 4095

/-- What is wrong with a path wherever it may lead. -/
def checkPath (path : Text) : Except Fault Unit :=
  if path.contains '\x00' then .error .invalidPath
  else if path = [] then .error .notFound
  else if longestPath < path.bytes then .error .nameTooLong
  else .ok ()

/-- Follows names from a location. Each name is looked for in a directory; an
empty name and a single dot stay there, and two dots go up. -/
def walk (t : FileTree) : Location → List Text → Except Fault Location
  | location, [] => .ok location
  | location, name :: rest =>
    match t.find? location with
    | none => .error .notFound
    | some (.file _) => .error .notADirectory
    | some .directory =>
      if name = [] || name = ['.'] then t.walk location rest
      else if name = ['.', '.'] then t.walk location.dropLast rest
      else if longestName < name.bytes then .error .nameTooLong
      else t.walk (location ++ [name]) rest

/-- Where a path starts. -/
def origin (t : FileTree) (path : Text) : Location :=
  if path.head? = some '/' then [] else t.workingDirectory

/-- The location that a path leads to, whether or not something is there. -/
def locate (t : FileTree) (path : Text) : Except Fault Location := do
  checkPath path
  t.walk (t.origin path) (names path)

/-- The text of the file that a path leads to. -/
def read (t : FileTree) (path : Text) : Except Fault Text := do
  match t.find? (← t.locate path) with
  | none => .error .notFound
  | some .directory => .error .isADirectory
  | some (.file content) =>
    match Text.decode? content with
    | some text => .ok text
    | none => .error .invalidText

/-- The names of a path up to the last one, this one, and whether a slash
follows it. A path of slashes alone ends in an empty name. -/
def splitPath (path : Text) : List Text × Text × Bool :=
  let all := names path
  let kept := (all.reverse.dropWhile (·.isEmpty)).reverse
  (kept.dropLast, kept.getLastD [], kept.length != all.length)

/-- Names without the empty ones and the single dots at their end. -/
def trimNames (all : List Text) : List Text :=
  (all.reverse.dropWhile fun name => name = [] || name = ['.']).reverse

/-- The path of the directory in which the last proper name of a path stands. -/
def directoryPath (path : Text) : Text :=
  match trimNames (trimNames (names path)).dropLast with
  | [] => if path.head? = some '/' then ['/'] else ['.']
  | kept => Text.joined ['/'] kept

/-- A name of ten bytes for a content that is not in its place yet. -/
def stagingName (number : Nat) : Text :=
  ".tmp".toList ++ Text.decimal (100000 + number % 900000)

/-- Where a content for a path is laid down first: in the same directory, by a
path from the root. -/
def stagingPath (workingPath path : Text) (number : Nat) : Text :=
  joinPath (absolutePath workingPath (directoryPath path)) (stagingName number)

/-- Whether a content can be laid down in the directory of a path. -/
def stage (t : FileTree) (path : Text) : Except Fault Unit := do
  checkPath (stagingPath (pathOf t.workingDirectory) path 0)
  let _ ← t.walk (t.origin path) (names (directoryPath path) ++ [stagingName 0])

/-- The location at which a content can take a place. Its directory has to
exist, and the path has to end in a proper name. -/
def slot (t : FileTree) (path : Text) : Except Fault Location := do
  checkPath path
  let (parents, last, slashed) := splitPath path
  let parent ← t.walk (t.origin path) parents
  match t.find? parent with
  | none => .error .notFound
  | some (.file _) => .error .notADirectory
  | some .directory =>
    if last = [] || last = ['.'] || last = ['.', '.'] then .error .busy
    else if longestName < last.bytes then .error .nameTooLong
    else if slashed then .error .notADirectory
    else if t.find? (parent ++ [last]) = some .directory then .error .isADirectory
    else .ok (parent ++ [last])

/-- The location that a write to a path replaces. The content is laid down
beside it first, so that it takes its place in one step or not at all. -/
def target (t : FileTree) (path : Text) : Except Fault Location := do
  t.stage path
  t.slot path

/-- The tree with a text as the content of the file that a path leads to. -/
def write (t : FileTree) (path contents : Text) : Except Fault FileTree := do
  let location ← t.target path
  .ok (t.put location (.file (Text.encode contents)))

end FileTree

end HornSyntax
