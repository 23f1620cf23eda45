import HornSyntax.FileTree

/-!
A write step by step. The content is laid down in a new file in the directory of
its path, under the first of the names tried that is free. Then the new file is
moved to its place, or removed again where it cannot take it.
-/

namespace HornSyntax

/-- A content for a path, and the numbers to try for the name of the new file. -/
structure WriteRequest where
  path : Text
  contents : Text
  tried : List Nat

namespace FileTree

def remove (t : FileTree) (location : Location) : FileTree :=
  { t with entries := t.entries.filter (·.1 != location) }

def move (t : FileTree) (location destination : Location) : FileTree :=
  match t.find? location with
  | none => t
  | some entry => (t.remove location).put destination entry

/-- Where a new file can be laid down in the directory of a path. A name that is
taken makes way for the next one tried. -/
def newPlace (t : FileTree) (path : Text) : List Nat → Except Fault Location
  | [] => .error (.other "too many temporary files exist".toList)
  | number :: more => do
    checkPath (stagingPath (pathOf t.workingDirectory) path number)
    let place ← t.walk (t.origin path) (names (directoryPath path) ++ [stagingName number])
    if (t.find? place).isSome then t.newPlace path more else .ok place

/-- The tree after a write, and whether the write succeeded. -/
def perform (t : FileTree) (w : WriteRequest) : FileTree × Except Fault Unit :=
  match t.newPlace w.path w.tried with
  | .error fault => (t, .error fault)
  | .ok place =>
    let laid := t.put place (.file (Text.encode w.contents))
    match laid.slot w.path with
    -- The new file has no place to go to, so it is dropped.
    | .error fault => (laid.remove place, .error fault)
    | .ok location => (laid.move place location, .ok ())

def performAll (t : FileTree) (ws : List WriteRequest) : FileTree :=
  ws.foldl (fun t w => (t.perform w).1) t

def outcomes (t : FileTree) : List WriteRequest → List (WriteRequest × Except Fault Unit)
  | [] => []
  | w :: ws => (w, (t.perform w).2) :: (t.perform w).1.outcomes ws

end FileTree

end HornSyntax
