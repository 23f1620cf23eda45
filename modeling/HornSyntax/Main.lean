import HornSyntax.CommandLine

/-!
The program on a machine. The numbered files of a directory are read from the
disk, and a report goes to standard output or takes the place of the output file.
-/

namespace HornSyntax.Main

/-- Some calls of the system report the number of an error with a minus sign. -/
def errorNumber (code : UInt32) : UInt32 := min code (0 - code)

def faultOf : IO.Error → Fault
  | .noFileOrDirectory _ _ _ => .notFound
  | .noSuchThing _ _ _ => .notFound
  | .inappropriateType _ code _ =>
    if errorNumber code = 20 then .notADirectory else .isADirectory
  | .invalidArgument name code details =>
    if errorNumber code = 36 then .nameTooLong
    else .other (toString (IO.Error.invalidArgument name code details)).toList
  | .resourceBusy _ _ => .busy
  | e => .other (toString e).toList

/-- The text of a file. -/
def readFile (path : Text) : IO (Except Fault Text) := do
  match ← (IO.FS.readBinFile (String.ofList path)).toBaseIO with
  | .error e => return .error (faultOf e)
  | .ok content =>
    match Text.decode? content with
    | some text => return .ok text
    | none => return .error .invalidText

/-- What is read from the numbered files, up to the first that gives no text. -/
partial def readFiles (dir : Text) (fileIndex : Nat) : IO (List (Text × Except Fault Text)) := do
  let path := inputPath dir fileIndex
  let answer ← readFile path
  match answer with
  | .ok _ => return (path, answer) :: (← readFiles dir (fileIndex + 1))
  | .error _ => return [(path, answer)]

/-- A new file in which a content for `path` can be laid down. Its name is
drawn again, at most `tries` times, while a drawn one is taken. -/
def newFileBeside (path : Text) (tries : Nat) : IO (String × IO.FS.Handle) := do
  let workingPath := (← IO.currentDir).toString.toList
  let number ← IO.rand 0 899999
  let beside := String.ofList (FileTree.stagingPath workingPath path number)
  match ← (IO.FS.Handle.mk beside .writeNew).toBaseIO, tries with
  | .ok handle, _ => return (beside, handle)
  | .error (.alreadyExists _ _ _), more + 1 => newFileBeside path more
  | .error e, _ => throw e

/-- Puts a new content in the place of a file by way of a file beside it. -/
def replaceFile (path contents : Text) : IO (Except Fault Unit) := do
  match ← (newFileBeside path 1000).toBaseIO with
  | .error e => return .error (faultOf e)
  | .ok (beside, handle) =>
    let attempt : IO Unit := do
      handle.putStr (String.ofList contents)
      handle.flush
      IO.FS.rename beside (String.ofList path)
    match ← attempt.toBaseIO with
    | .ok () => return .ok ()
    | .error e =>
      let _ ← (IO.FS.removeFile beside).toBaseIO
      return .error (faultOf e)

def checkDirectory (dir : Text) : IO (Except Failure Summary) := do
  let answers ← readFiles dir 1
  let read := fun path => (answers.lookup path).getD (.error .notFound)
  return Summary.extend read dir answers.length .initial

def showLog (log : List LogEntry) : IO Unit := do
  for entry in log do
    IO.eprintln (String.ofList entry.text)

/-- The machine that the program runs on. -/
def host : CommandLine.Host IO where
  checkDirectory := checkDirectory
  replaceFile := replaceFile
  print text := IO.print (String.ofList text)
  fail failure := IO.eprint (String.ofList (CommandLine.failureLine failure))
  refuse := IO.eprintln "error: wrong arguments, see --help"
  log := showLog

end HornSyntax.Main

open HornSyntax in
def main (arguments : List String) : IO UInt32 := do
  let code ← CommandLine.runOn Main.host (arguments.map String.toList)
  return code.toUInt32
