import HornSyntax.FileTree
import HornSyntax.Report

/-!
Checking a directory of numbered files. The files `1.txt`, `2.txt` and so on
are checked in order up to the first number that is missing, and their blocks
make up one report. A file that is there but cannot be read ends the run
without a report.
-/

namespace HornSyntax

/-- What went wrong with which file. -/
inductive Failure where
  | read (path : Text) (fault : Fault)
  | write (path : Text) (fault : Fault)
  deriving DecidableEq

namespace Failure

def fault : Failure → Fault
  | read _ fault => fault
  | write _ fault => fault

/-- The message without the cause. -/
def heading : Failure → Text
  | read path _ => "failed to read ".toList ++ path
  | write path _ => "failed to write ".toList ++ path

def message (f : Failure) : Text := f.heading ++ ": ".toList ++ f.fault.text

end Failure

def inputPath (dir : Text) (fileIndex : Nat) : Text :=
  FileTree.joinPath dir (Text.decimal fileIndex ++ ".txt".toList)

/-- The report so far and how many files went into it. -/
structure Summary where
  output : Text
  files : Nat
  log : List LogEntry

namespace Summary

def initial : Summary := ⟨banner, 0, []⟩

/-- Adds the block of one more file. -/
def add (s : Summary) (path text : Text) : Summary where
  output := s.output ++ fileBlock text (s.files + 1)
  files := s.files + 1
  log := s.log ++ ⟨.info, .directory, "checking ".toList ++ path⟩ :: checkLog text (s.files + 1)

/-- Nothing follows the last file. -/
def stop (s : Summary) (path : Text) : Summary :=
  { s with log := s.log ++ [⟨.debug, .directory, path ++ " not found, stopping".toList⟩] }

/-- Goes on with the next file, at most `bound` times. -/
def extend (read : Text → Except Fault Text) (dir : Text) : Nat → Summary → Except Failure Summary
  | 0, s => .ok s
  | bound + 1, s =>
    let path := inputPath dir (s.files + 1)
    match read path with
    | .ok text => extend read dir bound (s.add path text)
    | .error .notFound => .ok (s.stop path)
    | .error fault => .error (.read path fault)

end Summary

/-- Checks the numbered files of a directory. Each is an entry of its own, so
the entries bound their number. -/
def FileTree.checkDirectory (t : FileTree) (dir : Text) : Except Failure Summary :=
  Summary.extend t.read dir (t.entries.length + 1) .initial

/-- The entry that a written report leaves in the log. -/
def wroteEntry (path : Text) : LogEntry := ⟨.info, .directory, "wrote ".toList ++ path⟩

/-- Writes a report, or says why it could not be written. -/
def FileTree.writeReport (t : FileTree) (path contents : Text) : Except Failure FileTree :=
  (t.write path contents).mapError (.write path)

end HornSyntax
