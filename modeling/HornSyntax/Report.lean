import HornSyntax.Recovery

/-!
The report on a series of files: a banner, then one block for each file, which
says that its syntax is correct or lists its errors and counts them.
-/

namespace HornSyntax

/-- The first line of a report. -/
def banner : Text := "CMP321 Parser Project\n".toList

namespace FileReport

def plural (count : Nat) : Text := if count = 1 then [] else ['s']

def heading (r : FileReport) : Text :=
  "\n-----File ".toList ++ Text.decimal r.fileIndex ++ ":\n".toList

def errorEntry (d : Diagnostic) : Text :=
  "\nError ".toList ++ Text.decimal d.index ++ " - ".toList ++ d.message ++ ['\n']

def total (r : FileReport) : Text :=
  "Total Errors in File ".toList ++ Text.decimal r.fileIndex ++ ": ".toList ++
    Text.decimal r.errorCount ++ " error".toList ++ plural r.errorCount ++ "\n\n".toList

/-- The block of one file. -/
def render (r : FileReport) : Text :=
  if r.valid then r.heading ++ "Syntax is Correct\n\n".toList
  else r.heading ++ r.diagnostics.flatMap errorEntry ++ r.total

end FileReport

/-- The block of a file with the given text. -/
def fileBlock (text : Text) (fileIndex : Nat) : Text := (check text fileIndex).render

end HornSyntax
