import HornSyntax.Log
import HornSyntax.Renumbering

/-!
Finding all the errors of a file in one pass. A failed attempt to recognize
what is left of the text is put down, then everything up to the end of the
next run of terminators is skipped and the rest is tried again. Lines are
added up over the attempts, each of which counts its own from one.
-/

namespace HornSyntax

/-- One reported error. Its line is the running sum of the lines of this and
all earlier errors, its column that in the failed attempt, and its offset that
in the whole text. -/
structure Diagnostic where
  index : Nat
  line : Nat
  column : Nat
  offset : Nat
  message : Text
  deriving DecidableEq

structure FileReport where
  fileIndex : Nat
  diagnostics : List Diagnostic
  deriving DecidableEq

def FileReport.valid (r : FileReport) : Bool := r.diagnostics.isEmpty

def FileReport.errorCount (r : FileReport) : Nat := r.diagnostics.length

/-- What has been found so far, and how many bytes have been skipped. -/
structure Recovery where
  consumed : Nat
  lineCount : Nat
  diagnostics : List Diagnostic
  log : List LogEntry

namespace Recovery

/-- What to do next. An error to recover from is known by its offset in the
remaining text. -/
inductive Phase where
  | scanning
  | resynchronizing (offset : Nat)
  | done
  deriving DecidableEq

def initial : Recovery := ⟨0, 0, [], []⟩

/-- What is left of the text. -/
def remaining? (s : Recovery) (text : Text) : Option Text := Text.dropBytes? s.consumed text

/-- The text up to the end of its first run of terminators. -/
def throughTerminators (text : Text) : Text :=
  text.takeWhile (· != '.') ++ (text.dropWhile (· != '.')).takeWhile (· == '.')

/-- The text after its first run of terminators. -/
def afterTerminators (text : Text) : Text :=
  (text.dropWhile (· != '.')).dropWhile (· == '.')

def diagnosticEntry (d : Diagnostic) : LogEntry :=
  ⟨.trace, .recovery, "error ".toList ++ Text.decimal d.index ++ " at line ".toList ++
    Text.decimal d.line ++ ", column ".toList ++ Text.decimal d.column ++ " (byte ".toList ++
    Text.decimal d.offset ++ ")".toList⟩

def resumedEntry (consumed : Nat) : LogEntry :=
  ⟨.trace, .recovery, "resuming at byte ".toList ++ Text.decimal consumed⟩

def gaveUpEntry (byte : Nat) : LogEntry :=
  ⟨.debug, .recovery, "no clause terminator after byte ".toList ++ Text.decimal byte ++
    ", giving up on the rest".toList⟩

/-- The diagnostic for an error of the remaining text. -/
def diagnose (s : Recovery) (e : SyntaxError) : Diagnostic where
  index := s.diagnostics.length + 1
  line := s.lineCount + e.line
  column := e.column
  offset := s.consumed + e.offset
  message := e.renumbered (s.lineCount + e.line)

/-- One attempt on the remaining text. -/
def scan (text : Text) (s : Recovery) : Phase × Recovery :=
  match (s.remaining? text).map recognize with
  | some (.error e) =>
    let d := s.diagnose e
    (.resynchronizing e.offset,
      { s with
        lineCount := d.line
        diagnostics := s.diagnostics ++ [d]
        log := s.log ++ [diagnosticEntry d] })
  | _ => (.done, s)

/-- Skips from the error through the next run of terminators. The run ends
where there is none, or where only white space follows. -/
def resynchronize (text : Text) (offset : Nat) (s : Recovery) : Phase × Recovery :=
  match (s.remaining? text).bind (Text.dropBytes? offset) with
  | some tail =>
    if tail.contains '.' then
      let consumed := s.consumed + offset + (throughTerminators tail).bytes
      let phase :=
        if (afterTerminators tail).all CharacterClass.isWhite then .done else .scanning
      (phase, { s with consumed := consumed, log := s.log ++ [resumedEntry consumed] })
    else (.done, { s with log := s.log ++ [gaveUpEntry (s.consumed + offset)] })
  | none => (.done, { s with log := s.log ++ [gaveUpEntry (s.consumed + offset)] })

def step (text : Text) : Phase → Recovery → Phase × Recovery
  | .scanning, s => s.scan text
  | .resynchronizing offset, s => s.resynchronize text offset
  | .done, s => (.done, s)

/-- At most `fuel` steps. -/
def run (text : Text) : Nat → Phase → Recovery → Phase × Recovery
  | 0, phase, s => (phase, s)
  | fuel + 1, phase, s =>
    if phase = .done then (.done, s)
    else
      let next := step text phase s
      run text fuel next.1 next.2

/-- Every attempt but the last is followed by the loss of a terminator, so
twice as many steps as there are attempts suffice. -/
def fuel (text : Text) : Nat := 2 * (text.count '.' + 1)

def finish (text : Text) : Recovery := (run text (fuel text) .scanning initial).2

def report (s : Recovery) (fileIndex : Nat) : FileReport := ⟨fileIndex, s.diagnostics⟩

end Recovery

def FileReport.logEntry (r : FileReport) : LogEntry :=
  ⟨.debug, .recovery, "file ".toList ++ Text.decimal r.fileIndex ++ ": ".toList ++
    Text.decimal r.errorCount ++ " syntax error(s)".toList⟩

/-- All the errors of a file that one pass can find. -/
def check (text : Text) (fileIndex : Nat) : FileReport :=
  (Recovery.finish text).report fileIndex

/-- What a check writes to the log. -/
def checkLog (text : Text) (fileIndex : Nat) : List LogEntry :=
  let s := Recovery.finish text
  s.log ++ [(s.report fileIndex).logEntry]

end HornSyntax
