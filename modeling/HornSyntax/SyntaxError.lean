import HornSyntax.Reader

/-!
A syntax error: the text before and after the place where reading got stuck
and the rules that were expected there. Its message has six lines, which name
the line and column, quote the line of the error, mark the column and say what
was expected. The message can be laid out for another line number.
-/

namespace HornSyntax

structure SyntaxError where
  before : Text
  after : Text
  expected : List Rule

namespace SyntaxError

/-- The error of a text at its furthest refusals, each rule named once and in
the order of the grammar. Without refusals nothing is expected at the start. -/
def ofRefusals (text : Text) : Option Refusals → SyntaxError
  | none => ⟨[], text, []⟩
  | some refusals =>
    let (before, after) := text.splitAtByte refusals.position
    ⟨before, after, Rule.all.filter (· ∈ refusals.rules)⟩

def offset (e : SyntaxError) : Nat := e.before.bytes

/-- Lines are counted from one, and only a line feed ends a line. -/
def line (e : SyntaxError) : Nat := e.before.count '\n' + 1

/-- Columns are counted in characters from one. -/
def column (e : SyntaxError) : Nat := e.before.lastLine.length + 1

def isBreak (c : Char) : Bool := c == '\n' || c == '\r'

/-- A visible sign in place of a line break. -/
def showBreak (c : Char) : Char :=
  if c = '\n' then '␊' else if c = '\r' then '␍' else c

/-- The line of the error as the message quotes it. Line breaks are left out,
but where the error is at a line break they are made visible. -/
def quotedLine (e : SyntaxError) : Text :=
  let line := e.before.lastLine ++ e.after.firstLine
  if e.after.head?.any isBreak then line.map showBreak else line.filter (!isBreak ·)

/-- Puts a mark below the column of the error, with tabs below tabs. -/
def underline (e : SyntaxError) : Text :=
  (e.quotedLine.take (e.column - 1)).map (fun c => if c = '\t' then '\t' else ' ') ++
    "^---".toList

/-- Several alternatives in one phrase. -/
def alternatives : List Text → Text
  | [] => []
  | [a] => a
  | [a, b] => a ++ " or ".toList ++ b
  | names => Text.joined ", ".toList names.dropLast ++ ", or ".toList ++ names.getLastD []

def expectation (e : SyntaxError) : Text :=
  match e.expected with
  | [] => "unknown parsing error".toList
  | rules => "expected ".toList ++ alternatives (rules.map (·.wording.toList))

/-- The six lines of the message, with `line` as the number of the line. -/
def messageLines (e : SyntaxError) (line : Nat) : List Text :=
  let number := Text.decimal line
  let gutter := List.replicate number.length ' '
  [gutter ++ "--> ".toList ++ number ++ ":".toList ++ Text.decimal e.column,
    gutter ++ " |".toList,
    number ++ " | ".toList ++ e.quotedLine,
    gutter ++ " | ".toList ++ e.underline,
    gutter ++ " |".toList,
    gutter ++ " = ".toList ++ e.expectation]

def messageAt (e : SyntaxError) (line : Nat) : Text :=
  Text.joined ['\n'] (e.messageLines line)

def message (e : SyntaxError) : Text := e.messageAt e.line

end SyntaxError

/-- Matches a rule at the beginning of a text, whatever follows. -/
def Rule.matchText (r : Rule) (text : Text) : Except SyntaxError Match :=
  let outcome := r.reader 0 text
  match outcome.found with
  | some m => .ok m
  | none => .error (.ofRefusals text outcome.refusals)

/-- Says whether a whole text is a program, or else what is wrong with it. -/
def recognize (text : Text) : Except SyntaxError Unit :=
  (Rule.program.matchText text).map fun _ => ()

end HornSyntax
