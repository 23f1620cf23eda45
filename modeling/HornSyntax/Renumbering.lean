import HornSyntax.SyntaxError

/-!
A message under another line number. The number stands in the first line of a
message and in front of the line that is quoted, and the gutter of every line is
as wide as the number. All of it is replaced in the text of a finished message,
line by line, as the beginning of each line tells.
-/

namespace HornSyntax

namespace Text

def withoutReturn (line : Text) : Text :=
  if line.getLast? = some '\r' then line.dropLast else line

/-- The lines of a text, each without the line feed or the carriage return and line
feed that end it. -/
def bareLines (text : Text) : List Text :=
  let pieces := text.splitOn '\n'
  -- What follows the last line feed is a line only if there is something.
  pieces.dropLast.map withoutReturn ++ [pieces.getLastD []].filter (· ≠ [])

end Text

namespace SyntaxError

def gutter (n : Nat) : Text := List.replicate (Text.decimal n).length ' '

/-- The first line of a message up to the column. -/
def header (n : Nat) : Text := gutter n ++ "--> ".toList ++ Text.decimal n ++ ":".toList

def numbered (n : Nat) : Text := Text.decimal n ++ " |".toList

def followsGutter (rest : Text) : Bool :=
  " |".toList.isPrefixOf rest || " =".toList.isPrefixOf rest

/-- Puts the number `new` in place of `old` in one line of a message. A line that
begins like none of the lines of a message stays as it is. -/
def renumberLine (old new : Nat) (line : Text) : Text :=
  match (header old).isPrefixOf? line with
  | some rest => header new ++ rest
  | none =>
    match (numbered old).isPrefixOf? line with
    | some rest => numbered new ++ rest
    | none =>
      match (gutter old).isPrefixOf? line with
      | some rest => if followsGutter rest then gutter new ++ rest else line
      | none => line

def renumber (old new : Nat) (message : Text) : Text :=
  Text.joined ['\n'] (message.bareLines.map (renumberLine old new))

/-- The message with another number for the line of the error. -/
def renumbered (e : SyntaxError) (n : Nat) : Text := renumber e.line n e.message

end SyntaxError

end HornSyntax
