import HornSyntax.Log
import HornSyntax.Program.OfNodes
import HornSyntax.SyntaxError

/-!
Parsing a whole text into the syntax tree of a program. It fails with the same
error as recognizing the text, since the nodes of a match always build a tree.
-/

namespace HornSyntax

inductive ParseFailure where
  | mismatch (error : SyntaxError)
  | misshapen (nodes : List Node)

def Program.parse (text : Text) : Except ParseFailure Program :=
  match Rule.program.matchText text with
  | .error e => .error (.mismatch e)
  | .ok m =>
    match Program.ofNodes? m.nodes with
    | some program => .ok program
    | none => .error (.misshapen m.nodes)

/-- The entry that a successful parse writes to the log. -/
def Program.logEntry (p : Program) : LogEntry where
  level := .trace
  source := .parsing
  text :=
    "parsed ".toList ++ Text.decimal p.clauses.length ++ " clauses (".toList ++
      Text.decimal (p.clauses.countP (·.isFact)) ++ " facts), query with ".toList ++
      Text.decimal p.goals.length ++ " goals".toList

end HornSyntax
