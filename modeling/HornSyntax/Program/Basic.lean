import HornSyntax.Text

/-!
The syntax tree of clause programs: clauses with a head and a body, and the
goals of the one query that ends a program.
-/

namespace HornSyntax

/-- A name, or the text that stood between two quotes. -/
inductive Atom where
  | name (text : Text)
  | quoted (text : Text)
  deriving DecidableEq

/-- A numeral is kept as it was written. -/
inductive Term where
  | atom (atom : Atom)
  | var (name : Text)
  | numeral (digits : Text)
  | compound (functor : Atom) (arguments : List Term)

/-- A predicate with its argument groups, of which there may be any number. -/
structure Predicate where
  name : Atom
  arguments : List (List Term)

def Predicate.isBare (p : Predicate) : Bool := p.arguments.isEmpty

structure Clause where
  head : Predicate
  body : List Predicate

/-- A fact is a clause without a body. -/
def Clause.isFact (c : Clause) : Bool := c.body.isEmpty

structure Program where
  clauses : List Clause
  goals : List Predicate

end HornSyntax
