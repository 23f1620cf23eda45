import HornSyntax.Match
import HornSyntax.Program.Basic

/-!
Building the syntax tree from the nodes of a match. Nodes of punctuation are
passed over, and every other node becomes one part of the tree. There is no
answer for nodes that the grammar does not make.
-/

namespace HornSyntax

def Atom.ofNode? : Node → Option Atom
  | ⟨.atom, _, _, [⟨.smallAtom, _, text, _⟩]⟩ => some (.name text)
  | ⟨.atom, _, _, [⟨.quotedAtom, _, _, [⟨.string, _, text, _⟩]⟩]⟩ => some (.quoted text)
  | _ => none

mutual

/-- A term node holds one of its alternatives. -/
def Term.ofNode? : Node → Option Term
  | ⟨.term, _, _, [⟨.compound, _, _, [functor, _, ⟨.termList, _, _, items⟩, _]⟩]⟩ => do
    some (.compound (← Atom.ofNode? functor) (← Term.ofNodes? items))
  | ⟨.term, _, _, [⟨.var, _, text, _⟩]⟩ => some (.var text)
  | ⟨.term, _, _, [⟨.numeral, _, text, _⟩]⟩ => some (.numeral text)
  | ⟨.term, _, _, [node]⟩ => (Atom.ofNode? node).map .atom
  | _ => none

/-- The terms of an argument list. -/
def Term.ofNodes? : List Node → Option (List Term)
  | [] => some []
  | ⟨.comma, _, _, _⟩ :: rest => Term.ofNodes? rest
  | node :: rest => do some ((← Term.ofNode? node) :: (← Term.ofNodes? rest))

end

/-- The argument groups of a predicate. -/
def Predicate.groupsOfNodes? : List Node → Option (List (List Term))
  | [] => some []
  | ⟨.lparen, _, _, _⟩ :: ⟨.termList, _, _, items⟩ :: ⟨.rparen, _, _, _⟩ :: rest => do
    some ((← Term.ofNodes? items) :: (← groupsOfNodes? rest))
  | _ => none

def Predicate.ofNode? : Node → Option Predicate
  | ⟨.predicate, _, _, name :: groups⟩ => do
    some ⟨← Atom.ofNode? name, ← Predicate.groupsOfNodes? groups⟩
  | _ => none

/-- The predicates of a body or of a query. -/
def Predicate.ofNodes? : List Node → Option (List Predicate)
  | [] => some []
  | ⟨.comma, _, _, _⟩ :: rest => ofNodes? rest
  | node :: rest => do some ((← Predicate.ofNode? node) :: (← ofNodes? rest))

def Clause.ofNode? : Node → Option Clause
  | ⟨.clause, _, _, [head, ⟨.dot, _, _, _⟩]⟩ => do some ⟨← Predicate.ofNode? head, []⟩
  | ⟨.clause, _, _,
      [head, ⟨.neck, _, _, _⟩, ⟨.predicateList, _, _, items⟩, ⟨.dot, _, _, _⟩]⟩ => do
    some ⟨← Predicate.ofNode? head, ← Predicate.ofNodes? items⟩
  | _ => none

/-- The clauses come first, and one query and the end of the text close the list. -/
def Program.ofNodes? : List Node → Option Program
  | [⟨.query, _, _, [⟨.queryStart, _, _, _⟩, ⟨.predicateList, _, _, items⟩, ⟨.dot, _, _, _⟩]⟩,
      ⟨.endOfInput, _, _, _⟩] => do
    some ⟨[], ← Predicate.ofNodes? items⟩
  | node :: rest => do
    let clause ← Clause.ofNode? node
    let program ← Program.ofNodes? rest
    some { program with clauses := clause :: program.clauses }
  | [] => none

end HornSyntax
