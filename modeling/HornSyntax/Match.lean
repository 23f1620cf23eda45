import HornSyntax.Grammar

/-!
What reading a rule at a place of a text gives: on success the nodes made, the
text they cover and the rest, and in either case the rules that were refused
at the furthest place reached. A failure further on hides one before it.
-/

namespace HornSyntax

/-- A node of the concrete syntax tree: a rule, the byte where its text
starts, this text, and the nodes inside it. -/
structure Node where
  rule : Rule
  start : Nat
  text : Text
  children : List Node

/-- The byte after the text of a node. -/
def Node.stop (node : Node) : Nat := node.start + node.text.bytes

structure Match where
  nodes : List Node
  text : Text
  rest : Text

/-- Two matches in a row, the second of which starts where the first ends. -/
def Match.append (first second : Match) : Match :=
  ⟨first.nodes ++ second.nodes, first.text ++ second.text, second.rest⟩

/-- The rules that failed at one place, in the order of their failures. -/
structure Refusals where
  position : Nat
  rules : List Rule

namespace Refusals

/-- The refusals further on win, and those at one place are put together. -/
def merge : Option Refusals → Option Refusals → Option Refusals
  | none, later => later
  | earlier, none => earlier
  | some earlier, some later =>
    if earlier.position < later.position then some later
    else if later.position < earlier.position then some earlier
    else some ⟨earlier.position, earlier.rules ++ later.rules⟩

/-- A rule that fails at `position` speaks for the refusals inside it, unless
these are further on or are a single one. -/
def blame (rule : Rule) (position : Nat) : Option Refusals → Refusals
  | none => ⟨position, [rule]⟩
  | some inner =>
    if position < inner.position || inner.rules.length == 1 then inner else ⟨position, [rule]⟩

@[simp] theorem merge_none_left (later : Option Refusals) : merge none later = later := by
  cases later <;> rfl

@[simp] theorem merge_none_right (earlier : Option Refusals) : merge earlier none = earlier := by
  cases earlier <;> rfl

theorem merge_assoc (a b c : Option Refusals) : merge (merge a b) c = merge a (merge b c) := by
  rcases a with _ | a <;> rcases b with _ | b <;> rcases c with _ | c <;> grind [merge]

end Refusals

/-- The result of reading. Refusals are kept on success too, since a later
failure may come from the place where an optional part was left out. -/
structure Outcome where
  found : Option Match
  refusals : Option Refusals

end HornSyntax
