import HornSyntax.CharacterClass
import HornSyntax.Text

/-!
The grammar of clause programs: a list of clauses followed by one query. Each
rule has a body, a pattern over characters and other rules. Where a rule is
spaced, blanks may stand between the parts of its sequences and the rounds of
its repetitions. Silent rules leave no mark in the tree or in an error.
-/

namespace HornSyntax

/-- The rules, in the order in which an error lists them. -/
inductive Rule where
  | endOfInput
  | program
  | clause
  | query
  | predicateList
  | predicate
  | termList
  | term
  | compound
  | atom
  | smallAtom
  | quotedAtom
  | string
  | var
  | numeral
  | neck
  | queryStart
  | dot
  | comma
  | lparen
  | rparen
  | lower
  | upper
  | digit
  | alnum
  | special
  | blank
  deriving DecidableEq

/-- What the body of a rule is made of. -/
inductive Pattern where
  | empty
  | ending
  | one (accepts : Char → Bool)
  | word (letters : Text)
  | rule (r : Rule)
  | seq (first second : Pattern)
  | choice (first second : Pattern)
  | optional (body : Pattern)
  | many (body : Pattern)

namespace Pattern

instance : Append Pattern := ⟨seq⟩

instance : OrOp Pattern := ⟨choice⟩

@[simp] theorem append_eq (p q : Pattern) : p ++ q = seq p q := rfl

@[simp] theorem or_eq (p q : Pattern) : p ||| q = choice p q := rfl

/-- At least one round. -/
def atLeastOne (body : Pattern) : Pattern := body ++ many body

/-- One or more items with a comma between each two. -/
def commaSeparated (item : Rule) : Pattern := rule item ++ many (rule .comma ++ rule item)

end Pattern

namespace Rule

open Pattern CharacterClass

def all : List Rule :=
  [endOfInput, program, clause, query, predicateList, predicate, termList, term, compound,
    atom, smallAtom, quotedAtom, string, var, numeral, neck, queryStart, dot, comma, lparen,
    rparen, lower, upper, digit, alnum, special, blank]

theorem mem_all (r : Rule) : r ∈ all := by
  cases r <;> decide

/-- The body of a rule. A predicate may carry several argument groups back to
back, as in `p(X)(Y)`, and a compound term is tried before a bare atom. -/
def body : Rule → Pattern
  | endOfInput => ending
  | program => empty ++ many (rule clause) ++ rule query ++ rule endOfInput
  | clause => rule predicate ++ optional (rule neck ++ rule predicateList) ++ rule dot
  | query => rule queryStart ++ rule predicateList ++ rule dot
  | predicateList => commaSeparated predicate
  | predicate => rule atom ++ many (rule lparen ++ rule termList ++ rule rparen)
  | termList => commaSeparated term
  | term => rule compound ||| rule atom ||| rule var ||| rule numeral
  | compound => rule atom ++ rule lparen ++ rule termList ++ rule rparen
  | atom => rule smallAtom ||| rule quotedAtom
  | smallAtom => one isLower ++ many (one isAlnum)
  | quotedAtom => word ['\''] ++ rule string ++ word ['\'']
  | string => atLeastOne (one isAlnum ||| one isSpecial)
  | var => one isUpper ++ many (one isAlnum)
  | numeral => atLeastOne (one isDigit)
  | neck => word [':', '-']
  | queryStart => word ['?', '-']
  | dot => word ['.']
  | comma => word [',']
  | lparen => word ['(']
  | rparen => word [')']
  | lower => one isLower
  | upper => one isUpper
  | digit => one isDigit
  | alnum => one isAlnum
  | special => one isSpecial
  | blank => one isBlank

/-- Silent rules make no node of their own, and no error names them. -/
def silent : Rule → Bool
  | program | lower | upper | digit | alnum | special | blank => true
  | _ => false

/-- In all rules but those of a single token, blanks may stand between the parts. -/
def spaced : Rule → Bool
  | smallAtom | quotedAtom | string | var | numeral => false
  | _ => true

/-- The name under which a rule appears in a syntax tree. -/
def name : Rule → String
  | endOfInput => "EOI"
  | program => "program"
  | clause => "clause"
  | query => "query"
  | predicateList => "predicate_list"
  | predicate => "predicate"
  | termList => "term_list"
  | term => "term"
  | compound => "structure"
  | atom => "atom"
  | smallAtom => "small_atom"
  | quotedAtom => "quoted_atom"
  | string => "string"
  | var => "variable"
  | numeral => "numeral"
  | neck => "neck"
  | queryStart => "query_start"
  | dot => "dot"
  | comma => "comma"
  | lparen => "lparen"
  | rparen => "rparen"
  | lower => "lower"
  | upper => "upper"
  | digit => "digit"
  | alnum => "alnum"
  | special => "special"
  | blank => "WHITESPACE"

/-- The rule of a given name. -/
def ofName? (name : String) : Option Rule := all.find? (·.name == name)

/-- How a rule reads in the message of an error. Lists read as what they list,
and marks as themselves between double quotes. -/
def wording : Rule → String
  | endOfInput => "end of input"
  | predicateList => "predicate"
  | termList => "term"
  | smallAtom | quotedAtom => "atom"
  | string => "quoted text"
  | neck => "\":-\""
  | queryStart => "\"?-\""
  | dot => "\".\""
  | comma => "\",\""
  | lparen => "\"(\""
  | rparen => "\")\""
  | r => r.name

end Rule

end HornSyntax
