/-!
The classes of characters that the grammar and the recovery tell apart.
Letters and digits are the ASCII ones; an underscore counts as an upper-case
letter. White space is wider than the blanks that the grammar skips.
-/

namespace HornSyntax.CharacterClass

def isLower (c : Char) : Bool := c.isLower

def isUpper (c : Char) : Bool := c.isUpper || c == '_'

def isDigit (c : Char) : Bool := c.isDigit

def isAlnum (c : Char) : Bool := isLower c || isUpper c || isDigit c

/-- The signs that a quoted text may hold besides letters and digits. -/
def isSpecial (c : Char) : Bool :=
  ['+', '-', '*', '/', '\\', '^', '~', ':', '.', '?', ' ', '#', '$', '&'].contains c

/-- Space, tab, carriage return, line feed and form feed: the characters that
may stand between two tokens. -/
def isBlank (c : Char) : Bool := [' ', '\t', '\r', '\n', '\x0C'].contains c

/-- The Unicode property White_Space. -/
def isWhite (c : Char) : Bool :=
  let code := c.toNat
  (0x09 ≤ code && code ≤ 0x0D) || (0x2000 ≤ code && code ≤ 0x200A) ||
    [0x20, 0x85, 0xA0, 0x1680, 0x2028, 0x2029, 0x202F, 0x205F, 0x3000].contains code

theorem isWhite_of_isBlank {c : Char} (h : isBlank c = true) : isWhite c = true := by
  simp only [isBlank, List.contains_iff_mem, List.mem_cons, List.not_mem_nil, or_false] at h
  rcases h with rfl | rfl | rfl | rfl | rfl <;> decide

end HornSyntax.CharacterClass
