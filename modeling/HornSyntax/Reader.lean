import HornSyntax.Match

/-!
Reading patterns and rules. A reader is given the byte offset of a place and
the text from there on. Choice is ordered and repetition takes all it can get;
what has failed gives back everything it took, but its refusals remain.
Rules call one another only a bounded number of times before a character is
taken, so reading is by recursion on a depth computed from the text.
-/

namespace HornSyntax

abbrev Reader := Nat → Text → Outcome

namespace Reader

def fail : Reader := fun _ _ => ⟨none, none⟩

def empty : Reader := fun _ text => ⟨some ⟨[], [], text⟩, none⟩

def ending : Reader
  | _, [] => ⟨some ⟨[], [], []⟩, none⟩
  | _, _ :: _ => ⟨none, none⟩

def one (accepts : Char → Bool) : Reader
  | _, [] => ⟨none, none⟩
  | _, c :: rest => if accepts c then ⟨some ⟨[], [c], rest⟩, none⟩ else ⟨none, none⟩

def word (letters : Text) : Reader := fun _ text =>
  ⟨(letters.isPrefixOf? text).map fun rest => ⟨[], letters, rest⟩, none⟩

/-- All blanks that stand here, perhaps none. -/
def blanks : Reader := fun _ text =>
  ⟨some ⟨[], text.takeWhile CharacterClass.isBlank, text.dropWhile CharacterClass.isBlank⟩, none⟩

def followedBy (p q : Reader) : Reader := fun offset text =>
  let first := p offset text
  match first.found with
  | none => first
  | some m =>
    let second := q (offset + m.text.bytes) m.rest
    ⟨second.found.map m.append, Refusals.merge first.refusals second.refusals⟩

/-- The second reader is asked where the first fails. -/
def orElse (p q : Reader) : Reader := fun offset text =>
  let first := p offset text
  match first.found with
  | some _ => first
  | none =>
    let second := q offset text
    ⟨second.found, Refusals.merge first.refusals second.refusals⟩

def optional (p : Reader) : Reader := p.orElse empty

/-- As many rounds as there are, at most one more than the bound is long. -/
def rounds (p : Reader) : Text → Reader
  | [] => p.optional
  | _ :: bound => (p.followedBy (rounds p bound)).optional

/-- Every round takes a character or fails, so the text itself bounds the rounds. -/
def many (gap p : Reader) : Reader := fun offset text =>
  (p.followedBy (rounds (gap.followedBy p) text)).optional offset text

end Reader

/-- Reads a pattern with a given reader for the rules in it. -/
def Pattern.read (gap : Reader) (sub : Rule → Reader) : Pattern → Reader
  | empty => .empty
  | ending => .ending
  | one accepts => .one accepts
  | word letters => .word letters
  | rule r => sub r
  | seq p q => (p.read gap sub).followedBy (gap.followedBy (q.read gap sub))
  | choice p q => (p.read gap sub).orElse (q.read gap sub)
  | optional p => (p.read gap sub).optional
  | many p => .many gap (p.read gap sub)

namespace Rule

/-- What stands between the parts of a rule. -/
def gap (r : Rule) : Reader := if r.spaced then .blanks else .empty

/-- Makes the node of a rule from a match of its body, or puts the rule down
as refused. A silent rule passes on what its body gives. -/
def conclude (r : Rule) (body : Reader) : Reader := fun offset text =>
  let inner := body offset text
  if r.silent then inner
  else
    match inner.found with
    | some m => ⟨some ⟨[⟨r, offset, m.text, m.nodes⟩], m.text, m.rest⟩, inner.refusals⟩
    | none => ⟨none, some (Refusals.blame r offset inner.refusals)⟩

/-- Reads a rule, calling other rules at most `depth` deep. -/
def read : Nat → Rule → Reader
  | 0, _ => .fail
  | depth + 1, r => r.conclude (r.body.read r.gap (read depth))

/-- A depth that no chain of calls on the text exceeds: three calls lead from
one argument list into the next, which starts at least two characters on. -/
def depth (text : Text) : Nat := 2 * text.length + 8

/-- Reads a rule, as deep as it takes. -/
def reader (r : Rule) : Reader := fun offset text => read (depth text) r offset text

end Rule

end HornSyntax
