import HornSyntax.Grammar
import HornSyntax.Program.Basic

/-!
The tokens of a program and the texts that spell them. A text spells a list of
tokens when it is these tokens in order with blanks before, between and after
them, and none inside. Well-formed trees hold only texts that are tokens, and
no empty list of arguments or goals.
-/

namespace HornSyntax

open CharacterClass

/-- The characters that may stand between two quotes. -/
def CharacterClass.isQuotable (c : Char) : Bool := isAlnum c || isSpecial c

/-- A text of one character of the first class and any number of the second. -/
def Text.isRun (first more : Char → Bool) : Text → Bool
  | [] => false
  | c :: rest => first c && rest.all more

/-- A token. An atom that names a predicate is told apart from one among the
arguments, so that each token says which phrase begins with it. -/
inductive Token where
  | name (atom : Atom)
  | symbol (atom : Atom)
  | var (name : Text)
  | numeral (digits : Text)
  | neck
  | queryStart
  | dot
  | comma
  | lparen
  | rparen
  deriving DecidableEq

def Atom.text : Atom → Text
  | name text => text
  | quoted text => '\'' :: text ++ ['\'']

def Atom.wellFormed : Atom → Bool
  | name text => text.isRun isLower isAlnum
  | quoted text => text.isRun isQuotable isQuotable

namespace Token

def text : Token → Text
  | name a => a.text
  | symbol a => a.text
  | var letters => letters
  | numeral digits => digits
  | neck => [':', '-']
  | queryStart => ['?', '-']
  | dot => ['.']
  | comma => [',']
  | lparen => ['(']
  | rparen => [')']

def wellFormed : Token → Bool
  | name a => a.wellFormed
  | symbol a => a.wellFormed
  | var letters => letters.isRun isUpper isAlnum
  | numeral digits => digits.isRun isDigit isDigit
  | _ => true

/-- The rule under which an error lists the token. The name of a predicate is
listed as an atom, and whatever begins an argument as a term. -/
def rule : Token → Rule
  | name _ => .atom
  | symbol _ => .term
  | var _ => .term
  | numeral _ => .term
  | neck => .neck
  | queryStart => .queryStart
  | dot => .dot
  | comma => .comma
  | lparen => .lparen
  | rparen => .rparen

/-- Lists of tokens one after another with a comma between each two. -/
def separated : List (List Token) → List Token
  | [] => []
  | first :: more => first ++ more.flatMap (comma :: ·)

end Token

mutual

def Term.tokens : Term → List Token
  | .atom a => [.symbol a]
  | .var letters => [.var letters]
  | .numeral digits => [.numeral digits]
  | .compound functor arguments =>
    .symbol functor :: .lparen :: (Token.separated (Term.tokensOfEach arguments) ++ [.rparen])

def Term.tokensOfEach : List Term → List (List Token)
  | [] => []
  | t :: rest => t.tokens :: Term.tokensOfEach rest

end

mutual

def Term.wellFormed : Term → Bool
  | .atom a => a.wellFormed
  | .var letters => letters.isRun isUpper isAlnum
  | .numeral digits => digits.isRun isDigit isDigit
  | .compound functor arguments =>
    functor.wellFormed && !arguments.isEmpty && Term.eachWellFormed arguments

def Term.eachWellFormed : List Term → Bool
  | [] => true
  | t :: rest => t.wellFormed && Term.eachWellFormed rest

end

theorem Term.tokensOfEach_eq_map (terms : List Term) :
    Term.tokensOfEach terms = terms.map Term.tokens := by
  induction terms with
  | nil => rfl
  | cons t rest ih => rw [Term.tokensOfEach, ih, List.map_cons]

theorem Term.eachWellFormed_iff {terms : List Term} :
    Term.eachWellFormed terms = true ↔ ∀ t ∈ terms, t.wellFormed = true := by
  induction terms with
  | nil => simp [Term.eachWellFormed]
  | cons t rest ih => simp [Term.eachWellFormed, ih]

theorem Term.wellFormed_compound {functor : Atom} {arguments : List Term} :
    (Term.compound functor arguments).wellFormed = true ↔
      functor.wellFormed = true ∧ arguments ≠ [] ∧ ∀ t ∈ arguments, t.wellFormed = true := by
  rw [Term.wellFormed, Bool.and_eq_true, Bool.and_eq_true, Term.eachWellFormed_iff,
    Bool.not_eq_true', List.isEmpty_eq_false_iff, and_assoc]

/-- Induction over terms with the hypothesis for every argument. -/
theorem Term.induction {motive : Term → Prop} (atom : ∀ a, motive (.atom a))
    (var : ∀ letters, motive (.var letters)) (numeral : ∀ digits, motive (.numeral digits))
    (compound : ∀ functor arguments, (∀ t ∈ arguments, motive t) →
      motive (.compound functor arguments)) (t : Term) : motive t := by
  match t with
  | .atom a => exact atom a
  | .var letters => exact var letters
  | .numeral digits => exact numeral digits
  | .compound functor arguments =>
    exact compound functor arguments fun t ht => Term.induction atom var numeral compound t
termination_by sizeOf t
decreasing_by
  have hlt := List.sizeOf_lt_of_mem ht
  simp only [Term.compound.sizeOf_spec]
  omega

/-- An argument group in its brackets. -/
def Token.group (arguments : List Term) : List Token :=
  .lparen :: (separated (arguments.map Term.tokens) ++ [.rparen])

theorem Term.tokens_compound (functor : Atom) (arguments : List Term) :
    (Term.compound functor arguments).tokens = .symbol functor :: Token.group arguments := by
  rw [Term.tokens, Term.tokensOfEach_eq_map, Token.group]

namespace Predicate

def tokens (p : Predicate) : List Token := .name p.name :: p.arguments.flatMap Token.group

def wellFormed (p : Predicate) : Bool :=
  p.name.wellFormed && p.arguments.all fun group => !group.isEmpty && group.all Term.wellFormed

end Predicate

namespace Clause

/-- The neck is there exactly when the body is not empty. -/
def tokens (c : Clause) : List Token :=
  c.head.tokens ++
    (if c.body.isEmpty then [] else .neck :: Token.separated (c.body.map Predicate.tokens)) ++
    [.dot]

def wellFormed (c : Clause) : Bool := c.head.wellFormed && c.body.all Predicate.wellFormed

end Clause

namespace Program

def queryTokens (goals : List Predicate) : List Token :=
  .queryStart :: (Token.separated (goals.map Predicate.tokens) ++ [.dot])

def tokens (p : Program) : List Token := p.clauses.flatMap Clause.tokens ++ queryTokens p.goals

def wellFormed (p : Program) : Bool :=
  p.clauses.all Clause.wellFormed && !p.goals.isEmpty && p.goals.all Predicate.wellFormed

end Program

namespace Token

theorem mem_separated {items : List (List Token)} {t : Token} (h : t ∈ separated items) :
    t = comma ∨ ∃ ts ∈ items, t ∈ ts := by
  cases items with
  | nil => cases h
  | cons first more =>
    simp only [separated, List.mem_append, List.mem_flatMap, List.mem_cons] at h
    rcases h with hfirst | ⟨ts, hts, rfl | hmem⟩
    · exact Or.inr ⟨first, List.mem_cons_self, hfirst⟩
    · exact Or.inl rfl
    · exact Or.inr ⟨ts, List.mem_cons_of_mem _ hts, hmem⟩

theorem wellFormed_of_mem_separated {items : List (List Token)}
    (h : ∀ ts ∈ items, ∀ t ∈ ts, t.wellFormed = true) :
    ∀ t ∈ separated items, t.wellFormed = true := by
  intro t ht
  rcases mem_separated ht with rfl | ⟨ts, hts, hmem⟩
  · rfl
  · exact h ts hts t hmem

theorem wellFormed_of_mem_group {arguments : List Term}
    (h : ∀ u ∈ arguments, ∀ t ∈ u.tokens, t.wellFormed = true) :
    ∀ t ∈ group arguments, t.wellFormed = true := by
  intro t ht
  simp only [group, List.mem_cons, List.mem_append, List.not_mem_nil, or_false] at ht
  rcases ht with rfl | ht | rfl
  · rfl
  · refine wellFormed_of_mem_separated ?_ t ht
    intro ts hts
    obtain ⟨u, hu, rfl⟩ := List.mem_map.mp hts
    exact h u hu
  · rfl

end Token

theorem Term.wellFormed_of_mem_tokens {u : Term} (h : u.wellFormed = true) :
    ∀ t ∈ u.tokens, t.wellFormed = true := by
  induction u using Term.induction with
  | atom a => simpa [Term.tokens, Term.wellFormed, Token.wellFormed] using h
  | var letters => simpa [Term.tokens, Term.wellFormed, Token.wellFormed] using h
  | numeral digits => simpa [Term.tokens, Term.wellFormed, Token.wellFormed] using h
  | compound functor arguments ih =>
    obtain ⟨hfunctor, -, hargs⟩ := Term.wellFormed_compound.mp h
    rw [Term.tokens_compound]
    refine List.forall_mem_cons.mpr ⟨hfunctor, ?_⟩
    exact Token.wellFormed_of_mem_group fun u hu => ih u hu (hargs u hu)

theorem Predicate.wellFormed_of_mem_tokens {p : Predicate} (h : p.wellFormed = true) :
    ∀ t ∈ p.tokens, t.wellFormed = true := by
  simp only [Predicate.wellFormed, Bool.and_eq_true, List.all_eq_true] at h
  refine List.forall_mem_cons.mpr ⟨h.1, ?_⟩
  intro t ht
  obtain ⟨group, hgroup, hmem⟩ := List.mem_flatMap.mp ht
  exact Token.wellFormed_of_mem_group
    (fun u hu => u.wellFormed_of_mem_tokens ((h.2 group hgroup).2 u hu)) t hmem

theorem Predicate.wellFormed_of_mem_separated {ps : List Predicate}
    (h : ∀ p ∈ ps, p.wellFormed = true) :
    ∀ t ∈ Token.separated (ps.map Predicate.tokens), t.wellFormed = true := by
  refine Token.wellFormed_of_mem_separated ?_
  intro ts hts
  obtain ⟨p, hp, rfl⟩ := List.mem_map.mp hts
  exact p.wellFormed_of_mem_tokens (h p hp)

theorem Clause.wellFormed_of_mem_tokens {c : Clause} (h : c.wellFormed = true) :
    ∀ t ∈ c.tokens, t.wellFormed = true := by
  simp only [Clause.wellFormed, Bool.and_eq_true, List.all_eq_true] at h
  intro t ht
  simp only [Clause.tokens, List.mem_append, List.mem_singleton] at ht
  rcases ht with (hhead | hbody) | rfl
  · exact c.head.wellFormed_of_mem_tokens h.1 t hhead
  · split at hbody
    · cases hbody
    · rcases List.mem_cons.mp hbody with rfl | hmem
      · rfl
      · exact Predicate.wellFormed_of_mem_separated h.2 t hmem
  · rfl

theorem Program.wellFormed_of_mem_queryTokens {goals : List Predicate}
    (h : ∀ p ∈ goals, p.wellFormed = true) :
    ∀ t ∈ Program.queryTokens goals, t.wellFormed = true := by
  intro t ht
  simp only [Program.queryTokens, List.mem_cons, List.mem_append, List.not_mem_nil, or_false] at ht
  rcases ht with rfl | hmem | rfl
  · rfl
  · exact Predicate.wellFormed_of_mem_separated h t hmem
  · rfl

theorem Program.wellFormed_of_mem_tokens {p : Program} (h : p.wellFormed = true) :
    ∀ t ∈ p.tokens, t.wellFormed = true := by
  simp only [Program.wellFormed, Bool.and_eq_true, List.all_eq_true] at h
  intro t ht
  rcases List.mem_append.mp ht with hclauses | hquery
  · obtain ⟨c, hc, hmem⟩ := List.mem_flatMap.mp hclauses
    exact c.wellFormed_of_mem_tokens (h.1.1 c hc) t hmem
  · exact Program.wellFormed_of_mem_queryTokens h.2 t hquery

namespace Text

/-- The blanks at the beginning of a text left out. -/
def dropBlanks (text : Text) : Text := text.dropWhile isBlank

theorem dropBlanks_append {gap text : Text} (hgap : gap.all isBlank = true) :
    dropBlanks (gap ++ text) = text.dropBlanks := by
  rw [dropBlanks, List.dropWhile_append_of_pos (List.all_eq_true.mp hgap), dropBlanks]

theorem dropBlanks_eq_nil {gap : Text} (hgap : gap.all isBlank = true) : gap.dropBlanks = [] := by
  have h : dropBlanks (gap ++ []) = [] := dropBlanks_append hgap
  rwa [List.append_nil] at h

theorem dropBlanks_eq_self {text : Text} (h : ∀ c ∈ text.head?, isBlank c = false) :
    text.dropBlanks = text := by
  cases text with
  | nil => rfl
  | cons c rest => simp [dropBlanks, h c rfl]

theorem isBlank_of_mem_head?_dropBlanks {text : Text} :
    ∀ c ∈ text.dropBlanks.head?, isBlank c = false := by
  intro c hc
  have h := List.head?_dropWhile_not isBlank text
  rw [show List.dropWhile isBlank text = text.dropBlanks from rfl, Option.mem_def.mp hc] at h
  simpa using h

@[simp] theorem dropBlanks_dropBlanks (text : Text) : text.dropBlanks.dropBlanks = text.dropBlanks :=
  dropBlanks_eq_self isBlank_of_mem_head?_dropBlanks

theorem exists_blanks_append_dropBlanks (text : Text) :
    ∃ gap : Text, gap.all isBlank = true ∧ text = gap ++ text.dropBlanks :=
  ⟨text.takeWhile isBlank, List.all_takeWhile, List.takeWhile_append_dropWhile.symm⟩

end Text

/-- A text of the tokens in order, with blanks before, between and after them. -/
inductive Spelled : List Token → Text → Prop
  | nil {gap : Text} (hgap : gap.all isBlank = true) : Spelled [] gap
  | cons {gap rest : Text} {t : Token} {ts : List Token} (hgap : gap.all isBlank = true)
      (hrest : Spelled ts rest) : Spelled (t :: ts) (gap ++ (t.text ++ rest))

namespace Spelled

theorem blanks_append {ts : List Token} {gap text : Text} (hgap : gap.all isBlank = true)
    (h : Spelled ts text) : Spelled ts (gap ++ text) := by
  cases h with
  | nil hmore => exact nil (by rw [List.all_append, hgap, hmore]; rfl)
  | @cons more rest t ts hmore hrest =>
    rw [← List.append_assoc]
    exact cons (by rw [List.all_append, hgap, hmore]; rfl) hrest

theorem append {ts us : List Token} {left right : Text} (hleft : Spelled ts left)
    (hright : Spelled us right) : Spelled (ts ++ us) (left ++ right) := by
  induction hleft with
  | nil hgap => exact hright.blanks_append hgap
  | @cons gap rest t ts hgap _ ih =>
    simp only [List.append_assoc, List.cons_append]
    exact cons hgap ih

theorem text_append {ts : List Token} {rest : Text} (t : Token) (h : Spelled ts rest) :
    Spelled (t :: ts) (t.text ++ rest) := by
  have hcons : Spelled (t :: ts) ([] ++ (t.text ++ rest)) := cons rfl h
  rwa [List.nil_append] at hcons

theorem token (t : Token) : Spelled [t] t.text := by
  have hnil : Spelled [] ([] : Text) := nil rfl
  have h := hnil.text_append t
  rwa [List.append_nil] at h

theorem exists_text (ts : List Token) : ∃ text, Spelled ts text := by
  induction ts with
  | nil => exact ⟨[], .nil rfl⟩
  | cons t ts ih =>
    obtain ⟨text, h⟩ := ih
    exact ⟨t.text ++ text, h.text_append t⟩

end Spelled

end HornSyntax
