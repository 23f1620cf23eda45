import HornSyntax.Reader.Depth

/-!
The shape of the nodes of a match. The body of a rule says of which rules the
nodes are that stand right inside a node of the rule, in which order and how
often. Whatever text is read, every node has the shape of its rule, and so have
all nodes inside it, however deep.
-/

namespace HornSyntax

open Reader

/-- The rules of any number of rounds, one round after another. -/
def InRounds (holds : List Rule → Prop) (rules : List Rule) : Prop :=
  ∃ rounds : List (List Rule), rules = rounds.flatten ∧ ∀ round ∈ rounds, holds round

theorem InRounds.nil (holds : List Rule → Prop) : InRounds holds [] := ⟨[], rfl, by simp⟩

theorem InRounds.append {holds : List Rule → Prop} {first more : List Rule} (hfirst : holds first)
    (hmore : InRounds holds more) : InRounds holds (first ++ more) := by
  obtain ⟨rounds, rfl, hrounds⟩ := hmore
  exact ⟨first :: rounds, rfl, List.forall_mem_cons.mpr ⟨hfirst, hrounds⟩⟩

/-- Rounds of which each is the same list are this list a number of times. -/
theorem InRounds.exists_replicate {holds : List Rule → Prop} {rules : List Rule}
    (h : InRounds holds rules) (round : List Rule) (hround : ∀ rules, holds rules → rules = round) :
    ∃ n, rules = (List.replicate n round).flatten := by
  obtain ⟨rounds, rfl, hrounds⟩ := h
  refine ⟨rounds.length, congrArg List.flatten ?_⟩
  exact List.eq_replicate_iff.mpr ⟨rfl, fun rules hrules => hround rules (hrounds rules hrules)⟩

theorem InRounds.eq_nil {holds : List Rule → Prop} {rules : List Rule} (h : InRounds holds rules)
    (hround : ∀ rules, holds rules → rules = []) : rules = [] := by
  obtain ⟨n, rfl⟩ := h.exists_replicate [] hround
  simp

/-- The rules of the nodes that a pattern makes. The rules that a pattern calls
make a node of their own. -/
def Pattern.Yields : Pattern → List Rule → Prop
  | rule r, rules => rules = [r]
  | seq p q, rules => ∃ first second, rules = first ++ second ∧ p.Yields first ∧ q.Yields second
  | choice p q, rules => p.Yields rules ∨ q.Yields rules
  | optional p, rules => p.Yields rules ∨ rules = []
  | many p, rules => InRounds p.Yields rules
  | _, rules => rules = []

theorem Pattern.exists_of_commaSeparated {item : Rule} {rules : List Rule}
    (h : (commaSeparated item).Yields rules) :
    ∃ n, rules = item :: (List.replicate n [.comma, item]).flatten := by
  obtain ⟨_, _, rfl, rfl, hmore⟩ := h
  obtain ⟨n, rfl⟩ := hmore.exists_replicate [.comma, item] (by simp [Yields])
  exact ⟨n, rfl⟩

namespace Rule

/-- The rules of the nodes right inside a node of a rule. A rule of a single
token holds none, but for a quotation, which holds its text. -/
def Holds : Rule → List Rule → Prop
  | program, rules => ∃ n, rules = List.replicate n clause ++ [query, endOfInput]
  | clause, rules => rules = [predicate, dot] ∨ rules = [predicate, neck, predicateList, dot]
  | query, rules => rules = [queryStart, predicateList, dot]
  | predicateList, rules =>
    ∃ n, rules = predicate :: (List.replicate n [comma, predicate]).flatten
  | predicate, rules => ∃ n, rules = atom :: (List.replicate n [lparen, termList, rparen]).flatten
  | termList, rules => ∃ n, rules = term :: (List.replicate n [comma, term]).flatten
  | term, rules => ∃ r ∈ [compound, atom, var, numeral], rules = [r]
  | compound, rules => rules = [atom, lparen, termList, rparen]
  | atom, rules => ∃ r ∈ [smallAtom, quotedAtom], rules = [r]
  | quotedAtom, rules => rules = [string]
  | _, rules => rules = []

/-- The body of a rule makes nodes of these rules only. -/
theorem holds_of_yields {r : Rule} {rules : List Rule} (h : r.body.Yields rules) :
    r.Holds rules := by
  cases r with
  | predicateList | termList => exact Pattern.exists_of_commaSeparated h
  | predicate =>
    obtain ⟨_, _, rfl, rfl, hmore⟩ := h
    obtain ⟨n, rfl⟩ := hmore.exists_replicate [lparen, termList, rparen] (by simp [Pattern.Yields])
    exact ⟨n, rfl⟩
  | program =>
    obtain ⟨_, _, rfl, ⟨_, _, rfl, ⟨_, _, rfl, rfl, hmany⟩, rfl⟩, rfl⟩ := h
    obtain ⟨n, rfl⟩ := hmany.exists_replicate [clause] (by simp [Pattern.Yields])
    exact ⟨n, by simp⟩
  | clause =>
    obtain ⟨_, _, rfl, ⟨_, _, rfl, rfl, ⟨_, _, rfl, rfl, rfl⟩ | rfl⟩, rfl⟩ := h
    · exact Or.inr rfl
    · exact Or.inl rfl
  | term =>
    obtain ((rfl | rfl) | rfl) | rfl := h
    all_goals exact ⟨_, by decide, rfl⟩
  | smallAtom | var | string | numeral =>
    obtain ⟨_, _, rfl, hfirst, hmore⟩ := h
    rw [hmore.eq_nil (by simp [Pattern.Yields])]
    simpa [Pattern.Yields, Holds] using hfirst
  | _ => simpa [body, Pattern.Yields, Holds] using h

theorem silent_eq_false_of_mem_calls (r : Rule) :
    ∀ call ∈ r.body.calls 0, call.2.silent = false := by
  cases r <;> decide

end Rule

/-- A node has the shape of its rule, and so have the nodes inside it. -/
inductive Node.Shaped : Node → Prop
  | mk {r : Rule} {start : Nat} {text : Text} {children : List Node}
      (hrules : r.Holds (children.map Node.rule)) (hchildren : ∀ child ∈ children, child.Shaped) :
      Shaped ⟨r, start, text, children⟩

theorem Node.Shaped.holds {node : Node} (h : node.Shaped) :
    node.rule.Holds (node.children.map Node.rule) := by
  cases h with
  | mk hrules _ => exact hrules

theorem Node.Shaped.of_mem {node child : Node} (h : node.Shaped) (hchild : child ∈ node.children) :
    child.Shaped := by
  cases h with
  | mk _ hchildren => exact hchildren child hchild

/-- All matches have nodes in shape, and the rules of these nodes are as stated. -/
def Reader.Forms (p : Reader) (holds : List Rule → Prop) : Prop :=
  ∀ offset text m, (p offset text).found = some m →
    holds (m.nodes.map Node.rule) ∧ ∀ node ∈ m.nodes, node.Shaped

namespace Reader

variable {gap p q : Reader} {holds holds' : List Rule → Prop}

namespace Forms

theorem mono (h : p.Forms holds) (hmono : ∀ rules, holds rules → holds' rules) :
    p.Forms holds' := by
  intro offset text m hm
  obtain ⟨hrules, hshaped⟩ := h offset text m hm
  exact ⟨hmono _ hrules, hshaped⟩

/-- A reader that makes no nodes. -/
theorem of_nodes_eq_nil (h : ∀ offset text m, (p offset text).found = some m → m.nodes = []) :
    p.Forms (· = []) := by
  intro offset text m hm
  rw [h offset text m hm]
  simp

theorem empty : Reader.empty.Forms (· = []) := by
  apply of_nodes_eq_nil
  intro offset text m hm
  obtain rfl := Option.some.inj hm
  rfl

theorem ending : Reader.ending.Forms (· = []) := by
  apply of_nodes_eq_nil
  intro offset text m hm
  cases text with
  | nil =>
    obtain rfl := Option.some.inj hm
    rfl
  | cons c rest => cases hm

theorem one (accepts : Char → Bool) : (Reader.one accepts).Forms (· = []) := by
  apply of_nodes_eq_nil
  intro offset text m hm
  cases text with
  | nil => cases hm
  | cons c rest =>
    by_cases hc : accepts c = true
    · obtain rfl : _ = m := by simpa [Reader.one, hc] using hm
      rfl
    · simp [Reader.one, hc] at hm

theorem word (letters : Text) : (Reader.word letters).Forms (· = []) := by
  apply of_nodes_eq_nil
  intro offset text m hm
  obtain ⟨rest, -, rfl⟩ := Option.map_eq_some_iff.mp hm
  rfl

theorem blanks : Reader.blanks.Forms (· = []) := by
  apply of_nodes_eq_nil
  intro offset text m hm
  obtain rfl := Option.some.inj hm
  rfl

theorem followedBy (hp : p.Forms holds) (hq : q.Forms holds') :
    (p.followedBy q).Forms fun rules =>
      ∃ first second, rules = first ++ second ∧ holds first ∧ holds' second := by
  intro offset text m hm
  obtain ⟨first, second, hfirst, hsecond, rfl⟩ := followedBy_found hm
  obtain ⟨hrules, hshaped⟩ := hp _ _ first hfirst
  obtain ⟨hrules', hshaped'⟩ := hq _ _ second hsecond
  refine ⟨⟨_, _, List.map_append, hrules, hrules'⟩, ?_⟩
  intro node hnode
  exact (List.mem_append.mp hnode).elim (hshaped node) (hshaped' node)

/-- What stands between two parts makes no nodes. -/
theorem gap_followedBy (hgap : gap.Forms (· = [])) (hp : p.Forms holds) :
    (gap.followedBy p).Forms holds := by
  refine (hgap.followedBy hp).mono ?_
  rintro _ ⟨_, rules, rfl, rfl, hrules⟩
  exact hrules

theorem orElse (hp : p.Forms holds) (hq : q.Forms holds') :
    (p.orElse q).Forms fun rules => holds rules ∨ holds' rules := by
  intro offset text m hm
  rcases orElse_found hm with hm | ⟨-, hm⟩
  · exact (hp _ _ m hm).imp_left Or.inl
  · exact (hq _ _ m hm).imp_left Or.inr

theorem optional (hp : p.Forms holds) : p.optional.Forms fun rules => holds rules ∨ rules = [] :=
  hp.orElse .empty

/-- A round and more rounds, or none. -/
theorem then_rounds (hp : p.Forms holds) (hq : q.Forms (InRounds holds)) :
    (p.followedBy q).optional.Forms (InRounds holds) := by
  refine (hp.followedBy hq).optional.mono ?_
  rintro _ (⟨first, more, rfl, hfirst, hmore⟩ | rfl)
  · exact .append hfirst hmore
  · exact .nil holds

theorem rounds (hp : p.Forms holds) (bound : Text) :
    (p.rounds bound).Forms (InRounds holds) := by
  induction bound with
  | nil =>
    refine hp.optional.mono ?_
    rintro rules (hrules | rfl)
    · simpa using InRounds.append hrules (.nil holds)
    · exact .nil holds
  | cons c bound ih => exact hp.then_rounds ih

theorem many (hgap : gap.Forms (· = [])) (hp : p.Forms holds) :
    (many gap p).Forms (InRounds holds) := by
  intro offset text m hm
  have hrounds := (hgap.gap_followedBy hp).rounds text
  exact hp.then_rounds hrounds offset text m hm

end Forms

end Reader

/-- A pattern forms what it yields when the rules that it calls form their nodes. -/
theorem Pattern.forms_read {gap : Reader} {sub : Rule → Reader} (hgap : gap.Forms (· = []))
    (p : Pattern) (taken : Nat)
    (hcalls : ∀ call ∈ p.calls taken, (sub call.2).Forms (· = [call.2])) :
    (p.read gap sub).Forms p.Yields := by
  induction p generalizing taken with
  | empty => exact .empty
  | ending => exact .ending
  | one accepts => exact .one accepts
  | word letters => exact .word letters
  | rule r => exact hcalls (taken, r) (List.mem_singleton.mpr rfl)
  | seq p q hp hq =>
    have hfirst := hp taken fun call hcall => hcalls call (List.mem_append_left _ hcall)
    have hsecond := hq (taken + p.least) fun call hcall =>
      hcalls call (List.mem_append_right _ hcall)
    exact hfirst.followedBy (hgap.gap_followedBy hsecond)
  | choice p q hp hq =>
    exact (hp taken fun call hcall => hcalls call (List.mem_append_left _ hcall)).orElse
      (hq taken fun call hcall => hcalls call (List.mem_append_right _ hcall))
  | optional p hp => exact (hp taken hcalls).optional
  | many p hp => exact hgap.many (hp taken hcalls)

namespace Rule

theorem forms_gap (r : Rule) : r.gap.Forms (· = []) := by
  unfold gap
  split
  · exact .blanks
  · exact .empty

/-- A rule puts what its body makes under a node of its own. -/
theorem forms_conclude {r : Rule} {body : Reader} (h : body.Forms r.Holds)
    (hr : r.silent = false) : (r.conclude body).Forms (· = [r]) := by
  intro offset text m hm
  obtain ⟨inner, hinner, -, -, hnodes⟩ := conclude_found hm
  obtain ⟨hrules, hshaped⟩ := h _ _ inner hinner
  rw [hnodes, hr]
  exact ⟨rfl, List.forall_mem_singleton.mpr (.mk hrules hshaped)⟩

theorem forms_body {sub : Rule → Reader}
    (hsub : ∀ r, r.silent = false → (sub r).Forms (· = [r])) (r : Rule) :
    (r.body.read r.gap sub).Forms r.Holds := by
  refine (Pattern.forms_read r.forms_gap r.body 0 ?_).mono fun _ => holds_of_yields
  intro call hcall
  exact hsub call.2 (r.silent_eq_false_of_mem_calls call hcall)

theorem forms_read (depth : Nat) {r : Rule} (hr : r.silent = false) :
    (read depth r).Forms (· = [r]) := by
  induction depth generalizing r with
  | zero =>
    intro offset text m hm
    cases hm
  | succ depth ih => exact forms_conclude (forms_body (fun _ => ih) r) hr

theorem forms_reader {r : Rule} (hr : r.silent = false) : r.reader.Forms (· = [r]) := by
  intro offset text
  exact forms_read (depth text) hr offset text

/-- The nodes of a match of a whole program. -/
theorem forms_program : program.reader.Forms program.Holds := by
  have hprogram := forms_body (fun _ => forms_reader) program
  rw [reader_eq program]
  intro offset text m hm
  obtain ⟨inner, hinner, -, -, hnodes⟩ := conclude_found hm
  rw [hnodes]
  exact hprogram _ _ inner hinner

end Rule

end HornSyntax
