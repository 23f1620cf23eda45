import HornSyntax.Proofs.Shape
import HornSyntax.Proofs.Tree
import Mathlib.Data.List.Forall2

/-!
The tree beside the nodes it is built from. Where nodes have the shape of their
rules, a tree is always built, and it mirrors them: marks are passed over, and
every other node becomes one part of the tree, in the same order. A text that is
recognized has such nodes, so parsing it never comes upon nodes that it cannot
build from, and a text that is not recognized is refused with the same error.
-/

namespace HornSyntax

/-- The rules of the tokens that are written in one way only. -/
def Rule.isMark : Rule → Bool
  | neck | queryStart | dot | comma | lparen | rparen => true
  | _ => false

/-- The nodes right inside a node, without the marks among them. -/
def Node.parts (node : Node) : List Node := node.children.filter (!·.rule.isMark)

/-- The text of an atom is that of the node inside, or of the node between its quotes. -/
inductive Atom.Mirrors : Atom → Node → Prop
  | name {node : Node} {start : Nat} {text : Text} {more : List Node}
      (hparts : node.parts = [⟨.smallAtom, start, text, more⟩]) : Mirrors (.name text) node
  | quoted {node inner : Node} {start : Nat} {text : Text} {more : List Node}
      (hparts : node.parts = [inner]) (hrule : inner.rule = .quotedAtom)
      (hinner : inner.parts = [⟨.string, start, text, more⟩]) : Mirrors (.quoted text) node

/-- A term is the alternative that its node holds, and the arguments of a compound
term are those of the list behind its functor. -/
inductive Term.Mirrors : Term → Node → Prop
  | atom {node inner : Node} {a : Atom} (hparts : node.parts = [inner])
      (hrule : inner.rule = .atom) (hatom : a.Mirrors inner) : Mirrors (.atom a) node
  | var {node : Node} {start : Nat} {text : Text} {more : List Node}
      (hparts : node.parts = [⟨.var, start, text, more⟩]) : Mirrors (.var text) node
  | numeral {node : Node} {start : Nat} {text : Text} {more : List Node}
      (hparts : node.parts = [⟨.numeral, start, text, more⟩]) : Mirrors (.numeral text) node
  | compound {node inner functor list : Node} {a : Atom} {terms : List Term}
      (hparts : node.parts = [inner]) (hrule : inner.rule = .compound)
      (hinner : inner.parts = [functor, list]) (hfunctor : a.Mirrors functor)
      (hterms : List.Forall₂ Term.Mirrors terms list.parts) : Mirrors (.compound a terms) node

/-- The groups of a predicate are the lists behind its name, in their order. -/
def Predicate.Mirrors (p : Predicate) (node : Node) : Prop :=
  ∃ name lists, node.parts = name :: lists ∧ p.name.Mirrors name ∧
    List.Forall₂ (fun terms list => List.Forall₂ Term.Mirrors terms list.parts) p.arguments lists

/-- The body of a clause is the list behind its head, if there is one. -/
def Clause.Mirrors (c : Clause) (node : Node) : Prop :=
  ∃ head lists, node.parts = head :: lists ∧ c.head.Mirrors head ∧
    List.Forall₂ Predicate.Mirrors c.body (lists.flatMap Node.parts)

/-- The clauses of a program are all nodes but the last two, which are the query
with its list of goals and the end of the text. -/
def Program.Mirrors (p : Program) (nodes : List Node) : Prop :=
  ∃ clauses query ending list, nodes = clauses ++ [query, ending] ∧
    List.Forall₂ Clause.Mirrors p.clauses clauses ∧ query.parts = [list] ∧
    List.Forall₂ Predicate.Mirrors p.goals list.parts

/-- What is built from a node, as the rule of the node has it. -/
def Node.Built (node : Node) : Prop :=
  match node.rule with
  | .atom => ∃ a, Atom.ofNode? node = some a ∧ a.Mirrors node
  | .compound => ∃ t, ∀ start text, Term.ofNode? ⟨.term, start, text, [node]⟩ = some t ∧
      t.Mirrors ⟨.term, start, text, [node]⟩
  | .term => ∃ t, Term.ofNode? node = some t ∧ t.Mirrors node
  | .termList => ∃ terms, Term.ofNodes? node.children = some terms ∧
      List.Forall₂ Term.Mirrors terms node.parts
  | .predicate => ∃ p, Predicate.ofNode? node = some p ∧ p.Mirrors node
  | .predicateList => ∃ ps, Predicate.ofNodes? node.children = some ps ∧
      List.Forall₂ Predicate.Mirrors ps node.parts
  | .clause => ∃ c, Clause.ofNode? node = some c ∧ c.Mirrors node
  | _ => True

/-- Items between commas are built one by one, and the commas are passed over. -/
theorem exists_forall₂_of_commas {α : Type} (r : Rule) (build : Node → Option α)
    {buildEach : List Node → Option (List α)} {mirrors : α → Node → Prop}
    (hnil : buildEach [] = some [])
    (hcomma : ∀ start text inner rest,
      buildEach (⟨.comma, start, text, inner⟩ :: rest) = buildEach rest)
    (hcons : ∀ start text inner rest a as, build ⟨r, start, text, inner⟩ = some a →
      buildEach rest = some as → buildEach (⟨r, start, text, inner⟩ :: rest) = some (a :: as))
    (hr : r.isMark = false) {nodes : List Node}
    (h : ∀ node ∈ nodes, node.rule = .comma ∨
      node.rule = r ∧ ∃ a, build node = some a ∧ mirrors a node) :
    ∃ as, buildEach nodes = some as ∧
      List.Forall₂ mirrors as (nodes.filter (!·.rule.isMark)) := by
  induction nodes with
  | nil => exact ⟨[], hnil, .nil⟩
  | cons node rest ih =>
    obtain ⟨hnode, hrest⟩ := List.forall_mem_cons.mp h
    obtain ⟨as, has, hall⟩ := ih hrest
    obtain ⟨rule, start, text, inner⟩ := node
    rcases hnode with hrule | ⟨hrule, a, ha, hmirrors⟩
    · obtain rfl : rule = .comma := hrule
      exact ⟨as, (hcomma _ _ _ _).trans has, by simpa [Rule.isMark] using hall⟩
    · obtain rfl : rule = r := hrule
      refine ⟨a :: as, hcons _ _ _ _ _ _ ha has, ?_⟩
      simpa [hr] using ⟨hmirrors, hall⟩

/-- Nodes with the rules of a list are items and commas. -/
theorem rule_of_mem_list {item : Rule} {nodes : List Node} {n : Nat}
    (h : nodes.map Node.rule = item :: (List.replicate n [.comma, item]).flatten) :
    ∀ node ∈ nodes, node.rule = .comma ∨ node.rule = item := by
  intro node hnode
  have hmem : node.rule ∈ nodes.map Node.rule := List.mem_map_of_mem hnode
  rw [h] at hmem
  rcases List.mem_cons.mp hmem with hitem | hmore
  · exact Or.inr hitem
  · obtain ⟨round, hround, hrule⟩ := List.mem_flatten.mp hmore
    rw [List.eq_of_mem_replicate hround] at hrule
    simpa using hrule

section

variable {start : Nat} {text : Text} {children : List Node}

theorem built_atom (h : Rule.atom.Holds (children.map Node.rule))
    (hchildren : ∀ child ∈ children, child.Shaped) : Node.Built ⟨.atom, start, text, children⟩ := by
  obtain ⟨r, hr, hrules⟩ := h
  obtain ⟨inner, rfl, rfl⟩ := List.map_eq_singleton_iff.mp hrules
  have hinner := hchildren inner List.mem_cons_self
  obtain ⟨rule, start', text', children'⟩ := inner
  simp only [List.mem_cons, List.not_mem_nil, or_false] at hr
  rcases hr with rfl | rfl
  · exact ⟨.name text', rfl, .name rfl⟩
  · obtain ⟨string, rfl, hstring⟩ := List.map_eq_singleton_iff.mp hinner.holds
    obtain ⟨_, _, letters, _⟩ := string
    obtain rfl := hstring
    exact ⟨.quoted letters, rfl, .quoted rfl rfl rfl⟩

theorem built_termList (h : Rule.termList.Holds (children.map Node.rule))
    (hbuilt : ∀ child ∈ children, child.Built) : Node.Built ⟨.termList, start, text, children⟩ := by
  obtain ⟨n, hrules⟩ := h
  apply exists_forall₂_of_commas .term Term.ofNode? rfl (fun _ _ _ _ => rfl)
    (fun _ _ _ _ _ _ => Term.ofNodes?_cons) rfl
  intro node hnode
  refine (rule_of_mem_list hrules node hnode).imp_right fun hrule => ⟨hrule, ?_⟩
  have hterm := hbuilt node hnode
  simpa only [Node.Built, hrule] using hterm

theorem built_predicateList (h : Rule.predicateList.Holds (children.map Node.rule))
    (hbuilt : ∀ child ∈ children, child.Built) :
    Node.Built ⟨.predicateList, start, text, children⟩ := by
  obtain ⟨n, hrules⟩ := h
  apply exists_forall₂_of_commas .predicate Predicate.ofNode? rfl (fun _ _ _ _ => rfl)
    (fun _ _ _ _ _ _ => Predicate.ofNodes?_cons) rfl
  intro node hnode
  refine (rule_of_mem_list hrules node hnode).imp_right fun hrule => ⟨hrule, ?_⟩
  have hpredicate := hbuilt node hnode
  simpa only [Node.Built, hrule] using hpredicate

theorem built_compound (h : Rule.compound.Holds (children.map Node.rule))
    (hbuilt : ∀ child ∈ children, child.Built) : Node.Built ⟨.compound, start, text, children⟩ := by
  simp only [Rule.Holds, List.map_eq_cons_iff, List.map_eq_nil_iff] at h
  obtain ⟨functor, _, rfl, hfunctor, lparen, _, rfl, hlparen, list, _, rfl, hlist, rparen, _, rfl,
    hrparen, rfl⟩ := h
  have ha := hbuilt functor (by simp)
  have hterms := hbuilt list (by simp)
  obtain ⟨_, start', text', items⟩ := list
  obtain rfl := hlist
  simp only [Node.Built, hfunctor] at ha hterms
  obtain ⟨a, ha, hatom⟩ := ha
  obtain ⟨terms, hitems, hall⟩ := hterms
  refine ⟨.compound a terms, ?_⟩
  intro start'' text''
  refine ⟨?_, ?_⟩
  · simp [Term.ofNode?, ha, hitems]
  · refine .compound rfl rfl ?_ hatom hall
    simp [Node.parts, hfunctor, hlparen, hrparen, Rule.isMark]

theorem built_term (h : Rule.term.Holds (children.map Node.rule))
    (hbuilt : ∀ child ∈ children, child.Built) : Node.Built ⟨.term, start, text, children⟩ := by
  obtain ⟨r, hr, hrules⟩ := h
  obtain ⟨inner, rfl, rfl⟩ := List.map_eq_singleton_iff.mp hrules
  have hinner := hbuilt inner List.mem_cons_self
  obtain ⟨rule, start', text', children'⟩ := inner
  simp only [List.mem_cons, List.not_mem_nil, or_false] at hr
  rcases hr with rfl | rfl | rfl | rfl
  · obtain ⟨t, ht⟩ := hinner
    exact ⟨t, ht start text⟩
  · obtain ⟨a, ha, hmirrors⟩ := hinner
    refine ⟨.atom a, ?_, .atom rfl rfl hmirrors⟩
    simp [Term.ofNode?, ha]
  · exact ⟨.var text', rfl, .var rfl⟩
  · exact ⟨.numeral text', rfl, .numeral rfl⟩

/-- Groups between brackets are built one by one, and the brackets are passed over. -/
theorem exists_forall₂_of_groups {n : Nat} {nodes : List Node}
    (h : nodes.map Node.rule = (List.replicate n [.lparen, .termList, .rparen]).flatten)
    (hbuilt : ∀ node ∈ nodes, node.Built) :
    ∃ groups, Predicate.groupsOfNodes? nodes = some groups ∧
      List.Forall₂ (fun terms list => List.Forall₂ Term.Mirrors terms list.parts) groups
        (nodes.filter (!·.rule.isMark)) := by
  induction n generalizing nodes with
  | zero =>
    obtain rfl : nodes = [] := by simpa using h
    exact ⟨[], rfl, .nil⟩
  | succ n ih =>
    simp only [List.replicate_succ, List.flatten_cons, List.cons_append, List.nil_append,
      List.map_eq_cons_iff] at h
    obtain ⟨⟨_, _, _, _⟩, _, rfl, rfl, ⟨_, _, _, items⟩, _, rfl, rfl, ⟨_, _, _, _⟩, rest, rfl, rfl,
      hrest⟩ := h
    simp only [List.forall_mem_cons] at hbuilt
    obtain ⟨-, ⟨terms, hterms, hall⟩, -, hmore⟩ := hbuilt
    obtain ⟨groups, hgroups, hmirrors⟩ := ih hrest hmore
    refine ⟨terms :: groups, ?_, ?_⟩
    · simp [Predicate.groupsOfNodes?, hterms, hgroups]
    · simpa [Rule.isMark] using ⟨hall, hmirrors⟩

theorem built_predicate (h : Rule.predicate.Holds (children.map Node.rule))
    (hbuilt : ∀ child ∈ children, child.Built) :
    Node.Built ⟨.predicate, start, text, children⟩ := by
  obtain ⟨n, hrules⟩ := h
  obtain ⟨name, lists, rfl, hname, hlists⟩ := List.map_eq_cons_iff.mp hrules
  obtain ⟨ha, hmore⟩ := List.forall_mem_cons.mp hbuilt
  simp only [Node.Built, hname] at ha
  obtain ⟨a, ha, hatom⟩ := ha
  obtain ⟨groups, hgroups, hall⟩ := exists_forall₂_of_groups hlists hmore
  refine ⟨⟨a, groups⟩, ?_, name, lists.filter (!·.rule.isMark), ?_, hatom, hall⟩
  · simp [Predicate.ofNode?, ha, hgroups]
  · simp [Node.parts, hname, Rule.isMark]

theorem built_clause (h : Rule.clause.Holds (children.map Node.rule))
    (hbuilt : ∀ child ∈ children, child.Built) : Node.Built ⟨.clause, start, text, children⟩ := by
  simp only [Rule.Holds, List.map_eq_cons_iff, List.map_eq_nil_iff] at h
  rcases h with ⟨head, _, rfl, hhead, ⟨_, _, _, _⟩, _, rfl, rfl, rfl⟩ |
    ⟨head, _, rfl, hhead, ⟨_, _, _, _⟩, _, rfl, rfl, ⟨_, start', text', items⟩, _, rfl, rfl,
      ⟨_, _, _, _⟩, _, rfl, rfl, rfl⟩
  · have hp := hbuilt head List.mem_cons_self
    simp only [Node.Built, hhead] at hp
    obtain ⟨p, hp, hmirrors⟩ := hp
    refine ⟨⟨p, []⟩, ?_, head, [], ?_, hmirrors, .nil⟩
    · simp [Clause.ofNode?, hp]
    · simp [Node.parts, hhead, Rule.isMark]
  · simp only [List.forall_mem_cons] at hbuilt
    obtain ⟨hp, -, ⟨ps, hps, hall⟩, -⟩ := hbuilt
    simp only [Node.Built, hhead] at hp
    obtain ⟨p, hp, hmirrors⟩ := hp
    refine ⟨⟨p, ps⟩, ?_, head, [⟨.predicateList, start', text', items⟩], ?_, hmirrors, ?_⟩
    · simp [Clause.ofNode?, hp, hps]
    · simp [Node.parts, hhead, Rule.isMark]
    · simpa using hall

end

/-- From a node in shape a part of the tree is built, which mirrors the node. -/
theorem Node.Shaped.built {node : Node} (h : node.Shaped) : node.Built := by
  induction h with
  | @mk r start text children hrules hchildren ih =>
    cases r with
    | atom => exact built_atom hrules hchildren
    | term => exact built_term hrules ih
    | compound => exact built_compound hrules ih
    | termList => exact built_termList hrules ih
    | predicate => exact built_predicate hrules ih
    | predicateList => exact built_predicateList hrules ih
    | clause => exact built_clause hrules ih
    | _ => trivial

namespace Program

/-- The query and the end of the text close the nodes of a program. -/
theorem exists_of_query {query ending : Node} (hquery : query.Shaped) (hrule : query.rule = .query)
    (hending : ending.rule = .endOfInput) :
    ∃ goals list, ofNodes? [query, ending] = some ⟨[], goals⟩ ∧ query.parts = [list] ∧
      List.Forall₂ Predicate.Mirrors goals list.parts := by
  obtain ⟨_, start, text, children⟩ := query
  obtain rfl := hrule
  obtain ⟨_, _, _, _⟩ := ending
  obtain rfl := hending
  have hrules := hquery.holds
  simp only [Rule.Holds, List.map_eq_cons_iff, List.map_eq_nil_iff] at hrules
  obtain ⟨⟨_, _, _, _⟩, _, rfl, rfl, ⟨_, start', text', items⟩, _, rfl, rfl, ⟨_, _, _, _⟩, _, rfl,
    rfl, rfl⟩ := hrules
  have hlist : Node.Built ⟨.predicateList, start', text', items⟩ :=
    (hquery.of_mem (by simp)).built
  obtain ⟨goals, hgoals, hall⟩ := hlist
  refine ⟨goals, ⟨.predicateList, start', text', items⟩, ?_, rfl, hall⟩
  have hitems : Predicate.ofNodes? items = some goals := hgoals
  simp [ofNodes?, hitems]

/-- From the nodes of a program in shape the tree is built, which mirrors them. -/
theorem exists_of_shaped {nodes : List Node} (hrules : Rule.program.Holds (nodes.map Node.rule))
    (hshaped : ∀ node ∈ nodes, node.Shaped) :
    ∃ p, ofNodes? nodes = some p ∧ p.Mirrors nodes := by
  obtain ⟨n, hrules⟩ := hrules
  induction n generalizing nodes with
  | zero =>
    simp only [List.replicate_zero, List.nil_append, List.map_eq_cons_iff, List.map_eq_nil_iff]
      at hrules
    obtain ⟨query, _, rfl, hquery, ending, _, rfl, hending, rfl⟩ := hrules
    obtain ⟨goals, list, hbuild, hparts, hall⟩ :=
      exists_of_query (hshaped query List.mem_cons_self) hquery hending
    exact ⟨⟨[], goals⟩, hbuild, [], query, ending, list, rfl, .nil, hparts, hall⟩
  | succ n ih =>
    obtain ⟨⟨_, start, text, children⟩, rest, rfl, rfl, hrest⟩ := List.map_eq_cons_iff.mp hrules
    obtain ⟨hclause, hmore⟩ := List.forall_mem_cons.mp hshaped
    obtain ⟨c, hc, hmirrors⟩ := hclause.built
    obtain ⟨p, hp, clauses, query, ending, list, rfl, hall, hparts, hgoals⟩ := ih hmore hrest
    refine ⟨⟨c :: p.clauses, p.goals⟩, ?_, ⟨.clause, start, text, children⟩ :: clauses, query,
      ending, list, rfl, .cons hmirrors hall, hparts, hgoals⟩
    rw [ofNodes?]
    · simp [hc, hp]
    · simp

/-- A text is parsed exactly where it is recognized, and is refused with the same
error otherwise. The nodes of its match have the shape of their rules at every
depth, so the tree is always built from them, and it mirrors them: nothing but
marks is passed over. -/
theorem parse_mirrors (text : Text) :
    ((∃ p, parse text = .ok p) ↔ recognize text = .ok ()) ∧
      (∀ e, parse text = .error (.mismatch e) ↔ recognize text = .error e) ∧
      (∀ nodes, parse text ≠ .error (.misshapen nodes)) ∧
      (recognize text = .ok () ↔ ∃ m p, Rule.program.matchText text = .ok m ∧
        parse text = .ok p ∧ Rule.program.Holds (m.nodes.map Node.rule) ∧
        (∀ node ∈ m.nodes, node.Shaped) ∧ p.Mirrors m.nodes) := by
  rcases Option.eq_none_or_eq_some (Rule.program.reader 0 text).found with hfound | ⟨m, hfound⟩
  · have herror := recognize_of_none hfound
    have hparse : parse text =
        .error (.mismatch (.ofRefusals text (Rule.program.reader 0 text).refusals)) := by
      unfold parse
      rw [Rule.matchText_of_none hfound]
    simp [herror, hparse]
  · have hok := recognize_of_some hfound
    have hmatch := Rule.matchText_of_some hfound
    obtain ⟨hrules, hshaped⟩ := Rule.forms_program 0 text m hfound
    obtain ⟨p, hp, hmirrors⟩ := exists_of_shaped hrules hshaped
    have hparse : parse text = .ok p := by
      unfold parse
      simp only [hmatch, hp]
    refine ⟨⟨fun _ => hok, fun _ => ⟨p, hparse⟩⟩, ?_, ?_, ⟨fun _ => ?_, fun _ => hok⟩⟩
    · simp [hok, hparse]
    · simp [hparse]
    · exact ⟨m, p, hmatch, hparse, hrules, hshaped, hmirrors⟩

end Program

end HornSyntax
