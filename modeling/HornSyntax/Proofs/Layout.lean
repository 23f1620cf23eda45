import HornSyntax.Proofs.Shape

/-!
Nodes laid out along a text. A node stands for a stretch of the text that begins
at a byte, and the nodes right inside it for stretches of this stretch. Where
every node of a forest is laid out in this way, the forest as a whole is nested
and its leaves follow one another.
-/

namespace HornSyntax

open CharacterClass

/-- The rules whose nodes hold no others. -/
def Rule.isLeaf : Rule → Bool
  | endOfInput | smallAtom | string | var | numeral | neck | queryStart | dot | comma | lparen
  | rparen => true
  | _ => false

namespace Node

/-- Induction over nodes with the hypothesis for every node right inside. -/
theorem induction {motive : Node → Prop}
    (step : ∀ node : Node, (∀ child ∈ node.children, motive child) → motive node) (node : Node) :
    motive node := by
  refine step node ?_
  intro child hchild
  exact induction step child
termination_by sizeOf node
decreasing_by
  have hlt := List.sizeOf_lt_of_mem hchild
  cases node
  simp only [Node.mk.sizeOf_spec] at hlt ⊢
  omega

/-- The nodes of a forest are its roots and all that is right inside one of its nodes. -/
inductive IsIn (nodes : List Node) : Node → Prop
  | root {node : Node} (hnode : node ∈ nodes) : IsIn nodes node
  | inside {node parent : Node} (hparent : parent.IsIn nodes) (hnode : node ∈ parent.children) :
      IsIn nodes node

mutual

/-- The nodes of a forest that hold no others, from left to right. -/
def leaves : Node → List Node
  | ⟨r, start, text, children⟩ =>
    if children.isEmpty then [⟨r, start, text, children⟩] else leavesOfEach children

def leavesOfEach : List Node → List Node
  | [] => []
  | node :: rest => node.leaves ++ leavesOfEach rest

end

/-- Whether a byte of the text is one of those that the node stands for. -/
def Contains (node : Node) (byte : Nat) : Prop := node.start ≤ byte ∧ byte < node.stop

/-- Nodes side by side along a text that begins at a byte. Each is the text between
two characters, and none begins before the one in front of it ends. -/
structure Nested (start : Nat) (text : Text) (nodes : List Node) : Prop where
  inside : ∀ node ∈ nodes, ∃ before after,
    text = before ++ (node.text ++ after) ∧ node.start = start + before.bytes
  ordered : nodes.Pairwise fun first second => first.stop ≤ second.start

/-- Nodes with nothing but blanks before, between and behind them. -/
inductive Laid : Nat → Text → List Node → Prop
  | blanks {start : Nat} {gap : Text} (hgap : gap.all isBlank = true) : Laid start gap []
  | node {start : Nat} {gap rest : Text} {node : Node} {nodes : List Node}
      (hgap : gap.all isBlank = true) (hstart : node.start = start + gap.bytes)
      (hrest : Laid node.stop rest nodes) : Laid start (gap ++ (node.text ++ rest)) (node :: nodes)

/-- A text between two quotes, with the node of the text right inside. -/
def quotation (start : Nat) (letters : Text) : Node where
  rule := .quotedAtom
  start := start
  text := '\'' :: letters ++ ['\'']
  children := [⟨.string, start + 1, letters, []⟩]

/-- How a node stands for its text: as a single token, as a text between two
quotes, or as what the nodes inside it stand for, with blanks around them. -/
inductive Layout : Node → Prop
  | token {node : Node} (hrule : node.rule.isLeaf = true) (hchildren : node.children = [])
      (hblank : node.rule ≠ .string → ∀ c ∈ node.text, isBlank c = false) : Layout node
  | quotation (start : Nat) (letters : Text) : Layout (.quotation start letters)
  | phrase {node : Node} (hrule : node.rule.isLeaf = false) (hquoted : node.rule ≠ .quotedAtom)
      (hchildren : node.children ≠ []) (hlaid : Laid node.start node.text node.children) :
      Layout node

section

variable {node root : Node} {nodes : List Node}

theorem IsIn.of_children (h : node.IsIn root.children) (hroot : root ∈ nodes) :
    node.IsIn nodes := by
  induction h with
  | root hnode => exact .inside (.root hroot) hnode
  | inside _ hnode ih => exact .inside ih hnode

theorem isIn_iff : node.IsIn nodes ↔ ∃ root ∈ nodes, node = root ∨ node.IsIn root.children := by
  constructor
  · intro h
    induction h with
    | root hnode => exact ⟨_, hnode, Or.inl rfl⟩
    | inside _ hnode ih =>
      obtain ⟨root, hroot, rfl | hparent⟩ := ih
      · exact ⟨_, hroot, Or.inr (.root hnode)⟩
      · exact ⟨root, hroot, Or.inr (.inside hparent hnode)⟩
  · rintro ⟨root, hroot, rfl | hnode⟩
    · exact .root hroot
    · exact hnode.of_children hroot

theorem not_isIn_nil (node : Node) : ¬ node.IsIn [] := by
  rw [isIn_iff]
  simp

theorem isIn_singleton : node.IsIn [root] ↔ node = root ∨ node.IsIn root.children := by
  rw [isIn_iff]
  simp

theorem isIn_cons : node.IsIn (root :: nodes) ↔ node.IsIn [root] ∨ node.IsIn nodes := by
  rw [isIn_singleton, @isIn_iff node nodes, isIn_iff]
  simp

theorem leavesOfEach_eq_flatMap (nodes : List Node) :
    leavesOfEach nodes = nodes.flatMap leaves := by
  induction nodes with
  | nil => rfl
  | cons node rest ih => rw [leavesOfEach, ih, List.flatMap_cons]

theorem leaves_of_children_eq_nil (h : node.children = []) : node.leaves = [node] := by
  obtain ⟨r, start, text, children⟩ := node
  obtain rfl : children = [] := h
  rfl

theorem leaves_of_children_ne_nil (h : node.children ≠ []) :
    node.leaves = leavesOfEach node.children := by
  obtain ⟨r, start, text, children⟩ := node
  rw [leaves, if_neg (by simpa using h)]

/-- The leaves of a node are the nodes in it that hold no others. -/
theorem mem_leaves {leaf : Node} :
    leaf ∈ node.leaves ↔ leaf.IsIn [node] ∧ leaf.children = [] := by
  induction node using Node.induction with
  | step node ih =>
    by_cases hnil : node.children = []
    · rw [leaves_of_children_eq_nil hnil, isIn_singleton, List.mem_singleton, hnil]
      constructor
      · rintro rfl
        exact ⟨Or.inl rfl, hnil⟩
      · rintro ⟨rfl | hnode, -⟩
        · rfl
        · exact absurd hnode (not_isIn_nil leaf)
    · rw [leaves_of_children_ne_nil hnil, leavesOfEach_eq_flatMap, List.mem_flatMap, isIn_singleton,
        @isIn_iff leaf node.children]
      constructor
      · rintro ⟨child, hchild, hleaf⟩
        obtain ⟨hin, hleaf⟩ := (ih child hchild).mp hleaf
        exact ⟨Or.inr ⟨child, hchild, isIn_singleton.mp hin⟩, hleaf⟩
      · rintro ⟨rfl | ⟨child, hchild, hin⟩, hleaf⟩
        · exact absurd hleaf hnil
        · exact ⟨child, hchild, (ih child hchild).mpr ⟨isIn_singleton.mpr hin, hleaf⟩⟩

theorem mem_leavesOfEach {leaf : Node} :
    leaf ∈ leavesOfEach nodes ↔ leaf.IsIn nodes ∧ leaf.children = [] := by
  induction nodes with
  | nil => simp [leavesOfEach, not_isIn_nil]
  | cons node rest ih =>
    rw [leavesOfEach, List.mem_append, mem_leaves, ih, @isIn_cons leaf node rest, or_and_right]

namespace Nested

variable {start : Nat} {text : Text}

theorem nil (start : Nat) (text : Text) : Nested start text [] := by
  constructor <;> simp

theorem singleton (node : Node) : Nested node.start node.text [node] := by
  constructor
  · exact List.forall_mem_singleton.mpr ⟨[], [], by simp, by simp⟩
  · simp

/-- Whatever stands inside a text ends within it. -/
theorem bounds (h : Nested start text nodes) (hnode : node ∈ nodes) :
    start ≤ node.start ∧ node.stop ≤ start + text.bytes := by
  obtain ⟨before, after, htext, hstart⟩ := h.inside node hnode
  have hbytes := congrArg Text.bytes htext
  simp only [Text.bytes_append] at hbytes
  rw [stop]
  omega

/-- What is nested at every level stands inside the whole text, however deep. -/
theorem inside_of_isIn (h : Nested start text nodes)
    (hlevel : ∀ parent : Node, parent.IsIn nodes →
      Nested parent.start parent.text parent.children) (hnode : node.IsIn nodes) :
    ∃ before after, text = before ++ (node.text ++ after) ∧ node.start = start + before.bytes := by
  induction hnode with
  | root hnode => exact h.inside _ hnode
  | @inside node parent hparent hnode ih =>
    obtain ⟨before, after, htext, hstart⟩ := ih
    obtain ⟨front, back, hparent, hplace⟩ := (hlevel parent hparent).inside node hnode
    refine ⟨before ++ front, back ++ after, ?_, ?_⟩
    · rw [htext, hparent]
      simp only [List.append_assoc]
    · rw [hplace, hstart, Text.bytes_append, Nat.add_assoc]

end Nested

theorem Laid.nested {start : Nat} {text : Text} (h : Laid start text nodes) :
    Nested start text nodes := by
  induction h with
  | blanks => exact .nil _ _
  | @node start gap rest node nodes _ hstart _ ih =>
    constructor
    · intro other hother
      rcases List.mem_cons.mp hother with rfl | hother
      · exact ⟨gap, rest, rfl, hstart⟩
      · obtain ⟨before, after, hrest, hplace⟩ := ih.inside other hother
        refine ⟨gap ++ (node.text ++ before), after, ?_, ?_⟩
        · rw [hrest]
          simp only [List.append_assoc]
        · rw [hplace, stop, hstart]
          simp only [Text.bytes_append, Nat.add_assoc]
    · refine List.pairwise_cons.mpr ⟨?_, ih.ordered⟩
      intro other hother
      exact (ih.bounds hother).1

theorem Layout.nested (h : node.Layout) : Nested node.start node.text node.children := by
  cases h with
  | token _ hchildren _ =>
    rw [hchildren]
    exact .nil _ _
  | quotation =>
    constructor
    · exact List.forall_mem_singleton.mpr ⟨['\''], ['\''], by simp [Node.quotation], rfl⟩
    · simp [Node.quotation]
  | phrase _ _ _ hlaid => exact hlaid.nested

/-- A node that holds no others is a single token, and so are no others. -/
theorem Layout.children_eq_nil_iff (h : node.Layout) :
    node.children = [] ↔ node.rule.isLeaf = true := by
  cases h with
  | token hrule hchildren _ => simp [hrule, hchildren]
  | quotation => simp [Node.quotation, Rule.isLeaf]
  | phrase hrule _ hchildren _ => simp [hrule, hchildren]

/-- The quotes of a quotation are its first and its last character. -/
theorem Layout.exists_letters (h : node.Layout) (hrule : node.rule = .quotedAtom) :
    ∃ letters, node.text = '\'' :: letters ++ ['\''] := by
  cases h with
  | token hleaf =>
    rw [hrule] at hleaf
    cases hleaf
  | quotation start letters => exact ⟨letters, rfl⟩
  | phrase _ hquoted => exact absurd hrule hquoted

/-- Every node of the forest is laid out. -/
def LaidOut (nodes : List Node) : Prop := ∀ node : Node, node.IsIn nodes → node.Layout

theorem LaidOut.of_mem (h : LaidOut nodes) (hroot : root ∈ nodes) : LaidOut [root] := by
  intro node hnode
  rcases isIn_singleton.mp hnode with rfl | hnode
  · exact h node (.root hroot)
  · exact h node (hnode.of_children hroot)

theorem LaidOut.children (h : LaidOut [root]) : LaidOut root.children := by
  intro node hnode
  exact h node (hnode.of_children List.mem_cons_self)

/-- What is in a node stands for a part of what the node stands for. -/
theorem LaidOut.bounds (h : LaidOut [root]) (hnode : node.IsIn [root]) :
    root.start ≤ node.start ∧ node.stop ≤ root.stop := by
  have hinside := (Nested.singleton root).inside_of_isIn
    (fun parent hparent => (h parent hparent).nested) hnode
  have hsingle : Nested root.start root.text [node] :=
    ⟨List.forall_mem_singleton.mpr hinside, by simp⟩
  exact hsingle.bounds List.mem_cons_self

/-- The leaves of nodes in order are in order, if those of each node are. -/
theorem Nested.leaves_ordered {start : Nat} {text : Text} (h : Nested start text nodes)
    (hlaid : LaidOut nodes)
    (heach : ∀ node ∈ nodes, node.leaves.Pairwise fun first second => first.stop ≤ second.start) :
    (leavesOfEach nodes).Pairwise fun first second => first.stop ≤ second.start := by
  rw [leavesOfEach_eq_flatMap, List.pairwise_flatMap]
  refine ⟨heach, h.ordered.imp_of_mem ?_⟩
  intro first second hfirst hsecond hle leaf hleaf leaf' hleaf'
  have hstop := ((hlaid.of_mem hfirst).bounds (mem_leaves.mp hleaf).1).2
  have hstart := ((hlaid.of_mem hsecond).bounds (mem_leaves.mp hleaf').1).1
  omega

theorem LaidOut.leaves_ordered (h : LaidOut [node]) :
    node.leaves.Pairwise fun first second => first.stop ≤ second.start := by
  induction node using Node.induction with
  | step node ih =>
    by_cases hnil : node.children = []
    · simp [leaves_of_children_eq_nil hnil]
    · rw [leaves_of_children_ne_nil hnil]
      have hnested := (h node (.root List.mem_cons_self)).nested
      refine hnested.leaves_ordered h.children ?_
      intro child hchild
      exact ih child hchild (h.children.of_mem hchild)

end

end Node

end HornSyntax
