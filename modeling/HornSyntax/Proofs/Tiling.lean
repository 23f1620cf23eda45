import HornSyntax.Proofs.Layout

/-!
What the leaves of a forest cover. Where every node is laid out along its text,
the leaves cover the text of the forest but for the blanks between tokens and the
two quotes of each quotation. At each byte only the nodes that contain it matter,
so nodes side by side cover a text as each of them covers its own.
-/

namespace HornSyntax

open CharacterClass

/-- A place in a text of two parts lies in the first part or in the second. -/
theorem Text.append_eq_append_cons {left right before after : Text} {c : Char}
    (h : left ++ right = before ++ c :: after) :
    (∃ more : Text, left = before ++ c :: more) ∨
      ∃ front : Text, before = left ++ front ∧ right = front ++ c :: after := by
  rcases List.append_eq_append_iff.mp h with ⟨front, hbefore, hright⟩ | ⟨more, hleft, hafter⟩
  · exact Or.inr ⟨front, hbefore, hright⟩
  · cases more with
    | nil => exact Or.inr ⟨[], by simpa using hleft.symm, by simpa using hafter.symm⟩
    | cons d more =>
      obtain ⟨rfl, -⟩ := List.cons.inj hafter
      exact Or.inl ⟨more, hleft⟩

/-- No place between two characters lies behind the first byte of a character and
before its last. -/
theorem Text.bytes_le_iff {front back before after : Text} {c : Char} {byte : Nat}
    (h : front ++ back = before ++ c :: after) (hle : before.bytes ≤ byte)
    (hlt : byte < before.bytes + c.utf8Size) :
    front.bytes ≤ byte ↔ front.bytes ≤ before.bytes := by
  rcases append_eq_append_cons h with ⟨more, rfl⟩ | ⟨more, rfl, -⟩
  · simp only [Text.bytes_append, Text.bytes_cons]
    omega
  · simp only [Text.bytes_append] at hle ⊢
    omega

namespace Node

variable {node root : Node} {nodes : List Node}

/-- A node stands for all bytes of a character or for none. -/
theorem contains_iff {front text after' before after : Text} {start : Nat} {c : Char} {byte : Nat}
    (hnode : text = front ++ (node.text ++ after') ∧ node.start = start + front.bytes)
    (htext : text = before ++ c :: after) (hle : before.bytes ≤ byte)
    (hlt : byte < before.bytes + c.utf8Size) :
    node.Contains (start + byte) ↔ node.Contains (start + before.bytes) := by
  obtain ⟨hfront, hstart⟩ := hnode
  rw [htext] at hfront
  have hfirst := Text.bytes_le_iff hfront.symm hle hlt
  have hlast := @Text.bytes_le_iff (front ++ node.text) after' before after c byte
    (by rw [List.append_assoc, hfront]) hle hlt
  rw [Text.bytes_append] at hlast
  simp only [Contains, stop, hstart]
  omega

/-- Whether one of the leaves stands for a byte. -/
def IsCovered (nodes : List Node) (byte : Nat) : Prop :=
  ∃ leaf ∈ leavesOfEach nodes, leaf.Contains byte

/-- Whether a character is a blank outside of quoted text or one of the two quotes
of a quotation. -/
def IsSpared (nodes : List Node) (byte : Nat) (c : Char) : Prop :=
  (isBlank c = true ∧ ∀ node : Node, node.IsIn nodes → node.rule = .string → ¬ node.Contains byte) ∨
    ∃ node : Node, node.IsIn nodes ∧ node.rule = .quotedAtom ∧ node.Contains byte ∧
      (byte = node.start ∨ byte + 1 = node.stop)

/-- The leaves cover a text but for the characters that are to be spared. -/
def Tiled (start : Nat) (text : Text) (nodes : List Node) : Prop :=
  ∀ (before : Text) (c : Char) (after : Text), text = before ++ c :: after →
    (IsCovered nodes (start + before.bytes) ↔ ¬ IsSpared nodes (start + before.bytes) c)

section

variable {nodes' : List Node} {byte : Nat} {c : Char}

/-- Only the nodes that contain a byte matter there, and of these only leaves,
quoted texts and quotations. -/
theorem covered_iff_congr
    (h : ∀ node : Node, node.Contains byte →
      node.children = [] ∨ node.rule = .string ∨ node.rule = .quotedAtom →
      (node.IsIn nodes ↔ node.IsIn nodes')) :
    (IsCovered nodes byte ↔ ¬ IsSpared nodes byte c) ↔
      (IsCovered nodes' byte ↔ ¬ IsSpared nodes' byte c) := by
  have hcovered : IsCovered nodes byte ↔ IsCovered nodes' byte := by
    simp only [IsCovered, mem_leavesOfEach]
    grind
  have hspared : IsSpared nodes byte c ↔ IsSpared nodes' byte c := by
    simp only [IsSpared]
    grind
  rw [hcovered, hspared]

/-- A blank that no node contains is not covered, and is to be spared. -/
theorem covered_iff_of_blank (hblank : isBlank c = true)
    (h : ∀ node : Node, node.IsIn nodes → ¬ node.Contains byte) :
    IsCovered nodes byte ↔ ¬ IsSpared nodes byte c := by
  constructor
  · rintro ⟨leaf, hleaf, hbyte⟩
    exact absurd hbyte (h leaf (mem_leavesOfEach.mp hleaf).1)
  · intro hspared
    exact absurd (Or.inl ⟨hblank, fun node hnode _ => h node hnode⟩) hspared

end

/-- Where the leaves of each node cover its text, those of nodes side by side cover
the text along which they are laid. -/
theorem Laid.tiled {start : Nat} {text : Text} (h : Laid start text nodes)
    (hlaid : LaidOut nodes) (heach : ∀ node ∈ nodes, Tiled node.start node.text [node]) :
    Tiled start text nodes := by
  induction h with
  | @blanks start gap hgap =>
    intro before c after htext
    refine covered_iff_of_blank (List.all_eq_true.mp hgap c (by simp [htext])) ?_
    intro node hnode
    exact absurd hnode (not_isIn_nil node)
  | @node start gap rest node nodes hgap hstart hrest ih =>
    have hlater : ∀ other : Node, other.IsIn nodes → node.stop ≤ other.start := by
      intro other hother
      obtain ⟨root, hroot, hin⟩ := isIn_iff.mp hother
      have hplace := (hrest.nested.bounds hroot).1
      have hwithin := (hlaid.of_mem (List.mem_cons_of_mem node hroot)).bounds
        (isIn_singleton.mpr hin)
      omega
    have hfirst : ∀ other : Node, other.IsIn [node] →
        node.start ≤ other.start ∧ other.stop ≤ node.stop := by
      intro other hother
      exact (hlaid.of_mem List.mem_cons_self).bounds hother
    intro before c after htext
    rcases Text.append_eq_append_cons htext with ⟨more, hmore⟩ | ⟨front, hbefore, hright⟩
    · -- In the gap in front of the node.
      have hbytes := congrArg Text.bytes hmore
      have hpos := c.utf8Size_pos
      simp only [Text.bytes_append, Text.bytes_cons] at hbytes
      refine covered_iff_of_blank (List.all_eq_true.mp hgap c (by simp [hmore])) ?_
      intro other hother hbyte
      have hle : node.start ≤ other.start := by
        rcases isIn_cons.mp hother with hother | hother
        · exact (hfirst other hother).1
        · have hstop := hlater other hother
          rw [stop] at hstop
          omega
      have := hbyte.1
      omega
    · rcases Text.append_eq_append_cons hright with ⟨more, hmore⟩ | ⟨back, hfront, hback⟩
      · -- In the text of the node.
        have hplace : start + before.bytes = node.start + front.bytes := by
          rw [hbefore, Text.bytes_append, hstart, Nat.add_assoc]
        have hbytes := congrArg Text.bytes hmore
        have hpos := c.utf8Size_pos
        simp only [Text.bytes_append, Text.bytes_cons] at hbytes
        rw [hplace]
        refine (covered_iff_congr ?_).mp (heach node List.mem_cons_self front c more hmore)
        intro other hbyte _
        rw [@isIn_cons other node nodes]
        refine ⟨Or.inl, ?_⟩
        rintro (hother | hother)
        · exact hother
        · have hstop := hlater other hother
          have hle := hbyte.1
          rw [stop] at hstop
          omega
      · -- Behind the node.
        have hplace : start + before.bytes = node.stop + back.bytes := by
          rw [hbefore, hfront, stop, hstart]
          simp only [Text.bytes_append, Nat.add_assoc]
        have hrest := ih (fun other hother => hlaid other (isIn_cons.mpr (Or.inr hother)))
          (fun other hother => heach other (List.mem_cons_of_mem node hother)) back c after hback
        rw [hplace]
        refine (covered_iff_congr ?_).mp hrest
        intro other hbyte _
        rw [@isIn_cons other node nodes]
        refine ⟨Or.inr, ?_⟩
        rintro (hother | hother)
        · have hstop := (hfirst other hother).2
          have hlt := hbyte.2
          omega
        · exact hother

/-- A token that stands for its text as a whole covers it. -/
theorem Layout.tiled_of_isLeaf (h : node.Layout) (hrule : node.rule.isLeaf = true) :
    Tiled node.start node.text [node] := by
  have hchildren := h.children_eq_nil_iff.mpr hrule
  have honly : ∀ other : Node, other.IsIn [node] → other = node := by
    intro other hother
    rcases isIn_singleton.mp hother with rfl | hother
    · rfl
    · exact absurd (hchildren ▸ hother) (not_isIn_nil other)
  intro before c after htext
  have hbyte : node.Contains (node.start + before.bytes) := by
    have hbytes := congrArg Text.bytes htext
    have hpos := c.utf8Size_pos
    simp only [Text.bytes_append, Text.bytes_cons] at hbytes
    constructor
    · omega
    · rw [stop]
      omega
  have hcovered : IsCovered [node] (node.start + before.bytes) :=
    ⟨node, mem_leavesOfEach.mpr ⟨.root List.mem_cons_self, hchildren⟩, hbyte⟩
  refine iff_of_true hcovered ?_
  rintro (⟨hblank, hstring⟩ | ⟨other, hother, hquoted, -⟩)
  · cases h with
    | token _ _ hfree =>
      have hne : node.rule ≠ .string := fun heq =>
        hstring node (.root List.mem_cons_self) heq hbyte
      rw [hfree hne c (by simp [htext])] at hblank
      cases hblank
    | quotation => cases hrule
    | phrase hnot => simp [hnot] at hrule
  · rw [honly other hother] at hquoted
    rw [hquoted] at hrule
    cases hrule

theorem stop_quotation (start : Nat) (letters : Text) :
    (quotation start letters).stop = start + letters.bytes + 2 := by
  have hquote : ('\'' : Char).utf8Size = 1 := rfl
  simp only [stop, quotation, Text.bytes_cons, Text.bytes_append, Text.bytes_nil, hquote,
    List.cons_append]
  omega

theorem isIn_quotation {start : Nat} {letters : Text} : node.IsIn [quotation start letters] ↔
    node = quotation start letters ∨ node = ⟨.string, start + 1, letters, []⟩ := by
  rw [isIn_singleton, quotation, isIn_singleton]
  simp [not_isIn_nil]

theorem isCovered_quotation {start byte : Nat} {letters : Text} :
    IsCovered [quotation start letters] byte ↔ start < byte ∧ byte < start + 1 + letters.bytes := by
  have hleaves : leavesOfEach [quotation start letters] = [⟨.string, start + 1, letters, []⟩] := rfl
  simp only [IsCovered, hleaves, List.mem_singleton, exists_eq_left, Contains, stop]
  omega

theorem isSpared_quotation {start byte : Nat} {letters : Text} {c : Char} :
    IsSpared [quotation start letters] byte c ↔
      isBlank c = true ∧ ¬ (start < byte ∧ byte < start + 1 + letters.bytes) ∨
        byte = start ∨ byte = start + 1 + letters.bytes := by
  have hstop := stop_quotation start letters
  have hstart : (quotation start letters).start = start := rfl
  constructor
  · rintro (⟨hblank, hfree⟩ | ⟨other, hother, hrule, -, hplace⟩)
    · exact Or.inl ⟨hblank, hfree _ (isIn_quotation.mpr (Or.inr rfl)) rfl⟩
    · rcases isIn_quotation.mp hother with rfl | rfl
      · right
        omega
      · cases hrule
  · rintro (⟨hblank, hfree⟩ | hplace)
    · refine Or.inl ⟨hblank, ?_⟩
      intro other hother hrule
      rcases isIn_quotation.mp hother with rfl | rfl
      · cases hrule
      · exact hfree
    · refine Or.inr ⟨_, .root List.mem_cons_self, rfl, ?_, ?_⟩
      · rw [Contains]
        omega
      · omega

/-- The text between the quotes of a quotation is covered, and the quotes are not. -/
theorem tiled_quotation (start : Nat) (letters : Text) :
    Tiled start (quotation start letters).text [quotation start letters] := by
  have hquote : ('\'' : Char).utf8Size = 1 := rfl
  intro before c after htext
  rw [isCovered_quotation, isSpared_quotation]
  cases before with
  | nil => simp
  | cons d before =>
    obtain ⟨hfirst, hletters⟩ := List.cons.inj htext
    rw [Text.bytes_cons, ← hfirst, hquote]
    rcases Text.append_eq_append_cons hletters with ⟨more, hmore⟩ | ⟨front, hbefore, hright⟩
    · have hbytes := congrArg Text.bytes hmore
      have hpos := c.utf8Size_pos
      simp only [Text.bytes_append, Text.bytes_cons] at hbytes
      omega
    · cases front with
      | nil =>
        rw [hbefore, List.append_nil]
        omega
      | cons d front => simp at hright

theorem LaidOut.tiled (h : LaidOut [node]) : Tiled node.start node.text [node] := by
  induction node using Node.induction with
  | step node ih =>
    have hlayout := h node (.root List.mem_cons_self)
    by_cases hleaf : node.rule.isLeaf = true
    · exact hlayout.tiled_of_isLeaf hleaf
    · cases hlayout with
      | token hrule => exact absurd hrule hleaf
      | quotation start letters => exact tiled_quotation start letters
      | phrase hrule hquoted hchildren hlaid =>
        have htiled := hlaid.tiled h.children
          fun child hchild => ih child hchild (h.children.of_mem hchild)
        intro before c after htext
        refine (covered_iff_congr ?_).mp (htiled before c after htext)
        intro other _ hother
        rw [isIn_singleton]
        refine ⟨Or.inr, ?_⟩
        rintro (rfl | hin)
        · rcases hother with hnil | hstring | hquotation
          · exact absurd hnil hchildren
          · rw [hstring] at hrule
            cases hrule
          · exact absurd hquotation hquoted
        · exact hin

/-- Where every node of a forest is laid out, its leaves cover the bytes of each
character along the text, unless the character is to be spared. -/
theorem LaidOut.covered_iff {start byte : Nat} {text before after : Text} {c : Char}
    (hlaid : LaidOut nodes) (h : Laid start text nodes) (htext : text = before ++ c :: after)
    (hle : before.bytes ≤ byte) (hlt : byte < before.bytes + c.utf8Size) :
    IsCovered nodes (start + byte) ↔ ¬ IsSpared nodes (start + before.bytes) c := by
  have htiled := h.tiled hlaid fun node hnode => (hlaid.of_mem hnode).tiled
  rw [← htiled before c after htext]
  refine exists_congr fun leaf => and_congr_right ?_
  intro hleaf
  obtain ⟨front, back, hinside⟩ := h.nested.inside_of_isIn
    (fun parent hparent => (hlaid parent hparent).nested) (mem_leavesOfEach.mp hleaf).1
  exact contains_iff hinside htext hle hlt

end Node

/-- The nodes of a match are nested within its text, and the leaves among them are
the tokens. Leaves follow one another and cover the bytes of every character, but
for the characters that are to be spared. -/
structure Match.IsForest (m : Match) : Prop where
  nested : Node.Nested 0 m.text m.nodes
  nested_children : ∀ node : Node, node.IsIn m.nodes →
    Node.Nested node.start node.text node.children
  inside : ∀ node : Node, node.IsIn m.nodes →
    ∃ before after, m.text = before ++ (node.text ++ after) ∧ node.start = before.bytes
  quoted : ∀ node : Node, node.IsIn m.nodes → node.rule = .quotedAtom →
    ∃ letters, node.text = '\'' :: letters ++ ['\'']
  mem_leaves_iff : ∀ leaf : Node, leaf ∈ Node.leavesOfEach m.nodes ↔
    leaf.IsIn m.nodes ∧ leaf.rule.isLeaf = true
  leaves_ordered : (Node.leavesOfEach m.nodes).Pairwise fun first second =>
    first.stop ≤ second.start
  covered_iff : ∀ (before : Text) (c : Char) (after : Text) (byte : Nat),
    m.text = before ++ c :: after → before.bytes ≤ byte → byte < before.bytes + c.utf8Size →
      (Node.IsCovered m.nodes byte ↔ ¬ Node.IsSpared m.nodes before.bytes c)

/-- Nodes that are laid out one after another along the text of a match are a forest. -/
theorem Match.IsForest.of_laid {m : Match} (h : Node.Laid 0 m.text m.nodes)
    (hlaid : Node.LaidOut m.nodes) : m.IsForest := by
  have hnested : ∀ node : Node, node.IsIn m.nodes →
      Node.Nested node.start node.text node.children := by
    intro node hnode
    exact (hlaid node hnode).nested
  constructor
  · exact h.nested
  · exact hnested
  · intro node hnode
    obtain ⟨before, after, hinside, hstart⟩ := h.nested.inside_of_isIn hnested hnode
    exact ⟨before, after, hinside, by rw [hstart, Nat.zero_add]⟩
  · intro node hnode
    exact (hlaid node hnode).exists_letters
  · intro leaf
    rw [Node.mem_leavesOfEach]
    exact and_congr_right fun hleaf => (hlaid leaf hleaf).children_eq_nil_iff
  · refine h.nested.leaves_ordered hlaid ?_
    intro node hnode
    exact (hlaid.of_mem hnode).leaves_ordered
  · intro before c after byte htext hle hlt
    have hcovered := hlaid.covered_iff h htext hle hlt
    rwa [Nat.zero_add, Nat.zero_add] at hcovered

end HornSyntax
