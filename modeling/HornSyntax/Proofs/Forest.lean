import HornSyntax.Proofs.Recognition
import HornSyntax.Proofs.Tiling
import HornSyntax.Proofs.Trail
import Mathlib

/-!
The forest of a match. Every node of it, however deep, is what its own rule makes
where the node begins, and is laid out along the text in one of three ways: a
token holds no nodes, a quotation holds its text, and any other node holds nodes
with nothing but blanks between them. So the forest is nested, and its leaves are
the tokens of the text.
-/

namespace HornSyntax

open Reader CharacterClass

/-- In a text that begins at a byte, a node is what its rule makes where it begins. -/
def Node.IsMatch (node : Node) (offset : Nat) (text : Text) : Prop :=
  ∃ before rest after : Text, text = before ++ rest ∧ node.start = offset + before.bytes ∧
    node.rule.silent = false ∧
    (node.rule.reader node.start rest).found = some ⟨[node], node.text, after⟩

theorem Node.IsMatch.append {node : Node} {before rest : Text} {offset : Nat}
    (h : node.IsMatch (offset + before.bytes) rest) : node.IsMatch offset (before ++ rest) := by
  obtain ⟨front, rest, after, rfl, hstart, hsilent, hfound⟩ := h
  refine ⟨before ++ front, rest, after, ?_, ?_, hsilent, hfound⟩
  · rw [List.append_assoc]
  · rw [hstart, Text.bytes_append, Nat.add_assoc]

namespace Node.Laid

variable {start : Nat} {gap text text' : Text} {nodes nodes' : List Node}

theorem blanks_append (hgap : gap.all isBlank = true) (h : Laid (start + gap.bytes) text nodes) :
    Laid start (gap ++ text) nodes := by
  cases h with
  | @blanks _ gap' hgap' => exact .blanks (by simp [hgap, hgap'])
  | @node _ gap' rest node nodes hgap' hstart hrest =>
    rw [← List.append_assoc]
    refine .node (by simp [hgap, hgap']) ?_ hrest
    rw [hstart, Text.bytes_append, Nat.add_assoc]

/-- What is laid along a text and along the text behind it is laid along both. -/
theorem append (h : Laid start text nodes) (h' : Laid (start + text.bytes) text' nodes') :
    Laid start (text ++ text') (nodes ++ nodes') := by
  induction h with
  | blanks hgap => exact h'.blanks_append hgap
  | @node start gap rest node nodes hgap hstart _ ih =>
    simp only [List.append_assoc, List.cons_append]
    refine .node hgap hstart (ih ?_)
    have hstop : node.stop + Text.bytes rest = start + Text.bytes (gap ++ (node.text ++ rest)) := by
      simp only [Text.bytes_append, Node.stop, hstart, Nat.add_assoc]
    rwa [hstop]

theorem singleton (node : Node) : Laid node.start node.text [node] := by
  have h : Laid node.start ([] ++ (node.text ++ [])) [node] := .node rfl rfl (.blanks rfl)
  simpa using h

end Node.Laid

/-- All matches have nodes with blanks between them, each of which its rule makes. -/
def Reader.Lays (p : Reader) : Prop :=
  ∀ offset text m, (p offset text).found = some m →
    Node.Laid offset m.text m.nodes ∧ ∀ node ∈ m.nodes, node.IsMatch offset text

namespace Reader.Lays

variable {gap p q : Reader}

theorem empty : Reader.empty.Lays := by
  intro offset text m h
  obtain rfl := Option.some.inj h
  exact ⟨.blanks rfl, by simp⟩

theorem blanks : Reader.blanks.Lays := by
  intro offset text m h
  obtain rfl := Option.some.inj h
  exact ⟨.blanks List.all_takeWhile, by simp⟩

theorem followedBy (hp : p.Lays) (hsplits : p.Splits) (hq : q.Lays) : (p.followedBy q).Lays := by
  intro offset text m h
  obtain ⟨first, second, hfirst, hsecond, rfl⟩ := followedBy_found h
  obtain ⟨hlaid, hmatch⟩ := hp _ _ first hfirst
  obtain ⟨hlaid', hmatch'⟩ := hq _ _ second hsecond
  refine ⟨hlaid.append hlaid', ?_⟩
  intro node hnode
  rcases List.mem_append.mp hnode with hnode | hnode
  · exact hmatch node hnode
  · rw [← hsplits _ _ _ hfirst]
    exact (hmatch' node hnode).append

theorem orElse (hp : p.Lays) (hq : q.Lays) : (p.orElse q).Lays := by
  intro offset text m h
  exact (orElse_found h).elim (hp _ _ m) fun h => hq _ _ m h.2

theorem optional (hp : p.Lays) : p.optional.Lays := hp.orElse .empty

theorem rounds (hp : p.Lays) (hsplits : p.Splits) (bound : Text) : (p.rounds bound).Lays := by
  induction bound with
  | nil => exact hp.optional
  | cons c bound ih => exact (hp.followedBy hsplits ih).optional

theorem many (hgap : gap.Lays) (hgapSplits : gap.Splits) (hp : p.Lays) (hsplits : p.Splits) :
    (many gap p).Lays := by
  intro offset text m h
  have hround := (hgap.followedBy hgapSplits hp).rounds (hgapSplits.followedBy hsplits) text
  exact (hp.followedBy hsplits hround).optional offset text m h

end Reader.Lays

/-- Patterns in which characters are read by other rules only. -/
def Pattern.isPhrase : Pattern → Bool
  | empty => true
  | rule r => !r.silent
  | seq p q | choice p q => p.isPhrase && q.isPhrase
  | optional p | many p => p.isPhrase
  | ending | one _ | word _ => false

namespace Rule

variable {r : Rule} {offset : Nat} {text : Text} {m : Match}

/-- A rule of a token, the rule of quotations, or one that is made up of other rules. -/
theorem kinds (hr : r.silent = false) : r.isLeaf = true ∨ r = quotedAtom ∨
    r.isLeaf = false ∧ r ≠ quotedAtom ∧ r.body.isPhrase = true := by
  revert hr
  cases r <;> decide

/-- A match of a rule is the node over a match of its body. -/
theorem reader_found (hr : r.silent = false) (h : (r.reader offset text).found = some m) :
    ∃ inner, (r.body.read r.gap reader offset text).found = some inner ∧
      m = ⟨[⟨r, offset, inner.text, inner.nodes⟩], inner.text, inner.rest⟩ := by
  rw [reader_eq] at h
  obtain ⟨inner, hinner, htext, hrest, hnodes⟩ := conclude_found h
  obtain ⟨nodes, mtext, rest⟩ := m
  refine ⟨inner, hinner, ?_⟩
  simp only [hr, Bool.false_eq_true, if_false] at htext hrest hnodes
  rw [htext, hrest, hnodes]

theorem lays_reader (hr : r.silent = false) : r.reader.Lays := by
  intro offset text m h
  obtain ⟨inner, hinner, rfl⟩ := reader_found hr h
  refine ⟨.singleton ⟨r, offset, inner.text, inner.nodes⟩, ?_⟩
  refine List.forall_mem_singleton.mpr ⟨[], text, inner.rest, rfl, rfl, hr, h⟩

theorem lays_gap (r : Rule) : r.gap.Lays := by
  unfold gap
  split
  · exact .blanks
  · exact .empty

end Rule

theorem Pattern.lays_read {gap : Reader} (hgap : gap.Lays) (hgapSplits : gap.Splits) (p : Pattern)
    (hp : p.isPhrase = true) : (p.read gap Rule.reader).Lays := by
  have hsplits : ∀ p : Pattern, (p.read gap Rule.reader).Splits := fun p =>
    Pattern.splits_read hgapSplits Rule.splits_reader p
  induction p with
  | empty => exact .empty
  | rule r => exact Rule.lays_reader (by simpa [isPhrase] using hp)
  | seq p q ihp ihq =>
    obtain ⟨hp, hq⟩ := Bool.and_eq_true_iff.mp hp
    exact (ihp hp).followedBy (hsplits p) (hgap.followedBy hgapSplits (ihq hq))
  | choice p q ihp ihq =>
    obtain ⟨hp, hq⟩ := Bool.and_eq_true_iff.mp hp
    exact (ihp hp).orElse (ihq hq)
  | optional p ih => exact (ih hp).optional
  | many p ih => exact .many hgap hgapSplits (ih hp) (hsplits p)
  | _ => cases hp

namespace Rule

variable {r : Rule} {offset : Nat} {text : Text} {m : Match}

theorem holds_of_isLeaf (hr : r.isLeaf = true) {rules : List Rule} (h : r.Holds rules) :
    rules = [] := by
  cases r <;> first | exact h | cases hr

theorem ne_nil_of_holds (hr : r.silent = false) (hleaf : r.isLeaf = false) {rules : List Rule}
    (h : r.Holds rules) : rules ≠ [] := by
  rintro rfl
  cases r <;> first | cases hr; done | cases hleaf; done | simp [Holds] at h

theorem not_blank_of_run {first more : Char → Bool}
    (hreader : r.reader = r.conclude (Reader.run first more)) (hr : r.silent = false)
    (hfirst : ∀ c, first c = true → isAlnum c = true)
    (hmore : ∀ c, more c = true → isAlnum c = true) (h : (r.reader offset text).found = some m) :
    ∀ c ∈ m.text, isBlank c = false := by
  rcases run_cases hreader hr offset text with ⟨run, rest, -, hrun, -, hread⟩ | ⟨-, hread⟩
  · rw [hread] at h
    obtain rfl := Option.some.inj h
    intro c hc
    apply Bool.eq_false_iff.mpr
    intro hblank
    have halnum := Text.isAlnum_of_isRun hfirst hmore hrun c hc
    rw [isAlnum_eq_false_of_isBlank hblank] at halnum
    cases halnum
  · rw [hread] at h
    cases h

theorem not_blank_of_mark {t : Token} (ht : t.isMark = true)
    (h : (t.rule.reader offset text).found = some m) : ∀ c ∈ m.text, isBlank c = false := by
  rw [Token.reader_rule ht] at h
  obtain ⟨inner, hinner, htext, -, -⟩ := conclude_found h
  obtain ⟨rest, -, rfl⟩ := Option.map_eq_some_iff.mp hinner
  have hfree : t.text.all (fun c => !isBlank c) = true := by
    cases t <;> first | (cases ht; done) | rfl
  rw [htext]
  intro c hc
  simpa using List.all_eq_true.mp hfree c hc

/-- No token holds a blank, but for quoted text. -/
theorem not_blank_of_isLeaf (hr : r.isLeaf = true) (hstring : r ≠ string)
    (h : (r.reader offset text).found = some m) : ∀ c ∈ m.text, isBlank c = false := by
  cases r with
  | string => exact absurd rfl hstring
  | smallAtom =>
    exact not_blank_of_run reader_smallAtom rfl (fun _ => isAlnum_of_isLower) (fun _ hc => hc) h
  | var => exact not_blank_of_run reader_var rfl (fun _ => isAlnum_of_isUpper) (fun _ hc => hc) h
  | numeral =>
    exact not_blank_of_run reader_numeral rfl (fun _ => isAlnum_of_isDigit)
      (fun _ => isAlnum_of_isDigit) h
  | neck => exact @not_blank_of_mark _ _ _ .neck rfl h
  | queryStart => exact @not_blank_of_mark _ _ _ .queryStart rfl h
  | dot => exact @not_blank_of_mark _ _ _ .dot rfl h
  | comma => exact @not_blank_of_mark _ _ _ .comma rfl h
  | lparen => exact @not_blank_of_mark _ _ _ .lparen rfl h
  | rparen => exact @not_blank_of_mark _ _ _ .rparen rfl h
  | endOfInput =>
    obtain ⟨inner, hinner, rfl⟩ := reader_found rfl h
    cases text with
    | nil =>
      obtain rfl := Option.some.inj hinner
      simp
    | cons c rest => cases hinner
  | _ => cases hr

/-- The text between two quotes is what its rule makes behind the first of them. -/
theorem found_string {letters rest : Text} (hrun : letters.isRun isQuotable isQuotable = true)
    (offset : Nat) : (string.reader offset (letters ++ '\'' :: rest)).found =
      some ⟨[⟨string, offset, letters, []⟩], letters, '\'' :: rest⟩ := by
  have hquote : ∀ c ∈ ('\'' :: rest).head?, isQuotable c = false := by
    rintro _ ⟨⟩
    decide
  have htake := Text.takeWhile_append_eq (isRun_all hrun) hquote
  have hdrop := Text.dropWhile_append_eq (isRun_all hrun) hquote
  rcases run_cases reader_string rfl offset (letters ++ '\'' :: rest) with
    ⟨run, after, htext, hrun', hafter, hread⟩ | ⟨hhead, -⟩
  · rw [htext, Text.takeWhile_append_eq (isRun_all hrun') hafter] at htake
    rw [htext, Text.dropWhile_append_eq (isRun_all hrun') hafter] at hdrop
    rw [hread, htake, hdrop]
  · cases letters with
    | nil => cases hrun
    | cons c more =>
      have hc := hhead c rfl
      rw [(Bool.and_eq_true_iff.mp hrun).1] at hc
      cases hc

/-- A quotation is its text between two quotes. -/
theorem exists_quotation (h : (quotedAtom.reader offset text).found = some m) :
    ∃ letters, m.nodes = [.quotation offset letters] ∧
      ∀ child ∈ (Node.quotation offset letters).children, child.IsMatch offset text := by
  rcases quotedAtom_cases offset text with
    ⟨letters, rest, rfl, hrun, hread⟩ | ⟨rest, -, -, hread⟩ | ⟨-, -, hread⟩
  · rw [hread] at h
    obtain rfl := Option.some.inj h
    refine ⟨letters, rfl, List.forall_mem_singleton.mpr ?_⟩
    exact ⟨['\''], letters ++ '\'' :: rest, '\'' :: rest, rfl, rfl, rfl,
      found_string hrun (offset + 1)⟩
  · rw [hread] at h
    cases h
  · rw [hread] at h
    cases h

/-- The one node of a match is laid out along its text. -/
theorem layout_of_found (hr : r.silent = false) (h : (r.reader offset text).found = some m) :
    ∃ node : Node, m.nodes = [node] ∧ node.Layout ∧
      ∀ child ∈ node.children, child.IsMatch offset text := by
  obtain ⟨inner, hinner, rfl⟩ := reader_found hr h
  obtain ⟨-, hshaped⟩ := forms_reader hr offset text _ h
  have hholds := (hshaped _ List.mem_cons_self).holds
  rcases kinds hr with hleaf | rfl | ⟨hleaf, hquoted, hphrase⟩
  · have hchildren : inner.nodes = [] := List.map_eq_nil_iff.mp (holds_of_isLeaf hleaf hholds)
    have hblank := fun hstring : r ≠ string => not_blank_of_isLeaf hleaf hstring h
    exact ⟨_, rfl, .token hleaf hchildren hblank, by simp [hchildren]⟩
  · obtain ⟨letters, hnodes, hmatch⟩ := exists_quotation h
    exact ⟨_, hnodes, .quotation offset letters, hmatch⟩
  · have hlays := Pattern.lays_read r.lays_gap r.splits_gap r.body hphrase
    obtain ⟨hlaid, hmatch⟩ := hlays _ _ inner hinner
    have hchildren : inner.nodes ≠ [] := fun hnil =>
      ne_nil_of_holds hr hleaf hholds (List.map_eq_nil_iff.mpr hnil)
    exact ⟨_, rfl, .phrase hleaf hquoted hchildren hlaid, hmatch⟩

end Rule

namespace Node.IsMatch

variable {node child : Node} {offset : Nat} {text : Text}

/-- The node that is made is laid out, and so the nodes right inside it are made. -/
theorem layout_and (h : node.IsMatch offset text) :
    node.Layout ∧ ∀ child ∈ node.children, child.IsMatch offset text := by
  obtain ⟨before, rest, after, rfl, hstart, hsilent, hfound⟩ := h
  obtain ⟨node', hnode, hlayout, hchildren⟩ := Rule.layout_of_found hsilent hfound
  obtain rfl : node = node' := by simpa using hnode
  rw [hstart] at hchildren
  exact ⟨hlayout, fun child hchild => (hchildren child hchild).append⟩

theorem holds (h : node.IsMatch offset text) : node.rule.Holds (node.children.map Node.rule) := by
  obtain ⟨before, rest, after, -, -, hsilent, hfound⟩ := h
  obtain ⟨-, hshaped⟩ := Rule.forms_reader hsilent _ _ _ hfound
  exact (hshaped node List.mem_cons_self).holds

/-- Where the roots of a forest are made by their rules, so is every node of it. -/
theorem of_isIn {nodes : List Node} (h : ∀ root ∈ nodes, root.IsMatch offset text)
    (hnode : node.IsIn nodes) : node.IsMatch offset text := by
  induction hnode with
  | root hnode => exact h _ hnode
  | inside _ hnode ih => exact ih.layout_and.2 _ hnode

end Node.IsMatch

namespace Rule

variable {r : Rule} {text : Text} {m : Match}

theorem lays_program : program.reader.Lays := by
  intro offset text m h
  rw [reader_eq] at h
  obtain ⟨inner, hinner, htext, -, hnodes⟩ := conclude_found h
  rw [htext, hnodes]
  exact Pattern.lays_read program.lays_gap program.splits_gap program.body rfl _ _ inner hinner

/-- The rules that make nodes are those that are not silent, and `program`. -/
theorem lays (hr : r.silent = false ∨ r = program) : r.reader.Lays := by
  rcases hr with hr | rfl
  · exact lays_reader hr
  · exact lays_program

/-- The nodes of a match are a forest along its text: they are nested, and their
leaves cover all of it but for the blanks outside of quoted text and the two quotes
of each quotation. Every node is what its rule makes where the node begins, and
holds what one way through the body of this rule makes. The marks that reading
leaves are those of the nodes, so none is left of an alternative that was given up. -/
theorem forest_of_matchText (hr : r.silent = false ∨ r = program) (h : r.matchText text = .ok m) :
    m.text ++ m.rest = text ∧ m.IsForest ∧
      (∀ node : Node, node.IsIn m.nodes →
        node.IsMatch 0 text ∧ node.rule.Holds (node.children.map Node.rule)) ∧
      r.trail text = Node.marksOfEach m.nodes := by
  have hfound := found_of_matchText h
  obtain ⟨hlaid, hroots⟩ := lays hr 0 text m hfound
  have hmatch : ∀ node : Node, node.IsIn m.nodes → node.IsMatch 0 text := by
    intro node hnode
    exact .of_isIn hroots hnode
  have hforest : m.IsForest := .of_laid hlaid fun node hnode => (hmatch node hnode).layout_and.1
  refine ⟨r.splits_reader _ _ _ hfound, hforest, ?_, trail_of_found hfound⟩
  intro node hnode
  exact ⟨hmatch node hnode, (hmatch node hnode).holds⟩

/-- Of an argument list that is not closed no mark is left, and the leaves are the
tokens in front of it. -/
theorem forest_of_unclosed_group :
    (predicate.silent = false ∨ predicate = program) ∧
      ∃ m, predicate.matchText "p('a b') (c".toList = .ok m ∧ m.text = "p('a b')".toList ∧
        (Node.leavesOfEach m.nodes).map (fun leaf => (leaf.start, leaf.text)) =
          [(0, "p".toList), (1, "(".toList), (3, "a b".toList), (7, ")".toList)] ∧
        m.IsForest ∧ predicate.trail "p('a b') (c".toList = Node.marksOfEach m.nodes := by
  have hr : predicate.silent = false ∨ predicate = program := Or.inl rfl
  have hparts : (predicate.reader 0 "p('a b') (c".toList).found.map (fun m =>
      (m.text, (Node.leavesOfEach m.nodes).map fun leaf => (leaf.start, leaf.text))) =
      some ("p('a b')".toList,
        [(0, "p".toList), (1, "(".toList), (3, "a b".toList), (7, ")".toList)]) := by cbv
  obtain ⟨m, hm, hmatch⟩ := Option.map_eq_some_iff.mp hparts
  obtain ⟨htext, hleaves⟩ := Prod.mk.inj hmatch
  obtain ⟨-, hforest, -, htrail⟩ := forest_of_matchText hr (matchText_of_some hm)
  exact ⟨hr, m, matchText_of_some hm, htext, hleaves, hforest, htrail⟩

end Rule

end HornSyntax
