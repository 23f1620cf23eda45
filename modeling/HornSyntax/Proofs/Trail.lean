import HornSyntax.Proofs.Shape

/-!
Reading that writes marks as it goes: one where the node of a rule opens, and one
where it closes. All marks go onto a single list, and an alternative that is given
up has written some by then. What fails takes its marks back, by the number of
marks that stood there before. In the end the marks are those of the nodes of the
match.
-/

namespace HornSyntax

/-- The byte at which the node of a rule opens or closes. -/
inductive Mark where
  | opened (r : Rule) (byte : Nat)
  | closed (r : Rule) (byte : Nat)

/-- On success the text of a match and the rest, and in either case the marks
that are there. -/
structure Trail where
  found : Option (Text × Text)
  marks : List Mark

/-- Reads at a place of a text, and writes marks behind those that are there. -/
abbrev Marker := Nat → Text → List Mark → Trail

namespace Marker

/-- Reads without a mark. -/
def plain (p : Reader) : Marker := fun offset text marks =>
  ⟨(p offset text).found.map fun m => (m.text, m.rest), marks⟩

/-- The marks of both parts are taken back where either of them fails. -/
def followedBy (t u : Marker) : Marker := fun offset text marks =>
  let first := t offset text marks
  match first.found with
  | none => ⟨none, first.marks.take marks.length⟩
  | some (used, rest) =>
    let second := u (offset + used.bytes) rest first.marks
    match second.found with
    | none => ⟨none, second.marks.take marks.length⟩
    | some (used', rest') => ⟨some (used ++ used', rest'), second.marks⟩

/-- The second marker goes on with whatever marks the first leaves. -/
def orElse (t u : Marker) : Marker := fun offset text marks =>
  let first := t offset text marks
  match first.found with
  | some _ => first
  | none => u offset text first.marks

def optional (t : Marker) : Marker := t.orElse (plain .empty)

def rounds (t : Marker) : Text → Marker
  | [] => t.optional
  | _ :: bound => (t.followedBy (rounds t bound)).optional

def many (gap t : Marker) : Marker := fun offset text marks =>
  (t.followedBy (rounds (gap.followedBy t) text)).optional offset text marks

end Marker

/-- Reads a pattern with a given marker for the rules in it. -/
def Pattern.mark (gap : Marker) (sub : Rule → Marker) : Pattern → Marker
  | rule r => sub r
  | seq p q => (p.mark gap sub).followedBy (gap.followedBy (q.mark gap sub))
  | choice p q => (p.mark gap sub).orElse (q.mark gap sub)
  | optional p => (p.mark gap sub).optional
  | many p => .many gap (p.mark gap sub)
  | empty => .plain .empty
  | ending => .plain .ending
  | one accepts => .plain (.one accepts)
  | word letters => .plain (.word letters)

namespace Rule

/-- Marks where the node of a rule opens before its body is read, and where it
closes once it has been. A silent rule leaves no marks of its own. -/
def enclose (r : Rule) (body : Marker) : Marker := fun offset text marks =>
  if r.silent then body offset text marks
  else
    let inner := body offset text (marks ++ [.opened r offset])
    match inner.found with
    | some (used, rest) =>
      ⟨some (used, rest), inner.marks ++ [.closed r (offset + used.bytes)]⟩
    | none => ⟨none, inner.marks.take marks.length⟩

/-- Reads a rule, calling other rules at most `depth` deep. -/
def mark : Nat → Rule → Marker
  | 0, _ => .plain .fail
  | depth + 1, r => r.enclose (r.body.mark (.plain r.gap) (mark depth))

/-- The marks that are there when a rule has been read at the beginning of a text. -/
def trail (r : Rule) (text : Text) : List Mark := (mark (depth text) r 0 text []).marks

end Rule

namespace Node

mutual

/-- The marks of a node around those of the nodes inside it. -/
def marks : Node → List Mark
  | ⟨r, start, text, children⟩ =>
    .opened r start :: (marksOfEach children ++ [.closed r (start + text.bytes)])

def marksOfEach : List Node → List Mark
  | [] => []
  | node :: rest => node.marks ++ marksOfEach rest

end

theorem marksOfEach_append (nodes nodes' : List Node) :
    marksOfEach (nodes ++ nodes') = marksOfEach nodes ++ marksOfEach nodes' := by
  induction nodes with
  | nil => rfl
  | cons node nodes ih => simp only [List.cons_append, marksOfEach, ih, List.append_assoc]

end Node

/-- The marks of the nodes of a match stand behind those that were there before,
and where there is no match nothing has changed. -/
def Outcome.trail (outcome : Outcome) (marks : List Mark) : Trail :=
  match outcome.found with
  | none => ⟨none, marks⟩
  | some m => ⟨some (m.text, m.rest), marks ++ Node.marksOfEach m.nodes⟩

namespace Outcome

variable {outcome : Outcome} {m : Match}

theorem trail_of_none (h : outcome.found = none) (marks : List Mark) :
    outcome.trail marks = ⟨none, marks⟩ := by
  simp only [trail, h]

theorem trail_of_some (h : outcome.found = some m) (marks : List Mark) :
    outcome.trail marks = ⟨some (m.text, m.rest), marks ++ Node.marksOfEach m.nodes⟩ := by
  simp only [trail, h]

end Outcome

/-- A marker that finds what a reader finds, and leaves the marks of its nodes. -/
def Marker.Traces (t : Marker) (p : Reader) : Prop :=
  ∀ offset text marks, t offset text marks = (p offset text).trail marks

namespace Marker.Traces

variable {gap t u : Marker} {between p q : Reader}

/-- A reader that makes no nodes needs no marks. -/
theorem plain (h : p.Forms (· = [])) : (Marker.plain p).Traces p := by
  intro offset text marks
  cases hfound : (p offset text).found with
  | none => rw [Outcome.trail_of_none hfound, Marker.plain, hfound, Option.map_none]
  | some m =>
    have hnodes := List.map_eq_nil_iff.mp (h _ _ m hfound).1
    rw [Outcome.trail_of_some hfound, Marker.plain, hfound, Option.map_some, hnodes,
      Node.marksOfEach, List.append_nil]

theorem followedBy (ht : t.Traces p) (hu : u.Traces q) :
    (t.followedBy u).Traces (p.followedBy q) := by
  intro offset text marks
  cases hfirst : (p offset text).found with
  | none =>
    have hnone : (p.followedBy q offset text).found = none := by
      simp only [Reader.followedBy, hfirst]
    rw [Outcome.trail_of_none hnone]
    simp only [Marker.followedBy, ht offset text marks, Outcome.trail_of_none hfirst,
      List.take_length]
  | some first =>
    simp only [Marker.followedBy, ht offset text marks, Outcome.trail_of_some hfirst, hu _ _ _]
    cases hsecond : (q (offset + first.text.bytes) first.rest).found with
    | none =>
      have hnone : (p.followedBy q offset text).found = none := by
        simp only [Reader.followedBy, hfirst, hsecond, Option.map_none]
      rw [Outcome.trail_of_none hnone]
      simp only [Outcome.trail_of_none hsecond, List.take_left]
    | some second =>
      have hsome : (p.followedBy q offset text).found = some (first.append second) := by
        simp only [Reader.followedBy, hfirst, hsecond, Option.map_some]
      rw [Outcome.trail_of_some hsome]
      simp only [Outcome.trail_of_some hsecond, Match.append, Node.marksOfEach_append,
        List.append_assoc]

theorem orElse (ht : t.Traces p) (hu : u.Traces q) : (t.orElse u).Traces (p.orElse q) := by
  intro offset text marks
  cases hfirst : (p offset text).found with
  | none =>
    have hfound : (p.orElse q offset text).found = (q offset text).found := by
      simp only [Reader.orElse, hfirst]
    simp only [Marker.orElse, ht offset text marks, Outcome.trail_of_none hfirst]
    rw [hu offset text marks, Outcome.trail, Outcome.trail, hfound]
  | some m =>
    have hfound : (p.orElse q offset text).found = some m := by
      simp only [Reader.orElse, hfirst]
    rw [Outcome.trail_of_some hfound]
    simp only [Marker.orElse, ht offset text marks, Outcome.trail_of_some hfirst]

theorem optional (ht : t.Traces p) : t.optional.Traces p.optional := ht.orElse (.plain .empty)

theorem rounds (ht : t.Traces p) (bound : Text) : (t.rounds bound).Traces (p.rounds bound) := by
  induction bound with
  | nil => exact ht.optional
  | cons c bound ih => exact (ht.followedBy ih).optional

theorem many (hgap : gap.Traces between) (ht : t.Traces p) :
    (Marker.many gap t).Traces (Reader.many between p) := by
  intro offset text marks
  exact (ht.followedBy ((hgap.followedBy ht).rounds text)).optional offset text marks

end Marker.Traces

/-- Where the markers of rules leave the marks of their nodes, so does that of a pattern. -/
theorem Pattern.traces_mark {gap : Marker} {between : Reader} {sub : Rule → Marker}
    {sub' : Rule → Reader} (hgap : gap.Traces between) (hsub : ∀ r, (sub r).Traces (sub' r))
    (p : Pattern) : (p.mark gap sub).Traces (p.read between sub') := by
  induction p with
  | rule r => exact hsub r
  | seq p q ihp ihq => exact ihp.followedBy (hgap.followedBy ihq)
  | choice p q ihp ihq => exact ihp.orElse ihq
  | optional p ih => exact ih.optional
  | many p ih => exact hgap.many ih
  | empty => exact .plain .empty
  | ending => exact .plain .ending
  | one accepts => exact .plain (.one accepts)
  | word letters => exact .plain (.word letters)

namespace Rule

theorem traces_enclose {r : Rule} {t : Marker} {p : Reader} (h : t.Traces p) :
    (r.enclose t).Traces (r.conclude p) := by
  intro offset text marks
  unfold enclose conclude
  by_cases hr : r.silent = true
  · simp only [hr, if_true]
    exact h offset text marks
  · simp only [hr, Bool.false_eq_true, if_false, h offset text _]
    cases hfound : (p offset text).found with
    | none => simp only [Outcome.trail, hfound, List.take_left]
    | some m =>
      simp only [Outcome.trail, hfound, Node.marksOfEach, Node.marks, List.append_assoc,
        List.cons_append, List.nil_append, List.append_nil]

theorem traces_mark (depth : Nat) (r : Rule) : (mark depth r).Traces (read depth r) := by
  induction depth generalizing r with
  | zero =>
    refine .plain ?_
    intro offset text m h
    cases h
  | succ depth ih => exact traces_enclose (Pattern.traces_mark (.plain r.forms_gap) ih r.body)

variable {r : Rule} {text : Text} {m : Match}

theorem trail_eq (r : Rule) (text : Text) : r.trail text = ((r.reader 0 text).trail []).marks :=
  congrArg Trail.marks (traces_mark (depth text) r 0 text [])

/-- The marks that are left are those of the nodes of the match. -/
theorem trail_of_found (h : (r.reader 0 text).found = some m) :
    r.trail text = Node.marksOfEach m.nodes := by
  rw [trail_eq, Outcome.trail_of_some h, List.nil_append]

end Rule

end HornSyntax
