import HornSyntax.Proofs.Clauses
import HornSyntax.Program.OfNodes

/-!
What a successful reading makes. Every reader turns the tokens that its text
spells into nodes, and how the two belong together follows the way in which the
reader is put together. From the nodes the syntax tree is built, and its tokens
are again those of the text.
-/

namespace HornSyntax

open Reader CharacterClass

/-- On texts of at most `limit` characters all matches spell tokens that belong
to their nodes. -/
def Reader.Makes (p : Reader) (limit : Nat) (made : List Node → List Token → Prop) : Prop :=
  ∀ offset text m, text.length ≤ limit → (p offset text).found = some m →
    ∃ ts, Spelled ts m.text ∧ made m.nodes ts

/-- Nodes and tokens of one kind, and then those of another. -/
def Joined (first second : List Node → List Token → Prop) (nodes : List Node) (ts : List Token) :
    Prop :=
  ∃ nodes₁ nodes₂ ts₁ ts₂, nodes = nodes₁ ++ nodes₂ ∧ ts = ts₁ ++ ts₂ ∧ first nodes₁ ts₁ ∧
    second nodes₂ ts₂

/-- Nodes and tokens of one kind any number of times. -/
inductive Repeated (made : List Node → List Token → Prop) : List Node → List Token → Prop
  | nil : Repeated made [] []
  | cons {nodes₁ nodes₂ : List Node} {ts₁ ts₂ : List Token} (hfirst : made nodes₁ ts₁)
      (hmore : Repeated made nodes₂ ts₂) : Repeated made (nodes₁ ++ nodes₂) (ts₁ ++ ts₂)

/-- The one node of a rule, over what its body makes. -/
def Topped (r : Rule) (made : List Node → List Token → Prop) (nodes : List Node)
    (ts : List Token) : Prop :=
  ∃ start text inner, nodes = [⟨r, start, text, inner⟩] ∧ made inner ts

namespace Reader

variable {p q : Reader} {limit : Nat} {made made' : List Node → List Token → Prop}

namespace Makes

theorem mono (h : p.Makes limit made) {limit' : Nat} (hlimit : limit' ≤ limit)
    (hmade : ∀ nodes ts, made nodes ts → made' nodes ts) : p.Makes limit' made' := by
  intro offset text m htext hm
  obtain ⟨ts, hspelled, hts⟩ := h offset text m (Nat.le_trans htext hlimit) hm
  exact ⟨ts, hspelled, hmade _ _ hts⟩

theorem blanks_followedBy (h : p.Makes limit made) : (blanks.followedBy p).Makes limit made := by
  intro offset text m htext hm
  obtain ⟨first, second, hfirst, hsecond, rfl⟩ := followedBy_found hm
  have hlength := splits_blanks.length_eq hfirst
  obtain ⟨ts, hspelled, hts⟩ := h _ _ second (by omega) hsecond
  obtain rfl := Option.some.inj hfirst
  exact ⟨ts, hspelled.blanks_append List.all_takeWhile, hts⟩

/-- The second reader matters on what the first one leaves. -/
theorem followedBy {least limit' : Nat} (hp : p.Makes limit made) (hsplits : p.Splits)
    (htakes : p.Takes least) (hq : q.Makes limit' made') (hlimit : limit ≤ limit' + least) :
    (p.followedBy q).Makes limit (Joined made made') := by
  intro offset text m htext hm
  obtain ⟨first, second, hfirst, hsecond, rfl⟩ := followedBy_found hm
  have hlength := hsplits.length_eq hfirst
  have htaken := htakes _ _ _ hfirst
  obtain ⟨ts, hspelled, hts⟩ := hp _ _ first htext hfirst
  obtain ⟨ts', hspelled', hts'⟩ := hq _ _ second (by omega) hsecond
  exact ⟨ts ++ ts', hspelled.append hspelled', _, _, _, _, rfl, rfl, hts, hts'⟩

theorem spaced (hp : p.Makes limit made) (hsplits : p.Splits) (hq : q.Makes limit made') :
    (p.spaced q).Makes limit (Joined made made') :=
  hp.followedBy hsplits (takes_zero p) hq.blanks_followedBy (Nat.le_refl _)

theorem orElse (hp : p.Makes limit made) (hq : q.Makes limit made') :
    (p.orElse q).Makes limit (fun nodes ts => made nodes ts ∨ made' nodes ts) := by
  intro offset text m htext hm
  rcases orElse_found hm with hm | ⟨-, hm⟩
  · obtain ⟨ts, hspelled, hts⟩ := hp _ _ m htext hm
    exact ⟨ts, hspelled, Or.inl hts⟩
  · obtain ⟨ts, hspelled, hts⟩ := hq _ _ m htext hm
    exact ⟨ts, hspelled, Or.inr hts⟩

theorem empty (limit : Nat) : Reader.empty.Makes limit (fun nodes ts => nodes = [] ∧ ts = []) := by
  intro offset text m _ hm
  obtain rfl := Option.some.inj hm
  exact ⟨[], .nil rfl, rfl, rfl⟩

theorem optional (h : p.Makes limit made) :
    p.optional.Makes limit (fun nodes ts => made nodes ts ∨ nodes = [] ∧ ts = []) :=
  h.orElse (.empty limit)

theorem rounds (h : p.Makes limit made) (hsplits : p.Splits) (bound : Text) :
    (p.rounds bound).Makes limit (Repeated made) := by
  induction bound with
  | nil =>
    refine h.optional.mono (Nat.le_refl _) ?_
    rintro nodes ts (hmade | ⟨rfl, rfl⟩)
    · simpa using Repeated.cons hmade .nil
    · exact .nil
  | cons c bound ih =>
    have hround := h.followedBy hsplits (takes_zero p) ih (Nat.le_refl _)
    refine hround.optional.mono (Nat.le_refl _) ?_
    rintro nodes ts (⟨_, _, _, _, rfl, rfl, hfirst, hmore⟩ | ⟨rfl, rfl⟩)
    · exact .cons hfirst hmore
    · exact .nil

theorem many (h : p.Makes limit made) (hsplits : p.Splits) :
    (many blanks p).Makes limit (Repeated made) := by
  intro offset text m htext hm
  have hrounds := h.blanks_followedBy.rounds (splits_blanks.followedBy hsplits) text
  have hround := h.followedBy hsplits (takes_zero p) hrounds (Nat.le_refl _)
  obtain ⟨ts, hspelled, hts⟩ := hround.optional offset text m htext hm
  refine ⟨ts, hspelled, ?_⟩
  rcases hts with ⟨_, _, _, _, hnodes, rfl, hfirst, hmore⟩ | ⟨hnodes, rfl⟩
  · rw [hnodes]
    exact .cons hfirst hmore
  · rw [hnodes]
    exact .nil

theorem conclude {r : Rule} (h : p.Makes limit made) (hr : r.silent = false) :
    (r.conclude p).Makes limit (Topped r made) := by
  intro offset text m htext hm
  obtain ⟨inner, hinner, hintext, -, hnodes⟩ := Rule.conclude_found hm
  obtain ⟨ts, hspelled, hts⟩ := h _ _ inner htext hinner
  rw [hintext, hnodes, hr]
  exact ⟨ts, hspelled, _, _, _, rfl, hts⟩

end Makes

end Reader

/-- The one node of a rule, from which a well-formed part of the tree is built. -/
def MadeOf {α : Type} (r : Rule) (build : Node → Option α) (wellFormed : α → Bool)
    (tokens : α → List Token) (nodes : List Node) (ts : List Token) : Prop :=
  ∃ start text inner a, nodes = [⟨r, start, text, inner⟩] ∧ build ⟨r, start, text, inner⟩ = some a ∧
    wellFormed a = true ∧ ts = tokens a

def MadeMark (t : Token) (nodes : List Node) (ts : List Token) : Prop :=
  ∃ start text, nodes = [⟨t.rule, start, text, []⟩] ∧ ts = [t]

section

variable {limit : Nat}

theorem makes_mark {t : Token} (ht : t.isMark = true) : t.rule.reader.Makes limit (MadeMark t) := by
  intro offset text m _ hm
  rw [Token.reader_rule ht] at hm
  obtain ⟨inner, hinner, htext, -, hnodes⟩ := Rule.conclude_found hm
  obtain ⟨rest, -, rfl⟩ := Option.map_eq_some_iff.mp hinner
  rw [htext, hnodes, t.silent_rule]
  exact ⟨[t], .token t, offset, t.text, rfl, rfl⟩

theorem makes_run {r : Rule} {first more : Char → Bool} {token : Text → Token}
    (hr : r.reader = r.conclude (Reader.run first more)) (hsilent : r.silent = false)
    (htext : ∀ run, (token run).text = run) :
    r.reader.Makes limit fun nodes ts => ∃ start run, nodes = [⟨r, start, run, []⟩] ∧
      run.isRun first more = true ∧ ts = [token run] := by
  intro offset text m _ hm
  rcases Rule.run_cases hr hsilent offset text with ⟨run, rest, -, hrun, -, hread⟩ | ⟨-, hread⟩
  · rw [hread] at hm
    obtain rfl := Option.some.inj hm
    have hspelled := Spelled.token (token run)
    rw [htext] at hspelled
    exact ⟨[token run], hspelled, offset, run, rfl, hrun, rfl⟩
  · rw [hread] at hm
    cases hm

theorem makes_quotedAtom {token : Atom → Token} (htext : ∀ a, (token a).text = a.text) :
    Rule.quotedAtom.reader.Makes limit fun nodes ts => ∃ start start' text letters,
      nodes = [⟨.quotedAtom, start, text, [⟨.string, start', letters, []⟩]⟩] ∧
      letters.isRun isQuotable isQuotable = true ∧ ts = [token (.quoted letters)] := by
  intro offset text m _ hm
  rcases Rule.quotedAtom_cases offset text with
    ⟨letters, rest, -, hrun, hread⟩ | ⟨rest, -, -, hread⟩ | ⟨-, -, hread⟩
  · rw [hread] at hm
    obtain rfl := Option.some.inj hm
    have hspelled := Spelled.token (token (.quoted letters))
    rw [htext] at hspelled
    exact ⟨_, hspelled, _, _, _, letters, rfl, hrun, rfl⟩
  · rw [hread] at hm
    cases hm
  · rw [hread] at hm
    cases hm

theorem makes_atom {token : Atom → Token} (htext : ∀ a, (token a).text = a.text) :
    Rule.atom.reader.Makes limit (MadeOf .atom Atom.ofNode? Atom.wellFormed fun a => [token a]) := by
  have hsmall := @makes_run limit _ _ _ (fun run => token (.name run)) Rule.reader_smallAtom rfl
    fun run => htext (.name run)
  rw [Rule.reader_atom]
  refine ((hsmall.orElse (makes_quotedAtom htext)).conclude rfl).mono (Nat.le_refl _) ?_
  rintro _ ts ⟨start, text, inner, rfl,
    ⟨start', run, rfl, hrun, rfl⟩ | ⟨_, _, _, letters, rfl, hrun, rfl⟩⟩
  · exact ⟨start, text, _, .name run, rfl, rfl, hrun, rfl⟩
  · exact ⟨start, text, _, .quoted letters, rfl, rfl, hrun, rfl⟩

/-- Items with commas between them make the list of what is built from each. -/
theorem exists_of_separated {α : Type} {r : Rule} {build : Node → Option α}
    {buildEach : List Node → Option (List α)} {wellFormed : α → Bool} {tokens : α → List Token}
    (hnil : buildEach [] = some [])
    (hcomma : ∀ start text inner rest,
      buildEach (⟨.comma, start, text, inner⟩ :: rest) = buildEach rest)
    (hcons : ∀ start text inner rest a as, build ⟨r, start, text, inner⟩ = some a →
      buildEach rest = some as → buildEach (⟨r, start, text, inner⟩ :: rest) = some (a :: as))
    {nodes : List Node} {ts : List Token}
    (h : Joined (MadeOf r build wellFormed tokens)
      (Repeated (Joined (MadeMark .comma) (MadeOf r build wellFormed tokens))) nodes ts) :
    ∃ as, buildEach nodes = some as ∧ as ≠ [] ∧ (∀ a ∈ as, wellFormed a = true) ∧
      ts = Token.separated (as.map tokens) := by
  obtain ⟨_, more, _, ts', rfl, rfl, ⟨start, text, inner, a, rfl, ha, hwf, rfl⟩, hmore⟩ := h
  have hrest : ∃ as, buildEach more = some as ∧ (∀ a ∈ as, wellFormed a = true) ∧
      ts' = (as.map tokens).flatMap (Token.comma :: ·) := by
    clear ha hwf
    induction hmore with
    | nil => exact ⟨[], hnil, by simp, rfl⟩
    | cons hfirst _ ih =>
      obtain ⟨_, _, _, _, rfl, rfl, ⟨_, _, rfl, rfl⟩, start, text, inner, b, rfl, hb, hwf, rfl⟩ :=
        hfirst
      obtain ⟨as, has, hall, rfl⟩ := ih
      refine ⟨b :: as, ?_, List.forall_mem_cons.mpr ⟨hwf, hall⟩, ?_⟩
      · exact (hcomma _ _ _ _).trans (hcons _ _ _ _ _ _ hb has)
      · simp
  obtain ⟨as, has, hall, rfl⟩ := hrest
  exact ⟨a :: as, hcons _ _ _ _ _ _ ha has, by simp, List.forall_mem_cons.mpr ⟨hwf, hall⟩, rfl⟩

end

end HornSyntax
