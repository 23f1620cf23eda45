import HornSyntax.Proofs.Attempts
import HornSyntax.Proofs.Chunk
import Mathlib

/-!
Which parts of a text the diagnostics blame. Where the text is cut at its dots,
every part that is no clause has one diagnostic, which lies inside the part, and
the clauses have none. The clauses since the last error are read again by the
next attempt, so the induction keeps them apart from what is skipped for good.
-/

namespace HornSyntax

/-- There is a body at an index, and with its dot it is no clause. -/
def Malformed (bodies : List Text) (i : Nat) : Prop :=
  ∃ b, bodies[i]? = some b ∧ ¬ (b ++ ['.']).IsClause

/-- The byte where a body begins. -/
def bodyStart (bodies : List Text) (i : Nat) : Nat := (Text.chunks (bodies.take i)).bytes

/-- A diagnostic lies between the first byte of a body and its dot. -/
def Diagnostic.Within (d : Diagnostic) (bodies : List Text) (i : Nat) : Prop :=
  ∃ b, bodies[i]? = some b ∧ bodyStart bodies i ≤ d.offset ∧
    d.offset ≤ bodyStart bodies i + b.bytes

/-- The malformed bodies from an index on, with one diagnostic for each. -/
structure Blames (bodies : List Text) (first : Nat) (bad : List Nat) (ds : List Diagnostic) :
    Prop where
  increasing : bad.Pairwise (· < ·)
  mem_iff : ∀ i, i ∈ bad ↔ first ≤ i ∧ Malformed bodies i
  within : List.Forall₂ (fun i d => d.Within bodies i) bad ds

namespace Blames

variable {bodies : List Text} {first : Nat} {bad : List Nat} {ds : List Diagnostic} {b : Text}

theorem nil (bodies : List Text) : Blames bodies bodies.length [] [] := by
  constructor
  · exact .nil
  · intro i
    constructor
    · intro h
      cases h
    · intro h
      obtain ⟨hle, b, hb, -⟩ := h
      rw [List.getElem?_eq_none hle] at hb
      cases hb
  · exact .nil

/-- A clause in front is not blamed. -/
theorem clause (h : Blames bodies (first + 1) bad ds) (hb : bodies[first]? = some b)
    (hclause : (b ++ ['.']).IsClause) : Blames bodies first bad ds := by
  constructor
  · exact h.increasing
  · intro i
    rw [h.mem_iff]
    constructor
    · intro h
      exact ⟨by omega, h.2⟩
    · intro h
      obtain ⟨hle, hbad⟩ := h
      have hne : i ≠ first := by
        intro heq
        obtain ⟨b', hb', hnot⟩ := hbad
        rw [heq, hb] at hb'
        obtain rfl := Option.some.inj hb'
        exact hnot hclause
      exact ⟨by omega, hbad⟩
  · exact h.within

/-- A malformed body in front is blamed by a diagnostic in front. -/
theorem malformed {d : Diagnostic} (h : Blames bodies (first + 1) bad ds)
    (hbad : Malformed bodies first) (hd : d.Within bodies first) :
    Blames bodies first (first :: bad) (d :: ds) := by
  constructor
  · apply List.pairwise_cons.mpr
    refine ⟨?_, h.increasing⟩
    intro i hi
    have hle := ((h.mem_iff i).mp hi).1
    omega
  · intro i
    rw [List.mem_cons, h.mem_iff]
    constructor
    · intro hi
      rcases hi with rfl | ⟨hle, hi⟩
      · exact ⟨by omega, hbad⟩
      · exact ⟨by omega, hi⟩
    · intro hi
      obtain ⟨hle, hi⟩ := hi
      by_cases heq : i = first
      · exact Or.inl heq
      · exact Or.inr ⟨by omega, hi⟩
  · exact .cons hd h.within

end Blames

namespace Recovery

variable {bodies settled front more : List Text} {body query : Text} {s : Recovery}

/-- What follows a dot does not begin with a dot. -/
theorem head?_chunks_ne_dot (hmore : ∀ b ∈ more, b.IsBody) (hquery : query.IsBody) :
    ∀ c ∈ (Text.chunks more ++ (query ++ ['.'])).head?, c ≠ '.' := by
  have hbody : ∀ {b after : Text}, b.IsBody → ∀ c ∈ (b ++ after).head?, c ≠ '.' := by
    intro b after hb c hc heq
    cases b with
    | nil => exact hb.ne_nil rfl
    | cons d b =>
      obtain rfl := Option.some.inj hc
      exact hb.dot (by simp [heq])
  cases more with
  | nil =>
    rw [Text.chunks_nil, List.nil_append]
    exact hbody hquery
  | cons b more =>
    rw [Text.chunks_cons, List.append_assoc]
    exact hbody (hmore b (by simp))

theorem not_white_chunks (more : List Text) (query : Text) :
    (Text.chunks more ++ (query ++ ['.'])).all CharacterClass.isWhite = false := by
  apply List.all_eq_false.mpr
  exact ⟨'.', by simp, by decide⟩

/-- A malformed body after clauses is passed with one diagnostic, and the next
attempt begins right behind its dot. -/
theorem exists_past_of_body (hfront : ∀ g ∈ front, Text.IsClause (g ++ ['.']))
    (hbody : body.IsBody) (hclause : ¬ (body ++ ['.']).IsClause)
    (hquery : ¬ (body ++ ['.']).IsQuery)
    {text rest : Text} (hrest : ∀ c ∈ rest.head?, c ≠ '.')
    (hmore : rest.all CharacterClass.isWhite = false)
    (hs : s.remaining? text = some (Text.chunks front ++ (body ++ '.' :: rest))) :
    ∃ e : SyntaxError, (Text.chunks front).bytes ≤ e.offset ∧
      e.offset ≤ (Text.chunks front).bytes + body.bytes ∧
      (s.past e).consumed = s.consumed + (Text.chunks (front ++ [body])).bytes ∧
      ∀ s', Ends text .scanning (s.past e) s' → Ends text .scanning s s' := by
  obtain ⟨e, read, left, herror, rfl, hbefore, hafter⟩ :=
    exists_error_of_body hfront hbody hclause hquery rest
  have hleft : '.' ∉ left := fun hmem => hbody.dot (List.mem_append_right read hmem)
  have hcut : Text.Cut (left ++ '.' :: rest) left ['.'] rest :=
    Text.cut_single hleft fun heq => hrest '.' heq rfl
  have hoffset : e.offset = (Text.chunks front).bytes + read.bytes := by
    rw [SyntaxError.offset, hbefore, Text.bytes_append]
  refine ⟨e, by omega, ?_, ?_, ?_⟩
  · rw [Text.bytes_append]
    omega
  · rw [past_consumed, hafter, hcut.throughTerminators_eq, Text.chunks_append]
    simp only [Text.chunks_cons, Text.chunks_nil, Text.bytes_append, Text.bytes_cons]
    omega
  · intro s' hends
    apply Ends.of_error hs herror _ _ hends
    · simp [hafter]
    · rwa [hafter, hcut.afterTerminators_eq]

section

variable (hbodies : bodies = settled ++ front ++ more)
  (hconsumed : s.consumed = (Text.chunks settled).bytes)

include hbodies hconsumed

/-- Behind what is skipped come the clauses read so far and the other bodies. -/
theorem remaining?_of_bodies (last : Text) : s.remaining? (Text.chunks bodies ++ last) =
    some (Text.chunks front ++ (Text.chunks more ++ last)) := by
  apply remaining?_eq_some_iff.mpr
  exact ⟨Text.chunks settled, by simp [hbodies, Text.chunks_append], hconsumed.symm⟩

theorem diagnose_within {e : SyntaxError} (hget : bodies[(settled ++ front).length]? = some body)
    (hlow : (Text.chunks front).bytes ≤ e.offset)
    (hhigh : e.offset ≤ (Text.chunks front).bytes + body.bytes) :
    (s.diagnose e).Within bodies (settled ++ front).length := by
  have hstart : bodyStart bodies (settled ++ front).length =
      s.consumed + (Text.chunks front).bytes := by
    rw [bodyStart, hbodies, List.take_left, Text.chunks_append, Text.bytes_append, hconsumed]
  refine ⟨body, hget, ?_, ?_⟩
  · rw [hstart]
    show s.consumed + (Text.chunks front).bytes ≤ s.consumed + e.offset
    omega
  · rw [hstart]
    show s.consumed + e.offset ≤ s.consumed + (Text.chunks front).bytes + body.bytes
    omega

end

/-- From clauses that follow what is skipped, the malformed bodies after them
are blamed one by one. -/
theorem exists_ends_blames (hfront : ∀ g ∈ front, Text.IsClause (g ++ ['.']))
    (hmore : ∀ b ∈ more, b.IsBody ∧ ¬ (b ++ ['.']).IsQuery) (hbody : query.IsBody)
    (hquery : (query ++ ['.']).IsQuery) (hbodies : bodies = settled ++ front ++ more)
    (hconsumed : s.consumed = (Text.chunks settled).bytes) :
    ∃ s' bad ds, Ends (Text.chunks bodies ++ (query ++ ['.'])) .scanning s s' ∧
      s'.diagnostics = s.diagnostics ++ ds ∧ Blames bodies (settled ++ front).length bad ds := by
  -- The clauses wait in `front` until an error moves them to `settled`.
  induction more generalizing settled front s with
  | nil =>
    have hrest := remaining?_of_bodies hbodies hconsumed (query ++ ['.'])
    have hends := Ends.of_ok hrest (recognize_of_chunks hfront hquery)
    refine ⟨s, [], [], hends, by simp, ?_⟩
    rw [List.append_nil] at hbodies
    rw [← hbodies]
    exact .nil bodies
  | cons b more ih =>
    obtain ⟨⟨hb, hnotQuery⟩, hothers⟩ := List.forall_mem_cons.mp hmore
    have hget : bodies[(settled ++ front).length]? = some b := by
      rw [hbodies]
      simp
    by_cases hclause : (b ++ ['.']).IsClause
    · have hfront' : ∀ g ∈ front ++ [b], Text.IsClause (g ++ ['.']) :=
        List.forall_mem_append.mpr ⟨hfront, List.forall_mem_singleton.mpr hclause⟩
      obtain ⟨s', bad, ds, hends, hds, hblames⟩ :=
        ih hfront' hothers (by simp [hbodies]) hconsumed
      refine ⟨s', bad, ds, hends, hds, ?_⟩
      rw [← List.append_assoc, List.length_append] at hblames
      exact hblames.clause hget hclause
    · have hrest := remaining?_of_bodies hbodies hconsumed (query ++ ['.'])
      rw [Text.chunks_cons, List.append_assoc, List.cons_append] at hrest
      have hafter := head?_chunks_ne_dot (fun b hb => (hothers b hb).1) hbody
      obtain ⟨e, hlow, hhigh, hpast, hback⟩ := exists_past_of_body hfront hb hclause hnotQuery
        hafter (not_white_chunks more query) hrest
      have hwithin := diagnose_within hbodies hconsumed hget hlow hhigh
      have hnil : ∀ g ∈ ([] : List Text), Text.IsClause (g ++ ['.']) := by
        simp
      have hsettled : (s.past e).consumed = (Text.chunks (settled ++ (front ++ [b]))).bytes := by
        rw [hpast, hconsumed, Text.chunks_append settled, Text.bytes_append]
      obtain ⟨s', bad, ds, hends, hds, hblames⟩ :=
        ih hnil hothers (by simp [hbodies]) hsettled
      refine ⟨s', (settled ++ front).length :: bad, s.diagnose e :: ds, hback s' hends,
        by simp [hds], ?_⟩
      rw [List.append_nil, ← List.append_assoc, List.length_append] at hblames
      exact hblames.malformed ⟨b, hget, hclause⟩ hwithin

end Recovery

/-- One diagnostic for each malformed body, in its place, and no other. -/
theorem check_blames_malformed {bodies : List Text} {query : Text} (fileIndex : Nat)
    (hbodies : ∀ b ∈ bodies, b.IsBody ∧ ¬ (b ++ ['.']).IsQuery)
    (hquery : query.IsBody ∧ (query ++ ['.']).IsQuery) :
    ∃ bad : List Nat, bad.Pairwise (· < ·) ∧ (∀ i, i ∈ bad ↔ Malformed bodies i) ∧
      List.Forall₂ (fun i d => d.Within bodies i) bad
        (check (Text.chunks bodies ++ (query ++ ['.'])) fileIndex).diagnostics := by
  have hnil : ∀ g ∈ ([] : List Text), Text.IsClause (g ++ ['.']) := by
    simp
  have hsplit : bodies = [] ++ [] ++ bodies := by
    simp
  have hinitial : Recovery.initial.consumed = (Text.chunks []).bytes := rfl
  obtain ⟨s, bad, ds, hends, hds, hblames⟩ :=
    Recovery.exists_ends_blames hnil hbodies hquery.1 hquery.2 hsplit hinitial
  have hcheck : (check (Text.chunks bodies ++ (query ++ ['.'])) fileIndex).diagnostics = ds := by
    show (Recovery.finish _).diagnostics = ds
    rw [Recovery.finish_of_ends hends, hds]
    rfl
  refine ⟨bad, hblames.increasing, ?_, ?_⟩
  · intro i
    rw [hblames.mem_iff]
    simp
  · rw [hcheck]
    exact hblames.within

/-- An open group is blamed, and the clause behind it is not. -/
theorem check_blames_open_group :
    ∃ bad : List Nat, bad.Pairwise (· < ·) ∧ 0 ∈ bad ∧ 1 ∉ bad ∧
      List.Forall₂ (fun i d => d.Within [['p', '('], ['q']] i) bad
        (check "p(.q.?-a.".toList 7).diagnostics := by
  have hquery : Text.IsQuery (['?', '-', 'a'] ++ ['.']) := by
    refine ⟨[⟨.name ['a'], []⟩], by simp, by decide, ?_⟩
    exact Spelled.text_append .queryStart
      (Spelled.text_append (.name (.name ['a'])) (Spelled.token .dot))
  have hclause : Text.IsClause (['q'] ++ ['.']) := by
    refine ⟨⟨⟨.name ['q'], []⟩, []⟩, by decide, ?_⟩
    exact Spelled.text_append (.name (.name ['q'])) (Spelled.token .dot)
  have hopen : ¬ Text.IsClause (['p', '('] ++ ['.']) := by
    intro hp
    have hok := recognize_of_chunks (List.forall_mem_singleton.mpr hp) hquery
    have herror : (recognize (Text.chunks [['p', '(']] ++ (['?', '-', 'a'] ++ ['.']))).isOk =
        false := by cbv
    rw [hok] at herror
    cases herror
  have hbodies : ∀ b ∈ [['p', '('], ['q']], Text.IsBody b ∧ ¬ Text.IsQuery (b ++ ['.']) := by
    have herror : ∀ b ∈ [['p', '('], ['q']], (recognize (b ++ ['.'])).isOk = false := by
      intro b hb
      rcases List.mem_pair.mp hb with rfl | rfl
      · cbv
      · cbv
    have hbody : ∀ b ∈ [['p', '('], ['q']], Text.IsBody b := by decide
    intro b hb
    refine ⟨hbody b hb, ?_⟩
    intro hq
    have hfalse := herror b hb
    rw [hq.recognize] at hfalse
    cases hfalse
  have hbody : Text.IsBody ['?', '-', 'a'] := by decide
  have htext : Text.chunks [['p', '('], ['q']] ++ (['?', '-', 'a'] ++ ['.']) =
      "p(.q.?-a.".toList := by decide
  obtain ⟨bad, hincreasing, hmem, hwithin⟩ := check_blames_malformed 7 hbodies ⟨hbody, hquery⟩
  rw [htext] at hwithin
  refine ⟨bad, hincreasing, (hmem 0).mpr ⟨_, rfl, hopen⟩, ?_, hwithin⟩
  intro h
  obtain ⟨b, hb, hnot⟩ := (hmem 1).mp h
  obtain rfl := Option.some.inj hb
  exact hnot hclause

end HornSyntax
