import HornSyntax.Reader.Splitting

/-!
The depth of reading does not matter once it is enough. A static look at the
grammar bounds how many characters are taken before a rule is called, and a
rank of the rules goes down on calls before the first character. So a rule
reads as its body does with the other rules read in full.
-/

namespace HornSyntax

open Reader

/-- The least number of characters in a match of a rule. -/
def Rule.least : Rule → Nat
  | .endOfInput => 0
  | _ => 1

/-- The least number of characters in a match of a pattern. -/
def Pattern.least : Pattern → Nat
  | empty => 0
  | ending => 0
  | one _ => 1
  | word letters => letters.length
  | rule r => r.least
  | seq p q => p.least + q.least
  | choice p q => min p.least q.least
  | optional _ => 0
  | many _ => 0

/-- The rules that a pattern calls, each with the least number of characters
taken before, when `taken` of them are taken before the pattern. -/
def Pattern.calls (taken : Nat) : Pattern → List (Nat × Rule)
  | rule r => [(taken, r)]
  | seq p q => p.calls taken ++ q.calls (taken + p.least)
  | choice p q => p.calls taken ++ q.calls taken
  | optional p => p.calls taken
  | many p => p.calls taken
  | _ => []

namespace Rule

/-- Calls that take no character before go down in rank. -/
def rank : Rule → Nat
  | program => 7
  | clause | query | termList => 6
  | predicateList | term => 5
  | predicate | compound => 4
  | atom => 3
  | quotedAtom => 2
  | _ => 1

theorem one_le_rank (r : Rule) : 1 ≤ r.rank := by
  cases r <;> decide

theorem rank_le (r : Rule) : r.rank ≤ 7 := by
  cases r <;> decide

theorem least_le_body (r : Rule) : r.least ≤ r.body.least := by
  cases r <;> decide

/-- Two characters taken before a call make up for two ranks each. -/
theorem rank_lt_of_mem_calls (r : Rule) :
    ∀ call ∈ r.body.calls 0, call.2.rank + 1 ≤ r.rank + 2 * call.1 := by
  cases r <;> decide

end Rule

/-- The matches of a reader have a least length. -/
def Reader.Takes (least : Nat) (p : Reader) : Prop :=
  ∀ offset text m, (p offset text).found = some m → least ≤ m.text.length

theorem Pattern.takes_read {gap : Reader} {sub : Rule → Reader}
    (hsub : ∀ r, (sub r).Takes r.least) (p : Pattern) : (p.read gap sub).Takes p.least := by
  induction p with
  | empty => exact fun _ _ _ _ => Nat.zero_le _
  | ending => exact fun _ _ _ _ => Nat.zero_le _
  | one accepts =>
    intro offset text m h
    cases text with
    | nil => simp [Pattern.read, Reader.one] at h
    | cons c rest =>
      by_cases hc : accepts c = true
      · obtain rfl : _ = m := by simpa [Pattern.read, Reader.one, hc] using h
        exact Nat.le_refl _
      · simp [Pattern.read, Reader.one, hc] at h
  | word letters =>
    intro offset text m h
    obtain ⟨rest, -, rfl⟩ := Option.map_eq_some_iff.mp h
    exact Nat.le_refl _
  | rule r => exact hsub r
  | seq p q hp hq =>
    intro offset text m h
    obtain ⟨first, second, hfirst, hsecond, rfl⟩ := followedBy_found h
    obtain ⟨between, last, -, hlast, rfl⟩ := followedBy_found hsecond
    have hfirst := hp _ _ _ hfirst
    have hlast := hq _ _ _ hlast
    simp only [Match.append, List.length_append, Pattern.least]
    omega
  | choice p q hp hq =>
    intro offset text m h
    rcases orElse_found h with hfound | ⟨-, hfound⟩
    · exact Nat.le_trans (Nat.min_le_left _ _) (hp _ _ _ hfound)
    · exact Nat.le_trans (Nat.min_le_right _ _) (hq _ _ _ hfound)
  | optional p _ => exact fun _ _ _ _ => Nat.zero_le _
  | many p _ => exact fun _ _ _ _ => Nat.zero_le _

theorem Rule.takes_read (depth : Nat) (r : Rule) : (Rule.read depth r).Takes r.least := by
  induction depth generalizing r with
  | zero =>
    intro offset text m h
    simp [Rule.read, fail] at h
  | succ depth ih =>
    intro offset text m h
    obtain ⟨inner, hinner, htext, -, -⟩ := Rule.conclude_found h
    rw [htext]
    exact Nat.le_trans r.least_le_body (Pattern.takes_read ih r.body _ _ _ hinner)

/-- Two readers agree on every text that may be left of `total` characters
after `taken` of them. -/
def Reader.AgreeAfter (taken total : Nat) (p p' : Reader) : Prop :=
  ∀ offset text, text.length + taken ≤ total → p offset text = p' offset text

namespace Reader

theorem AgreeAfter.refl (taken total : Nat) (p : Reader) : AgreeAfter taken total p p :=
  fun _ _ _ => rfl

/-- The second reader matters only on what the first one leaves. -/
theorem AgreeAfter.followedBy {taken total least : Nat} {p p' q q' : Reader}
    (hp : AgreeAfter taken total p p') (hsplits : p'.Splits) (htakes : p'.Takes least)
    (hq : AgreeAfter (taken + least) total q q') :
    AgreeAfter taken total (p.followedBy q) (p'.followedBy q') := by
  intro offset text htext
  unfold Reader.followedBy
  rw [hp offset text htext]
  cases hfound : (p' offset text).found with
  | none => simp only [hfound]
  | some m =>
    have hlength := hsplits.length_eq hfound
    have htaken := htakes _ _ _ hfound
    simp only [hfound, hq (offset + m.text.bytes) m.rest (by omega)]

theorem AgreeAfter.orElse {taken total : Nat} {p p' q q' : Reader}
    (hp : AgreeAfter taken total p p') (hq : AgreeAfter taken total q q') :
    AgreeAfter taken total (p.orElse q) (p'.orElse q') := by
  intro offset text htext
  unfold Reader.orElse
  rw [hp offset text htext, hq offset text htext]

theorem AgreeAfter.optional {taken total : Nat} {p p' : Reader}
    (hp : AgreeAfter taken total p p') : AgreeAfter taken total p.optional p'.optional :=
  hp.orElse (AgreeAfter.refl taken total empty)

theorem takes_zero (p : Reader) : p.Takes 0 := fun _ _ _ _ => Nat.zero_le _

theorem AgreeAfter.rounds {taken total : Nat} {p p' : Reader}
    (hp : AgreeAfter taken total p p') (hsplits : p'.Splits) (bound : Text) :
    AgreeAfter taken total (p.rounds bound) (p'.rounds bound) := by
  induction bound with
  | nil => exact hp.optional
  | cons c bound ih => exact (hp.followedBy hsplits (takes_zero p') ih).optional

theorem AgreeAfter.many {taken total : Nat} {gap p p' : Reader}
    (hp : AgreeAfter taken total p p') (hgap : gap.Splits) (hsplits : p'.Splits) :
    AgreeAfter taken total (many gap p) (many gap p') := by
  intro offset text htext
  have hround : AgreeAfter taken total (gap.followedBy p) (gap.followedBy p') :=
    (AgreeAfter.refl taken total gap).followedBy hgap (takes_zero gap) hp
  exact (hp.followedBy hsplits (takes_zero p')
    (hround.rounds (hgap.followedBy hsplits) text)).optional offset text htext

end Reader

/-- Patterns read alike when the rules they call do, on the texts that may be
left when these calls are made. -/
theorem Pattern.agreeAfter_read {gap : Reader} {sub sub' : Rule → Reader} {total : Nat}
    (hgap : gap.Splits) (hsplits : ∀ r, (sub' r).Splits)
    (htakes : ∀ r, (sub' r).Takes r.least) (p : Pattern) (taken : Nat)
    (hcalls : ∀ call ∈ p.calls taken, AgreeAfter call.1 total (sub call.2) (sub' call.2)) :
    AgreeAfter taken total (p.read gap sub) (p.read gap sub') := by
  induction p generalizing taken with
  | empty => exact AgreeAfter.refl taken total _
  | ending => exact AgreeAfter.refl taken total _
  | one accepts => exact AgreeAfter.refl taken total _
  | word letters => exact AgreeAfter.refl taken total _
  | rule r => exact hcalls (taken, r) (List.mem_singleton.mpr rfl)
  | seq p q hp hq =>
    have hfirst := hp taken fun call hcall => hcalls call (List.mem_append_left _ hcall)
    have hsecond := hq (taken + p.least) fun call hcall =>
      hcalls call (List.mem_append_right _ hcall)
    exact hfirst.followedBy (Pattern.splits_read hgap hsplits p)
      (Pattern.takes_read htakes p)
      ((AgreeAfter.refl _ total gap).followedBy hgap (takes_zero gap) hsecond)
  | choice p q hp hq =>
    exact (hp taken fun call hcall => hcalls call (List.mem_append_left _ hcall)).orElse
      (hq taken fun call hcall => hcalls call (List.mem_append_right _ hcall))
  | optional p hp => exact (hp taken hcalls).optional
  | many p hp => exact (hp taken hcalls).many hgap (Pattern.splits_read hgap hsplits p)

namespace Rule

theorem agreeAfter_conclude {taken total : Nat} {body body' : Reader}
    (h : AgreeAfter taken total body body') (r : Rule) :
    AgreeAfter taken total (r.conclude body) (r.conclude body') := by
  intro offset text htext
  unfold conclude
  rw [h offset text htext]

/-- Any two depths read a text alike when both exceed the calls on it. -/
theorem read_eq_read {depth depth' : Nat} {r : Rule} {offset : Nat} {text : Text}
    (h : r.rank + 2 * text.length ≤ depth) (h' : r.rank + 2 * text.length ≤ depth') :
    read depth r offset text = read depth' r offset text := by
  induction depth generalizing depth' r offset text with
  | zero =>
    have := r.one_le_rank
    omega
  | succ depth ih =>
    cases depth' with
    | zero =>
      have := r.one_le_rank
      omega
    | succ depth' =>
      refine agreeAfter_conclude ?_ r offset text (Nat.le_refl (text.length + 0))
      refine Pattern.agreeAfter_read r.splits_gap (splits_read depth') (takes_read depth') _ 0 ?_
      intro call hcall offset rest hrest
      have hrank := r.rank_lt_of_mem_calls call hcall
      exact ih (by omega) (by omega)

theorem read_eq_reader {depth : Nat} {r : Rule} {offset : Nat} {text : Text}
    (h : r.rank + 2 * text.length ≤ depth) :
    read depth r offset text = r.reader offset text := by
  have := r.rank_le
  exact read_eq_read h (by unfold Rule.depth; omega)

/-- A rule reads as its body does, with every rule in it read in full. -/
theorem reader_eq (r : Rule) : r.reader = r.conclude (r.body.read r.gap reader) := by
  funext offset text
  have hdepth : Rule.depth text = (2 * text.length + 7) + 1 := rfl
  unfold reader
  rw [hdepth]
  refine agreeAfter_conclude ?_ r offset text (Nat.le_refl (text.length + 0))
  refine Pattern.agreeAfter_read r.splits_gap splits_reader ?_ _ 0 ?_
  · intro r offset text
    exact takes_read (Rule.depth text) r offset text
  · intro call hcall offset rest hrest
    have hrank := r.rank_lt_of_mem_calls call hcall
    have hr := r.rank_le
    exact read_eq_reader (by omega)

end Rule

end HornSyntax
