import HornSyntax.Proofs.Acceptance
import Mathlib.Data.List.Basic

/-!
What a reader takes where tokens of its phrase stand at the beginning of a text.
It never takes less than all of them. It may take more, since what follows can go
on with the last token or with the list that the phrase ends with, and takes just
them where what follows goes on with neither.
-/

namespace HornSyntax

open Reader CharacterClass

/-- A text from the first to the last of the tokens, with blanks between them only. -/
inductive Spans : List Token → Text → Prop
  | single (t : Token) : Spans [t] t.text
  | cons {gap rest : Text} {ts : List Token} (t : Token) (hgap : gap.all isBlank = true)
      (hrest : Spans ts rest) : Spans (t :: ts) (t.text ++ (gap ++ rest))

theorem Token.isBlank_eq_false_of_mem_getLast? {t : Token} (hwf : t.wellFormed = true) :
    ∀ c ∈ t.text.getLast?, isBlank c = false := by
  rcases t.text_cases hwf with hword | ⟨letters, hquotation, -⟩ | hmark
  · intro c hc
    apply Bool.eq_false_iff.mpr
    intro hblank
    have halnum := hword c (List.mem_of_getLast? hc)
    rw [isAlnum_eq_false_of_isBlank hblank] at halnum
    cases halnum
  · intro c hc
    rw [hquotation, List.getLast?_concat] at hc
    obtain rfl : '\'' = c := Option.some.inj hc
    decide
  · cases t with
    | name a | symbol a | var letters | numeral digits => cases hmark
    | _ =>
      rintro _ ⟨⟩
      rfl

namespace Spans

variable {ts us : List Token} {text : Text}

theorem exists_text_append {t : Token} (h : Spans (t :: ts) text) :
    ∃ more, text = t.text ++ more := by
  cases h with
  | single => exact ⟨[], (List.append_nil _).symm⟩
  | cons => exact ⟨_, rfl⟩

theorem text_eq {t : Token} (h : Spans [t] text) : text = t.text := by
  cases h with
  | single => rfl
  | cons _ _ hrest => cases hrest

/-- A text of two lists of tokens is one text of each, with blanks between the two. -/
theorem exists_append (h : Spans (ts ++ us) text) (hts : ts ≠ []) (hus : us ≠ []) :
    ∃ left gap right, text = left ++ (gap ++ right) ∧ gap.all isBlank = true ∧ Spans ts left ∧
      Spans us right := by
  induction ts generalizing text with
  | nil => exact absurd rfl hts
  | cons t ts ih =>
    rw [List.cons_append] at h
    generalize hvs : ts ++ us = vs at h
    cases h with
    | single => exact absurd (List.append_eq_nil_iff.mp hvs).2 hus
    | @cons gap rest _ _ hgap hrest =>
      subst hvs
      by_cases hempty : ts = []
      · subst hempty
        exact ⟨t.text, gap, rest, rfl, hgap, .single t, hrest⟩
      · obtain ⟨left, gap', right, rfl, hgap', hleft, hright⟩ := ih hrest hempty
        exact ⟨t.text ++ (gap ++ left), gap', right, by simp, hgap', .cons t hgap hleft, hright⟩

/-- A text of tokens is one from the first to the last of them, in blanks. -/
theorem exists_of_spelled (h : Spelled ts text) (hts : ts ≠ []) :
    ∃ before used after, text = before ++ (used ++ after) ∧ before.all isBlank = true ∧
      after.all isBlank = true ∧ Spans ts used := by
  induction h with
  | nil => exact absurd rfl hts
  | @cons gap rest t ts hgap hrest ih =>
    by_cases hempty : ts = []
    · subst hempty
      cases hrest with
      | nil hafter => exact ⟨gap, t.text, rest, rfl, hgap, hafter, .single t⟩
    · obtain ⟨between, used, after, rfl, hbetween, hafter, hused⟩ := ih hempty
      exact ⟨gap, _, after, by simp, hgap, hafter, .cons t hbetween hused⟩

/-- A text begins with no blank where its first token is well formed. -/
theorem dropBlanks_append (h : Spans ts text) (hwf : ∀ t ∈ ts, t.wellFormed = true)
    (rest : Text) : Text.dropBlanks (text ++ rest) = text ++ rest := by
  cases ts with
  | nil => cases h
  | cons t ts =>
    obtain ⟨more, rfl⟩ := h.exists_text_append
    rw [List.append_assoc]
    exact Token.dropBlanks_text_append (hwf t List.mem_cons_self) _

theorem ne_nil (h : Spans ts text) (hwf : ∀ t ∈ ts, t.wellFormed = true) : text ≠ [] := by
  cases ts with
  | nil => cases h
  | cons t ts =>
    obtain ⟨more, rfl⟩ := h.exists_text_append
    simp [Token.text_ne_nil (hwf t List.mem_cons_self)]

/-- A text ends with no blank where its last token is well formed. -/
theorem isBlank_eq_false_of_mem_getLast? (h : Spans ts text)
    (hwf : ∀ t ∈ ts, t.wellFormed = true) : ∀ c ∈ text.getLast?, isBlank c = false := by
  induction h with
  | single t => exact Token.isBlank_eq_false_of_mem_getLast? (hwf t List.mem_cons_self)
  | @cons gap rest ts t hgap hrest ih =>
    obtain ⟨ht, hmore⟩ := List.forall_mem_cons.mp hwf
    have hne := hrest.ne_nil hmore
    intro c hc
    rw [← List.append_assoc, List.getLast?_append_of_ne_nil _ hne] at hc
    exact ih hmore c hc

end Spans

namespace Text

variable {marks : List Char} {left rest text : Text}

/-- Neither a word nor a phrase goes on with the text. A phrase would with one of
the marks, and blanks may stand before it. -/
def EndsBefore (marks : List Char) (rest : Text) : Prop :=
  (∀ c ∈ rest.head?, isAlnum c = false) ∧ ∀ c ∈ rest.dropBlanks.head?, c ∉ marks

theorem dropBlanks_suffix (text : Text) : text.dropBlanks <:+ text := List.dropWhile_suffix _

theorem suffix_dropBlanks (h : left <:+ text) : left.dropBlanks <:+ text.dropBlanks := by
  obtain ⟨front, rfl⟩ := h
  induction front with
  | nil => exact List.suffix_refl _
  | cons c front ih =>
    change left.dropBlanks <:+ List.dropWhile isBlank (c :: (front ++ left))
    by_cases hc : isBlank c = true
    · rw [List.dropWhile_cons_of_pos hc]
      exact ih
    · rw [List.dropWhile_cons_of_neg hc]
      exact left.dropBlanks_suffix.trans (List.suffix_append (c :: front) left)

/-- A run that is read as far as it goes takes all of any run that begins the text. -/
theorem dropWhile_of_isRun {first more : Char → Bool} {run run' rest rest' : Text}
    (hrun : run.isRun first more = true) (hrun' : run'.isRun first more = true)
    (hrest' : ∀ c ∈ rest'.head?, more c = false) (h : run ++ rest = run' ++ rest') :
    rest' = rest.dropWhile more := by
  cases run with
  | nil => cases hrun
  | cons c tail =>
    cases run' with
    | nil => cases hrun'
    | cons c' tail' =>
      have htails := (List.cons.inj h).2
      have hall := (Bool.and_eq_true_iff.mp hrun).2
      have hall' := (Bool.and_eq_true_iff.mp hrun').2
      calc rest' = (tail' ++ rest').dropWhile more := (dropWhile_append_eq hall' hrest').symm
        _ = (tail ++ rest).dropWhile more := congrArg _ htails.symm
        _ = rest.dropWhile more := List.dropWhile_append_of_pos (List.all_eq_true.mp hall)

theorem EndsBefore.mono {marks' : List Char} (h : rest.EndsBefore marks)
    (hmarks : ∀ c ∈ marks', c ∈ marks) : rest.EndsBefore marks' :=
  ⟨h.1, fun c hc hmem => h.2 c hc (hmarks c hmem)⟩

end Text

theorem Opening.eq_of_ofChar {c d : Char} (h : ofChar d = .mark c) : d = c := by
  unfold ofChar at h
  split at h
  · cases h
  · split at h
    · cases h
    · split at h
      · cases h
      · exact Opening.mark.inj h

namespace Spans

variable {t : Token} {us : List Token} {used : Text}

/-- How a text begins that a text of the tokens begins. -/
theorem exists_append_eq_cons (h : Spans (t :: us) used) (hwf : t.wellFormed = true)
    (rest : Text) : ∃ c more, used ++ rest = c :: more ∧ Opening.ofChar c = t.opening := by
  obtain ⟨after, rfl⟩ := h.exists_text_append
  obtain ⟨c, more, htext, hopen⟩ := Token.exists_text_eq_cons hwf
  exact ⟨c, more ++ after ++ rest, by simp [htext], hopen⟩

/-- What comes before tokens that begin with another mark ends before them. -/
theorem endsBefore {c : Char} {marks : List Char} {gap : Text} (h : Spans (t :: us) used)
    (hwf : t.wellFormed = true) (hopen : t.opening = .mark c) (hc : c ∉ marks)
    (hgap : gap.all isBlank = true) (rest : Text) :
    Text.EndsBefore marks (gap ++ (used ++ rest)) := by
  obtain ⟨d, more, htext, hd⟩ := h.exists_append_eq_cons hwf rest
  rw [hopen] at hd
  obtain rfl := Opening.eq_of_ofChar hd
  rw [htext]
  constructor
  · intro e he
    cases gap with
    | nil =>
      obtain rfl : d = e := Option.some.inj he
      exact Opening.isAlnum_eq_false_of_ofChar hd
    | cons b gap =>
      obtain rfl : b = e := Option.some.inj he
      exact isAlnum_eq_false_of_isBlank (List.all_eq_true.mp hgap b List.mem_cons_self)
  · have hblank : isBlank d = false := Token.isBlank_eq_false_of_opening hopen
    rw [Text.dropBlanks_append hgap, Text.dropBlanks_eq_self (by simpa using hblank)]
    simpa using hc

end Spans

namespace Reader

/-- The first character of every match shows one of these. -/
def Opens (p : Reader) (openings : List Opening) : Prop :=
  ∀ total text rest, (p.view total text).left = some rest →
    ∃ c ∈ text.head?, Opening.ofChar c ∈ openings

/-- Where a text of the tokens stands, all of it is taken. What is left is what
follows but for its beginning, and all that follows where this ends the phrase. -/
structure Covers (p : Reader) (ends : Text → Prop) (ts : List Token) : Prop where
  ne_nil : ts ≠ []
  wellFormed : ∀ t ∈ ts, t.wellFormed = true
  exists_left : ∀ (total : Nat) (used rest : Text), Spans ts used →
    Text.bytes (used ++ rest) ≤ total → ∃ left, (p.view total (used ++ rest)).left = some left ∧
      left <:+ rest.dropBlanks ∧ (ends rest → left = rest.dropBlanks)

theorem left_conclude (r : Rule) (p : Reader) (total : Nat) (text : Text) :
    ((r.conclude p).view total text).left = (p.view total text).left := by
  cases h : (p.view total text).left with
  | some rest => rw [Rule.view_conclude_of_some h, h]
  | none =>
    cases hr : r.silent with
    | true => rw [Rule.conclude_of_silent hr, h]
    | false => rw [Rule.view_conclude_of_none hr h]

section

variable {p q : Reader} {total : Nat} {text left : Text} {openings openings' : List Opening}

theorem Splits.suffix_of_left (hp : p.Splits) (h : (p.view total text).left = some left) :
    left <:+ text.dropBlanks := by
  obtain ⟨m, hm, rfl⟩ := Option.map_eq_some_iff.mp h
  exact Text.suffix_dropBlanks ⟨m.text, hp _ _ _ hm⟩

/-- What is left of the rest is the rest but for its beginning. -/
theorem Splits.suffix_of_suffix {rest : Text} (hp : p.Splits)
    (h : (p.view total text).left = some left) (htext : text <:+ rest.dropBlanks) :
    left <:+ rest.dropBlanks := by
  have hblanks := Text.suffix_dropBlanks htext
  rw [Text.dropBlanks_dropBlanks] at hblanks
  exact (hp.suffix_of_left h).trans hblanks

theorem exists_left_many (p : Reader) (total : Nat) (text : Text) :
    ∃ left, ((many blanks p).view total text).left = some left := by
  have hview := view_optional (p.followedBy ((blanks.followedBy p).rounds text))
    (total - text.bytes) text
  exact ⟨_, congrArg View.left hview⟩

/-- A first round and further ones are rounds. -/
theorem left_many_of_spaced (hp : p.Splits) (htakes : p.Takes 1) (htext : text.bytes ≤ total)
    (h : ((p.spaced (many blanks p)).view total text).left = some left) :
    ((many blanks p).view total text).left = some left := by
  cases hfirst : (p.view total text).left with
  | none =>
    rw [view_spaced_of_none hfirst, hfirst] at h
    cases h
  | some rest =>
    rw [view_spaced_of_some hp htext hfirst] at h
    rwa [view_many_of_some hp htakes htext hfirst]

namespace Opens

theorem mono (h : p.Opens openings) (hsub : ∀ o ∈ openings, o ∈ openings') : p.Opens openings' := by
  intro total text rest hleft
  obtain ⟨c, hc, hmem⟩ := h total text rest hleft
  exact ⟨c, hc, hsub _ hmem⟩

theorem left_eq_none (h : p.Opens openings)
    (htext : ∀ c ∈ text.head?, Opening.ofChar c ∉ openings) : (p.view total text).left = none := by
  apply Option.eq_none_iff_forall_ne_some.mpr
  intro rest hleft
  obtain ⟨c, hc, hmem⟩ := h total text rest hleft
  exact htext c hc hmem

theorem left_eq_none_of_spans {t : Token} {us : List Token} {used : Text} (h : p.Opens openings)
    (hused : Spans (t :: us) used) (hwf : t.wellFormed = true) (ht : t.opening ∉ openings)
    (rest : Text) : (p.view total (used ++ rest)).left = none := by
  obtain ⟨c, more, htext, hc⟩ := hused.exists_append_eq_cons hwf rest
  refine h.left_eq_none ?_
  rw [htext]
  rintro _ ⟨⟩
  rwa [hc]

theorem spaced (h : p.Opens openings) (q : Reader) : (p.spaced q).Opens openings := by
  intro total text rest hleft
  cases hfirst : (p.view total text).left with
  | none =>
    rw [view_spaced_of_none hfirst, hfirst] at hleft
    cases hleft
  | some middle => exact h total text middle hfirst

theorem orElse (hp : p.Opens openings) (hq : q.Opens openings') :
    (p.orElse q).Opens (openings ++ openings') := by
  intro total text rest hleft
  cases hfirst : (p.view total text).left with
  | none =>
    rw [view_orElse_of_none hfirst] at hleft
    obtain ⟨c, hc, hmem⟩ := hq total text rest hleft
    exact ⟨c, hc, List.mem_append_right _ hmem⟩
  | some middle =>
    obtain ⟨c, hc, hmem⟩ := hp total text middle hfirst
    exact ⟨c, hc, List.mem_append_left _ hmem⟩

theorem conclude (h : p.Opens openings) (r : Rule) : (r.conclude p).Opens openings := by
  intro total text rest hleft
  rw [left_conclude] at hleft
  exact h total text rest hleft

end Opens

end

namespace Covers

variable {p q : Reader} {ends ends' : Text → Prop} {ts us : List Token} {t : Token}
  {marks : List Char} {c : Char}

theorem mono (h : p.Covers ends ts) (hends : ∀ rest, ends' rest → ends rest) :
    p.Covers ends' ts := by
  refine ⟨h.ne_nil, h.wellFormed, ?_⟩
  intro total used rest hused hbytes
  obtain ⟨left, hleft, hsuffix, hexact⟩ := h.exists_left total used rest hused hbytes
  exact ⟨left, hleft, hsuffix, fun hrest => hexact (hends rest hrest)⟩

/-- A reader that leaves the same covers the same. -/
theorem of_left (h : p.Covers ends ts)
    (hleft : ∀ (total : Nat) (used rest : Text) (left : Text), Spans ts used →
      Text.bytes (used ++ rest) ≤ total → (p.view total (used ++ rest)).left = some left →
        (q.view total (used ++ rest)).left = some left) : q.Covers ends ts := by
  refine ⟨h.ne_nil, h.wellFormed, ?_⟩
  intro total used rest hused hbytes
  obtain ⟨left, hp, hrest⟩ := h.exists_left total used rest hused hbytes
  exact ⟨left, hleft total used rest left hused hbytes hp, hrest⟩

theorem conclude (h : p.Covers ends ts) (r : Rule) : (r.conclude p).Covers ends ts :=
  h.of_left fun _ _ _ _ _ _ hleft => (left_conclude r p _ _).trans hleft

theorem orElse (h : p.Covers ends ts) (q : Reader) : (p.orElse q).Covers ends ts := by
  refine h.of_left ?_
  intro total used rest left _ _ hleft
  rwa [view_orElse_of_some hleft]

theorem optional (h : p.Covers ends ts) : p.optional.Covers ends ts := h.orElse empty

/-- The other choice is tried where the first one cannot begin. -/
theorem orElse_of_opens {openings : List Opening} (hq : q.Covers ends (t :: us))
    (hp : p.Opens openings) (ht : t.opening ∉ openings) : (p.orElse q).Covers ends (t :: us) := by
  refine hq.of_left ?_
  intro total used rest left hused _ hleft
  have hnone : (p.view total (used ++ rest)).left = none :=
    hp.left_eq_none_of_spans hused (hq.wellFormed t List.mem_cons_self) ht rest
  rwa [view_orElse_of_none hnone]

theorem spaced (hp : p.Splits) (h : p.Covers ends ts) (hq : q.Covers ends' us)
    (hends : ∀ gap used rest : Text, gap.all isBlank = true → Spans us used →
      ends (gap ++ (used ++ rest))) : (p.spaced q).Covers ends' (ts ++ us) := by
  refine ⟨by simp [h.ne_nil], ?_, ?_⟩
  · intro t ht
    exact (List.mem_append.mp ht).elim (h.wellFormed t) (hq.wellFormed t)
  · intro total used rest hused hbytes
    obtain ⟨before, gap, behind, rfl, hgap, hbefore, hbehind⟩ :=
      hused.exists_append h.ne_nil hq.ne_nil
    simp only [List.append_assoc] at hbytes ⊢
    obtain ⟨left, hleft, -, hexact⟩ := h.exists_left total before _ hbefore hbytes
    have hplace : left = behind ++ rest := by
      rw [hexact (hends gap behind rest hgap hbehind), Text.dropBlanks_append hgap,
        hbehind.dropBlanks_append hq.wellFormed]
    rw [view_spaced_of_some hp hbytes hleft, View.after_left, hplace]
    refine hq.exists_left total behind rest hbehind ?_
    simp only [Text.bytes_append] at hbytes ⊢
    omega

/-- The phrase before a mark ends there if the mark does not go on with it. -/
theorem before (h : p.Covers (Text.EndsBefore marks) ts) (hp : p.Splits)
    (hq : q.Covers ends (t :: us)) (hopen : t.opening = .mark c) (hc : c ∉ marks) :
    (p.spaced q).Covers ends (ts ++ t :: us) := by
  refine spaced hp h hq ?_
  intro gap used rest hgap hused
  exact hused.endsBefore (hq.wellFormed t List.mem_cons_self) hopen hc hgap rest

/-- A part is left out where it cannot begin. -/
theorem optional_spaced {openings : List Opening} (hq : q.Covers ends (t :: us)) (hp : p.Splits)
    (hopens : p.Opens openings) (ht : t.opening ∉ openings) :
    (p.optional.spaced q).Covers ends (t :: us) := by
  refine hq.of_left ?_
  intro total used rest left hused hbytes hleft
  have hnone : (p.view total (used ++ rest)).left = none :=
    hopens.left_eq_none_of_spans hused (hq.wellFormed t List.mem_cons_self) ht rest
  have hoptional : (p.optional.view total (used ++ rest)).left = some (used ++ rest) := by
    rw [view_optional_of_none hnone, hused.dropBlanks_append hq.wellFormed]
  rwa [view_spaced_of_some hp.optional hbytes hoptional]

/-- A first part and further rounds, each of which begins with the same mark. -/
theorem rounds {more : List (List Token)} (h : p.Covers (Text.EndsBefore marks) ts) (hp : p.Splits)
    (hq : q.Splits) (htakes : q.Takes 1) (hopens : q.Opens [.mark c]) (hopen : t.opening = .mark c)
    (hc : c ∉ marks) (hmore : ∀ us ∈ more, q.Covers (Text.EndsBefore marks) (t :: us)) :
    (p.spaced (many blanks q)).Covers (Text.EndsBefore (c :: marks))
      (ts ++ more.flatMap (t :: ·)) := by
  -- For any reader of the first part, since behind it the next round is the first part.
  induction more generalizing p ts with
  | nil =>
    rw [List.flatMap_nil, List.append_nil]
    refine ⟨h.ne_nil, h.wellFormed, ?_⟩
    intro total used rest hused hbytes
    obtain ⟨left, hleft, hsuffix, hexact⟩ := h.exists_left total used rest hused hbytes
    obtain ⟨last, hlast⟩ := exists_left_many q total left
    have hsuffix' := (Splits.many splits_blanks hq).suffix_of_suffix hlast hsuffix
    rw [view_spaced_of_some hp hbytes hleft, View.after_left]
    refine ⟨last, hlast, hsuffix', ?_⟩
    intro hends
    obtain rfl := hexact (hends.mono fun _ hmem => List.mem_cons_of_mem _ hmem)
    have hnone : (q.view total rest.dropBlanks).left = none := by
      refine hopens.left_eq_none ?_
      intro d hd hmem
      obtain rfl := Opening.eq_of_ofChar (List.mem_singleton.mp hmem)
      exact hends.2 d hd List.mem_cons_self
    rw [view_many_of_none hq htakes hnone, Text.dropBlanks_dropBlanks] at hlast
    exact (Option.some.inj hlast).symm
  | cons us more ih =>
    obtain ⟨hfirst, hrest⟩ := List.forall_mem_cons.mp hmore
    have hrounds := ih hfirst hq hrest
    have hmany : (many blanks q).Covers (Text.EndsBefore (c :: marks))
        ((t :: us) ++ more.flatMap (t :: ·)) :=
      hrounds.of_left fun _ _ _ _ _ hbytes hleft => left_many_of_spaced hq htakes hbytes hleft
    rw [List.flatMap_cons]
    exact h.before hp hmany hopen hc

end Covers

end Reader

end HornSyntax
