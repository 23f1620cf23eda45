/-!
Texts are lists of characters. Places in a text are counted in bytes of its
UTF-8 form, and lines end at a line feed. This module holds the byte length,
the cuts at a byte offset, the first and the last line, and decimal numbers.
-/

namespace HornSyntax

abbrev Text := List Char

namespace Text

/-- The length of the UTF-8 form in bytes. -/
def bytes : Text → Nat
  | [] => 0
  | c :: rest => c.utf8Size + bytes rest

/-- The UTF-8 form. -/
def encode (text : Text) : ByteArray := (String.ofList text).toUTF8

/-- The text of a UTF-8 form; there is none for other bytes. -/
def decode? (content : ByteArray) : Option Text := (String.fromUTF8? content).map String.toList

/-- The longest beginning of at most `offset` bytes, and what follows it. -/
def splitAtByte : Nat → Text → Text × Text
  | _, [] => ([], [])
  | offset, c :: rest =>
    if c.utf8Size ≤ offset then
      let (before, after) := splitAtByte (offset - c.utf8Size) rest
      (c :: before, after)
    else ([], c :: rest)

/-- What follows the first `offset` bytes. There is no answer where the text is
shorter or where the offset falls inside a character. -/
def dropBytes? : Nat → Text → Option Text
  | 0, text => some text
  | _ + 1, [] => none
  | offset + 1, c :: rest =>
    if c.utf8Size ≤ offset + 1 then dropBytes? (offset + 1 - c.utf8Size) rest else none

/-- The part after the last line feed. -/
def lastLine (text : Text) : Text :=
  (text.reverse.takeWhile (· != '\n')).reverse

/-- The part up to the first line feed, which belongs to it. -/
def firstLine : Text → Text
  | [] => []
  | c :: rest => if c = '\n' then [c] else c :: firstLine rest

/-- A number in decimal digits, without leading zeros. -/
def decimal (n : Nat) : Text := Nat.toDigits 10 n

/-- The texts one after another with a separator between each two. -/
def joined (separator : Text) (texts : List Text) : Text :=
  List.intercalate separator texts

@[simp] theorem bytes_nil : bytes [] = 0 := rfl

@[simp] theorem bytes_cons (c : Char) (rest : Text) :
    bytes (c :: rest) = c.utf8Size + bytes rest := rfl

@[simp] theorem bytes_append (left right : Text) :
    bytes (left ++ right) = bytes left + bytes right := by
  induction left with
  | nil => simp
  | cons c rest ih => simp [ih, Nat.add_assoc]

theorem isDigit_of_mem_decimal {n : Nat} {c : Char} (h : c ∈ decimal n) : c.isDigit = true :=
  Nat.isDigit_of_mem_toDigits (by decide) (by decide) h

theorem decimal_ne_nil (n : Nat) : decimal n ≠ [] := Nat.toDigits_ne_nil

/-- Different numbers have different digits. -/
theorem decimal_injective {n k : Nat} (h : decimal n = decimal k) : n = k := by
  have hread : ∀ m, Nat.ofDigitChars 10 (decimal m) 0 = m := fun m =>
    Nat.ofDigitChars_toDigits (by decide) (by decide)
  rw [← hread n, h, hread k]

/-- Every character takes at least one byte. -/
theorem count_le_bytes (text : Text) (c : Char) : text.count c ≤ text.bytes := by
  induction text with
  | nil => simp
  | cons d rest ih =>
    have hpos := d.utf8Size_pos
    rw [List.count_cons, bytes_cons]
    split <;> omega

theorem decode?_encode (text : Text) : decode? (encode text) = some text := by
  have hvalid : String.fromUTF8? (encode text) = some (String.ofList text) :=
    dif_pos (String.ofList text).isValidUTF8
  rw [decode?, hvalid, Option.map_some, String.toList_ofList]

theorem size_encode (text : Text) : (encode text).size = text.bytes := by
  induction text with
  | nil => rfl
  | cons c rest ih =>
    rw [bytes_cons, ← ih]
    simp [encode, List.utf8Encode_singleton, String.length_utf8EncodeChar]

theorem splitAtByte_bytes (before after : Text) :
    splitAtByte before.bytes (before ++ after) = (before, after) := by
  induction before with
  | nil =>
    cases after with
    | nil => rfl
    | cons c rest =>
      have : ¬ c.utf8Size ≤ 0 := by
        have := c.utf8Size_pos
        omega
      simp [splitAtByte, this]
  | cons c rest ih => simp [splitAtByte, ih]

/-- Dropping bytes succeeds exactly at the character boundaries of the text. -/
theorem dropBytes?_eq_some_iff {offset : Nat} {text after : Text} :
    dropBytes? offset text = some after ↔
      ∃ before, text = before ++ after ∧ before.bytes = offset := by
  induction text generalizing offset with
  | nil =>
    cases offset with
    | zero =>
      constructor
      · intro h
        exact ⟨[], by simpa [dropBytes?] using h, rfl⟩
      · rintro ⟨before, htext, -⟩
        simp [dropBytes?, (List.append_eq_nil_iff.mp htext.symm).2]
    | succ n =>
      constructor
      · intro h
        simp [dropBytes?] at h
      · rintro ⟨before, htext, hbytes⟩
        simp [(List.append_eq_nil_iff.mp htext.symm).1] at hbytes
  | cons c rest ih =>
    have hpos := c.utf8Size_pos
    cases offset with
    | zero =>
      constructor
      · intro h
        exact ⟨[], by simpa [dropBytes?] using h, rfl⟩
      · rintro ⟨before, htext, hbytes⟩
        cases before with
        | nil => simpa [dropBytes?] using htext
        | cons b more =>
          have := b.utf8Size_pos
          simp only [bytes_cons] at hbytes
          omega
    | succ n =>
      by_cases hc : c.utf8Size ≤ n + 1
      · rw [dropBytes?, if_pos hc, ih]
        constructor
        · rintro ⟨before, rfl, hbytes⟩
          exact ⟨c :: before, rfl, by simp only [bytes_cons]; omega⟩
        · rintro ⟨before, htext, hbytes⟩
          cases before with
          | nil => simp at hbytes
          | cons b more =>
            obtain ⟨rfl, rfl⟩ := List.cons.inj htext
            exact ⟨more, rfl, by simp only [bytes_cons] at hbytes; omega⟩
      · rw [dropBytes?, if_neg hc]
        constructor
        · intro h
          cases h
        · rintro ⟨before, htext, hbytes⟩
          cases before with
          | nil => simp at hbytes
          | cons b more =>
            obtain ⟨rfl, -⟩ := List.cons.inj htext
            simp only [bytes_cons] at hbytes
            omega

@[simp] theorem dropBytes?_zero (text : Text) : dropBytes? 0 text = some text := by
  cases text <;> rfl

/-- Behind the first part of a text bytes are dropped as from the second part alone. -/
theorem dropBytes?_append (before rest : Text) (offset : Nat) :
    dropBytes? (before.bytes + offset) (before ++ rest) = dropBytes? offset rest := by
  induction before with
  | nil => simp
  | cons c more ih =>
    have hpos := c.utf8Size_pos
    have hsucc : bytes (c :: more) + offset = (c.utf8Size + bytes more + offset - 1) + 1 := by
      rw [bytes_cons]
      omega
    have hle : c.utf8Size ≤ (c.utf8Size + bytes more + offset - 1) + 1 := by
      omega
    have hleft : (c.utf8Size + bytes more + offset - 1) + 1 - c.utf8Size = bytes more + offset := by
      omega
    rw [hsucc, List.cons_append, dropBytes?, if_pos hle, hleft, ih]

/-- To drop some bytes and then others is to drop all of them. -/
theorem dropBytes?_add {offset : Nat} {text rest : Text} (h : dropBytes? offset text = some rest)
    (more : Nat) : dropBytes? (offset + more) text = dropBytes? more rest := by
  obtain ⟨before, rfl, rfl⟩ := dropBytes?_eq_some_iff.mp h
  exact dropBytes?_append before rest more

end Text

end HornSyntax
