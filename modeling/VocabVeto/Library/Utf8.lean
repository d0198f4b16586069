import Mathlib

/-! UTF-8 over lists of scalar values. Searching encoded bytes for an encoded
pattern finds exactly the places where the pattern occurs as a string: a match
of bytes can only begin where a character begins. -/
namespace Utf8

/-- The encoding of a text, one character after another. -/
def bytes (text : List Char) : List UInt8 := text.flatMap String.utf8EncodeChar

/-- The length in bytes, without building the encoding. -/
def size (text : List Char) : Nat := (text.map Char.utf8Size).sum

@[simp] theorem bytes_nil : bytes [] = [] := rfl

@[simp] theorem bytes_cons (c : Char) (text : List Char) :
    bytes (c :: text) = String.utf8EncodeChar c ++ bytes text := rfl

@[simp] theorem bytes_append (left right : List Char) :
    bytes (left ++ right) = bytes left ++ bytes right := List.flatMap_append

@[simp] theorem size_nil : size [] = 0 := rfl

@[simp] theorem size_cons (c : Char) (text : List Char) : size (c :: text) = c.utf8Size + size text := by
  simp [size]

@[simp] theorem size_append (left right : List Char) : size (left ++ right) = size left + size right := by
  simp [size]

@[simp] theorem length_bytes (text : List Char) : (bytes text).length = size text := by
  induction text with
  | nil => rfl
  | cons c text ih => simp [ih]

theorem length_le_size (text : List Char) : text.length ≤ size text := by
  induction text with
  | nil => simp
  | cons c text ih =>
    have := c.utf8Size_pos
    simp only [List.length_cons, size_cons]
    omega

theorem size_le_four_mul (text : List Char) : size text ≤ 4 * text.length := by
  induction text with
  | nil => simp
  | cons c text ih =>
    have := c.utf8Size_le_four
    simp only [List.length_cons, size_cons]
    omega

theorem size_pos {text : List Char} (nonempty : text ≠ []) : 0 < size text :=
  Nat.lt_of_lt_of_le (List.length_pos_iff.mpr nonempty) (length_le_size text)

theorem bytes_ne_nil {text : List Char} (nonempty : text ≠ []) : bytes text ≠ [] := by
  apply List.ne_nil_of_length_pos
  rw [length_bytes]
  exact size_pos nonempty

/-- Decoding is deterministic, so a prefix of bytes is a prefix of characters. -/
theorem bytes_prefix_iff {pattern text : List Char} :
    bytes pattern <+: bytes text ↔ pattern <+: text := by
  constructor
  · rintro ⟨rest, spelling⟩
    apply List.isPrefix_of_utf8Encode_append_eq_utf8Encode rest.toByteArray
    simpa [bytes, List.utf8Encode] using congrArg List.toByteArray spelling
  · rintro ⟨rest, rfl⟩
    simp

theorem bytes_injective {left right : List Char} (same : bytes left = bytes right) : left = right := by
  have forth : left <+: right := bytes_prefix_iff.mp (same ▸ List.prefix_refl _)
  have back : right <+: left := bytes_prefix_iff.mp (same ▸ List.prefix_refl _)
  exact forth.eq_of_length_le back.length_le

/-- Inside the encoding of one character only its first byte can begin another
character, so no pattern starts strictly within it. -/
private theorem no_start_inside {c first : Char} {rest : List Char} {tail : List UInt8} {offset : Nat}
    (positive : 0 < offset) (inside : offset < (String.utf8EncodeChar c).length)
    (found : bytes (first :: rest) <+: (String.utf8EncodeChar c ++ tail).drop offset) : False := by
  have width : 0 < (String.utf8EncodeChar first).length := by simpa using first.utf8Size_pos
  have leads : (String.utf8EncodeChar first)[0] = (String.utf8EncodeChar c)[offset] := by
    obtain ⟨suffix, spelling⟩ := found
    have heads := congrArg (fun l => l[0]?) spelling
    simp only [bytes_cons, List.append_assoc, List.getElem?_drop, Nat.add_zero] at heads
    rw [List.getElem?_append_left width, List.getElem?_append_left inside] at heads
    simpa [List.getElem?_eq_getElem inside, List.getElem?_eq_getElem width] using heads
  have lead : UInt8.IsUTF8FirstByte ((String.utf8EncodeChar c)[offset]) := by
    rw [← leads]
    exact UInt8.isUTF8FirstByte_getElem_utf8EncodeChar.mpr rfl
  have := UInt8.isUTF8FirstByte_getElem_utf8EncodeChar.mp lead
  omega

/-- An encoded nonempty pattern is found only at character boundaries, where
the pattern itself occurs. -/
theorem occurrence_aligned {pattern text : List Char} {offset : Nat} (nonempty : pattern ≠ [])
    (found : bytes pattern <+: (bytes text).drop offset) :
    ∃ before after, text = before ++ after ∧ size before = offset ∧ pattern <+: after := by
  induction text generalizing offset with
  | nil =>
    simp only [bytes_nil, List.drop_nil, List.prefix_nil] at found
    exact absurd found (bytes_ne_nil nonempty)
  | cons c text ih =>
    by_cases zero : offset = 0
    · subst offset
      exact ⟨[], c :: text, rfl, rfl, bytes_prefix_iff.mp (by simpa using found)⟩
    · by_cases inside : offset < (String.utf8EncodeChar c).length
      · obtain ⟨first, rest, rfl⟩ := List.exists_cons_of_ne_nil nonempty
        exact (no_start_inside (Nat.pos_of_ne_zero zero) inside found).elim
      · rw [bytes_cons, List.drop_append, List.drop_eq_nil_of_le (by omega), List.nil_append] at found
        obtain ⟨before, after, rfl, sized, occurs⟩ := ih found
        refine ⟨c :: before, after, rfl, ?_, occurs⟩
        simp only [String.length_utf8EncodeChar] at sized inside
        simp only [size_cons]
        omega

/-- Substring search on encodings is substring search on characters. -/
theorem bytes_infix_iff {pattern text : List Char} :
    bytes pattern <:+: bytes text ↔ pattern <:+: text := by
  constructor
  · rintro ⟨front, back, spelling⟩
    by_cases empty : pattern = []
    · subst pattern
      exact List.nil_infix
    · have found : bytes pattern <+: (bytes text).drop front.length := by
        rw [← spelling, List.append_assoc, List.drop_left]
        exact List.prefix_append _ _
      obtain ⟨before, after, rfl, _, occurs⟩ := occurrence_aligned empty found
      exact occurs.isInfix.trans (List.suffix_append before after).isInfix
  · rintro ⟨front, back, rfl⟩
    exact ⟨bytes front, bytes back, by simp⟩

/-! ### ASCII -/

theorem encode_ascii {c : Char} (small : c.toNat < 128) : String.utf8EncodeChar c = [UInt8.ofNat c.toNat] := by
  have low : c.val.toNat ≤ 0x7f := Nat.le_of_lt_succ small
  simp only [String.utf8EncodeChar, low, ↓reduceIte]
  rfl

/-- Every byte of a character beyond ASCII is beyond ASCII too. -/
theorem encode_high {c : Char} (large : 128 ≤ c.toNat) : ∀ b ∈ String.utf8EncodeChar c, 128 ≤ b.toNat := by
  have high : ¬ c.val.toNat ≤ 0x7f := Nat.not_le_of_lt large
  intro b member
  simp only [String.utf8EncodeChar, high, ↓reduceIte] at member
  split at member
  · simp only [List.mem_cons, List.not_mem_nil, or_false] at member
    obtain rfl | rfl := member <;> simp <;> omega
  · split at member
    · simp only [List.mem_cons, List.not_mem_nil, or_false] at member
      obtain rfl | rfl | rfl := member <;> simp <;> omega
    · simp only [List.mem_cons, List.not_mem_nil, or_false] at member
      obtain rfl | rfl | rfl | rfl := member <;> simp <;> omega

/-- The byte of an ASCII character occurs exactly where the character does. -/
theorem mem_bytes_ascii {c : Char} {text : List Char} (small : c.toNat < 128) :
    UInt8.ofNat c.toNat ∈ bytes text ↔ c ∈ text := by
  have encoded : ∀ other, UInt8.ofNat c.toNat ∈ String.utf8EncodeChar other ↔ c = other := by
    intro other
    by_cases ascii : other.toNat < 128
    · rw [encode_ascii ascii, List.mem_singleton]
      constructor
      · intro same
        have values := congrArg UInt8.toNat same
        simp only [UInt8.toNat_ofNat'] at values
        apply Char.toNat_inj.mp
        omega
      · rintro rfl
        rfl
    · constructor
      · intro member
        have high := encode_high (Nat.le_of_not_lt ascii) _ member
        simp only [UInt8.toNat_ofNat'] at high
        omega
      · rintro rfl
        exact absurd small ascii
  simp only [bytes, List.mem_flatMap, encoded, exists_eq_right']

/-- Bytes that are read as ASCII are the encoding of what was read. -/
theorem bytes_ofAscii {raw : List UInt8} (small : ∀ b ∈ raw, b.toNat < 128) :
    bytes (raw.map fun b => Char.ofNat b.toNat) = raw := by
  induction raw with
  | nil => rfl
  | cons b raw ih =>
    obtain ⟨first, rest⟩ := List.forall_mem_cons.mp small
    have value : (Char.ofNat b.toNat).toNat = b.toNat := by
      rw [Char.toNat_ofNat, if_pos (.inl (by omega))]
    rw [List.map_cons, bytes_cons, encode_ascii (by omega), ih rest, value]
    simp

/-- Encoded ASCII is read back. -/
theorem ofAscii_bytes {text : List Char} (small : ∀ c ∈ text, c.toNat < 128) :
    (bytes text).map (fun b => Char.ofNat b.toNat) = text := by
  apply bytes_injective
  apply bytes_ofAscii
  intro b member
  obtain ⟨c, among, encoded⟩ := List.mem_flatMap.mp member
  have low := small c among
  rw [encode_ascii low, List.mem_singleton] at encoded
  rw [encoded, UInt8.toNat_ofNat']
  omega

end Utf8
