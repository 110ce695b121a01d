import SafeForms.Text.Utf8

/-!
Decoding of encoded text. The bytes that encode a character are the beginning of that character and
of no other, so decoding gives every encoded text back (`decode_toUTF8`).
-/

namespace SafeForms.Text.Utf8

theorem nextInside_last {value low high n : Nat} {b : UInt8} (bs : List UInt8) (byte : b.toNat = n)
    (range : low ≤ n ∧ n ≤ high) :
    nextInside value 0 low high (b :: bs) = .char (Char.ofNat (value * 64 + (n - 0x80))) bs := by
  rw [nextInside, byte, if_pos range]

theorem nextInside_further {value missing low high n : Nat} {b : UInt8} (bs : List UInt8)
    (byte : b.toNat = n) (range : low ≤ n ∧ n ≤ high) :
    nextInside value (missing + 1) low high (b :: bs) =
      nextInside (value * 64 + (n - 0x80)) missing 0x80 0xbf bs := by
  rw [nextInside, byte, if_pos range]

theorem lead_two {n : Nat} (least : 0xc2 ≤ n) (most : n < 0xe0) :
    lead n = .inside (n - 0xc0) 0 0x80 0xbf := by
  grind [lead]

/-- The second byte keeps out surrogates and values that need fewer bytes. -/
theorem lead_three {n m : Nat} (least : 0xe0 ≤ n) (most : n < 0xf0) (tail : 0x80 ≤ m ∧ m ≤ 0xbf)
    (long : n = 0xe0 → 0xa0 ≤ m) (noSurrogate : n = 0xed → m ≤ 0x9f) :
    ∃ low high, lead n = .inside (n - 0xe0) 1 low high ∧ low ≤ m ∧ m ≤ high := by
  by_cases first : n = 0xe0
  · subst first
    exact ⟨0xa0, 0xbf, rfl, long rfl, tail.2⟩
  by_cases surrogate : n = 0xed
  · subst surrogate
    exact ⟨0x80, 0x9f, rfl, tail.1, noSurrogate rfl⟩
  exact ⟨0x80, 0xbf, by grind [lead], tail⟩

/-- The second byte keeps out values that need fewer bytes and values past the last character. -/
theorem lead_four {n m : Nat} (least : 0xf0 ≤ n) (most : n ≤ 0xf4) (tail : 0x80 ≤ m ∧ m ≤ 0xbf)
    (long : n = 0xf0 → 0x90 ≤ m) (last : n = 0xf4 → m ≤ 0x8f) :
    ∃ low high, lead n = .inside (n - 0xf0) 2 low high ∧ low ≤ m ∧ m ≤ high := by
  by_cases first : n = 0xf0
  · subst first
    exact ⟨0x90, 0xbf, rfl, long rfl, tail.2⟩
  by_cases final : n = 0xf4
  · subst final
    exact ⟨0x80, 0x8f, rfl, tail.1, last rfl⟩
  exact ⟨0x80, 0xbf, by grind [lead], tail⟩

theorem toNat_ofNat_byte {n : Nat} (h : n < 256) : (UInt8.ofNat n).toNat = n := by
  rw [UInt8.toNat_ofNat', Nat.mod_eq_of_lt h]

/-- A byte that continues a character holds six bits of it. -/
theorem toNat_continuation (n : Nat) :
    (UInt8.ofNat (n % 64 + 128)).toNat = n % 64 + 128 ∧
      0x80 ≤ n % 64 + 128 ∧ n % 64 + 128 ≤ 0xbf := by
  exact ⟨toNat_ofNat_byte (by omega), by omega, by omega⟩

theorem next_utf8EncodeChar (c : Char) (bs : List UInt8) :
    next (String.utf8EncodeChar c ++ bs) = .char c bs := by
  have valid : c.toNat < 0xd800 ∨ 0xdfff < c.toNat ∧ c.toNat < 0x110000 := c.valid
  have whole : ∀ n, n = c.toNat → Next.char (Char.ofNat n) bs = .char c bs := by
    rintro n rfl
    rw [Char.ofNat_toNat]
  have value : c.val.toNat = c.toNat := rfl
  simp only [String.utf8EncodeChar, value]
  generalize c.toNat = v at valid whole
  -- one case for each number of bytes; each byte is read as it was written
  split
  · have ascii : lead v = .whole (Char.ofNat v) := by grind [lead]
    rw [List.cons_append, next, toNat_ofNat_byte (by omega), ascii]
    exact whole v rfl
  split
  · obtain ⟨b₁, in₁⟩ := toNat_continuation v
    rw [List.cons_append, next, toNat_ofNat_byte (by omega), lead_two (by omega) (by omega)]
    simp only [List.cons_append, List.nil_append]
    rw [nextInside_last _ b₁ in₁]
    exact whole _ (by omega)
  split
  · obtain ⟨b₁, in₁⟩ := toNat_continuation (v / 64)
    obtain ⟨b₂, in₂⟩ := toNat_continuation v
    obtain ⟨low, high, found, range⟩ := lead_three (n := v / 4096 % 16 + 224) (by omega) (by omega)
      in₁ (by omega) (by omega)
    rw [List.cons_append, next, toNat_ofNat_byte (by omega), found]
    simp only [List.cons_append, List.nil_append]
    rw [nextInside_further _ b₁ range, nextInside_last _ b₂ in₂]
    exact whole _ (by omega)
  · obtain ⟨b₁, in₁⟩ := toNat_continuation (v / 4096)
    obtain ⟨b₂, in₂⟩ := toNat_continuation (v / 64)
    obtain ⟨b₃, in₃⟩ := toNat_continuation v
    obtain ⟨low, high, found, range⟩ := lead_four (n := v / 262144 % 8 + 240) (by omega) (by omega)
      in₁ (by omega) (by omega)
    rw [List.cons_append, next, toNat_ofNat_byte (by omega), found]
    simp only [List.cons_append, List.nil_append]
    rw [nextInside_further _ b₁ range, nextInside_further _ b₂ in₂, nextInside_last _ b₃ in₃]
    exact whole _ (by omega)

theorem decode_utf8Encode (cs : List Char) : decode (cs.flatMap String.utf8EncodeChar) = cs := by
  induction cs with
  | nil => simp [decode, next]
  | cons c cs ih => rw [List.flatMap_cons, decode_of_char (next_utf8EncodeChar c _), ih]

theorem toUTF8_eq (s : String) : s.toUTF8.data.toList = s.toList.flatMap String.utf8EncodeChar := by
  have encoded := String.toByteArray_ofList (l := s.toList)
  rw [String.ofList_toList] at encoded
  rw [String.toUTF8_eq_toByteArray, encoded, List.utf8Encode, List.data_toByteArray]

theorem decode_toUTF8 (s : String) : decode s.toUTF8.data.toList = s.toList := by
  rw [toUTF8_eq, decode_utf8Encode]

end SafeForms.Text.Utf8
