import Mathlib.Data.BitVec

set_option autoImplicit false

/-! # UTF-8

The bytes of a Unicode character, and the byte sequences of more than one byte that encode a
character (`Multibyte`): a lead byte that fixes the length, continuation bytes, and four lead bytes
after which the second byte is restricted, so that there are no overlong forms, no surrogates and
nothing beyond the last code point. -/

namespace Utf8

/-- The encoding of a character. -/
def encode (c : Char) : List (BitVec 8) := (String.utf8EncodeChar c).map UInt8.toBitVec

theorem encode_eq (c : Char) :
    encode c =
      if c.toNat ≤ 0x7F then [BitVec.ofNat 8 c.toNat]
      else if c.toNat ≤ 0x7FF then
        [BitVec.ofNat 8 (c.toNat / 64 % 32 + 0xC0), BitVec.ofNat 8 (c.toNat % 64 + 0x80)]
      else if c.toNat ≤ 0xFFFF then
        [BitVec.ofNat 8 (c.toNat / 4096 % 16 + 0xE0), BitVec.ofNat 8 (c.toNat / 64 % 64 + 0x80),
          BitVec.ofNat 8 (c.toNat % 64 + 0x80)]
      else
        [BitVec.ofNat 8 (c.toNat / 262144 % 8 + 0xF0), BitVec.ofNat 8 (c.toNat / 4096 % 64 + 0x80),
          BitVec.ofNat 8 (c.toNat / 64 % 64 + 0x80), BitVec.ofNat 8 (c.toNat % 64 + 0x80)] := by
  unfold encode String.utf8EncodeChar
  simp only [apply_ite (List.map UInt8.toBitVec)]
  rfl

theorem encode_of_le (c : Char) (h : c.toNat ≤ 0x7F) : encode c = [BitVec.ofNat 8 c.toNat] := by
  rw [encode_eq, if_pos h]

theorem encode_ne_nil (c : Char) : encode c ≠ [] := by
  rw [encode_eq]
  split_ifs <;> simp

/-- A continuation byte. -/
def IsTail (b : BitVec 8) : Prop := 0x80 ≤ b.toNat ∧ b.toNat ≤ 0xBF

/-- The well-formed sequences of more than one byte. -/
inductive Multibyte : List (BitVec 8) → Prop
  | two {a b : BitVec 8} (ha : 0xC2 ≤ a.toNat ∧ a.toNat ≤ 0xDF) (hb : IsTail b) : Multibyte [a, b]
  | three {a b c : BitVec 8} (ha : 0xE0 ≤ a.toNat ∧ a.toNat ≤ 0xEF) (hb : IsTail b) (hc : IsTail c)
      (hlow : a.toNat = 0xE0 → 0xA0 ≤ b.toNat) (hhigh : a.toNat = 0xED → b.toNat ≤ 0x9F) :
      Multibyte [a, b, c]
  | four {a b c d : BitVec 8} (ha : 0xF0 ≤ a.toNat ∧ a.toNat ≤ 0xF4) (hb : IsTail b) (hc : IsTail c)
      (hd : IsTail d) (hlow : a.toNat = 0xF0 → 0x90 ≤ b.toNat)
      (hhigh : a.toNat = 0xF4 → b.toNat ≤ 0x8F) : Multibyte [a, b, c, d]

theorem isValidChar_toNat (c : Char) : c.toNat.isValidChar := c.valid

theorem exists_toNat_eq {n : ℕ} (h : n.isValidChar) : ∃ c : Char, c.toNat = n :=
  ⟨Char.ofNatAux n h, rfl⟩

/-- A character beyond ASCII is encoded by a well-formed sequence. -/
theorem multibyte_encode (c : Char) (h : 0x80 ≤ c.toNat) : Multibyte (encode c) := by
  have hvalid := isValidChar_toNat c
  simp only [Nat.isValidChar] at hvalid
  rw [encode_eq, if_neg (by omega)]
  split_ifs with h2 h3
  · refine .two ?_ ?_ <;> simp only [IsTail, BitVec.toNat_ofNat] <;> omega
  · refine .three ?_ ?_ ?_ ?_ ?_ <;> simp only [IsTail, BitVec.toNat_ofNat] <;> omega
  · refine .four ?_ ?_ ?_ ?_ ?_ ?_ <;> simp only [IsTail, BitVec.toNat_ofNat] <;> omega

/-- Every byte of a longer sequence is beyond ASCII. -/
theorem le_of_mem_multibyte {bytes : List (BitVec 8)} (h : Multibyte bytes) {b : BitVec 8}
    (hb : b ∈ bytes) : 0x80 ≤ b.toNat := by
  cases h with
  | two ha hb₁ =>
      simp only [List.mem_cons, List.not_mem_nil, or_false] at hb
      obtain rfl | rfl := hb
      · omega
      · exact hb₁.1
  | three ha hb₁ hc =>
      simp only [List.mem_cons, List.not_mem_nil, or_false] at hb
      obtain rfl | rfl | rfl := hb
      · omega
      · exact hb₁.1
      · exact hc.1
  | four ha hb₁ hc hd =>
      simp only [List.mem_cons, List.not_mem_nil, or_false] at hb
      obtain rfl | rfl | rfl | rfl := hb
      · omega
      · exact hb₁.1
      · exact hc.1
      · exact hd.1

theorem ofNat_eq_of_toNat {b : BitVec 8} {n : ℕ} (h : b.toNat = n) : BitVec.ofNat 8 n = b := by
  subst h
  exact BitVec.eq_of_toNat_eq (by simp)

/-- A well-formed sequence encodes a character. -/
theorem exists_encode_eq {bytes : List (BitVec 8)} (h : Multibyte bytes) :
    ∃ c : Char, 0x80 ≤ c.toNat ∧ encode c = bytes := by
  cases h with
  | @two a b ha hb =>
      obtain ⟨hb₁, hb₂⟩ := hb
      have hvalid : ((a.toNat - 0xC0) * 64 + (b.toNat - 0x80)).isValidChar := by
        simp only [Nat.isValidChar]
        omega
      obtain ⟨char, hchar⟩ := exists_toNat_eq hvalid
      refine ⟨char, by omega, ?_⟩
      rw [encode_eq, if_neg (by omega), if_pos (by omega), ofNat_eq_of_toNat (b := a) (by omega),
        ofNat_eq_of_toNat (b := b) (by omega)]
  | @three a b c ha hb hc hlow hhigh =>
      obtain ⟨hb₁, hb₂⟩ := hb
      obtain ⟨hc₁, hc₂⟩ := hc
      have hvalid : ((a.toNat - 0xE0) * 4096 + (b.toNat - 0x80) * 64
          + (c.toNat - 0x80)).isValidChar := by
        simp only [Nat.isValidChar]
        omega
      obtain ⟨char, hchar⟩ := exists_toNat_eq hvalid
      refine ⟨char, by omega, ?_⟩
      rw [encode_eq, if_neg (by omega), if_neg (by omega), if_pos (by omega),
        ofNat_eq_of_toNat (b := a) (by omega), ofNat_eq_of_toNat (b := b) (by omega),
        ofNat_eq_of_toNat (b := c) (by omega)]
  | @four a b c d ha hb hc hd hlow hhigh =>
      obtain ⟨hb₁, hb₂⟩ := hb
      obtain ⟨hc₁, hc₂⟩ := hc
      obtain ⟨hd₁, hd₂⟩ := hd
      have hvalid : ((a.toNat - 0xF0) * 262144 + (b.toNat - 0x80) * 4096 + (c.toNat - 0x80) * 64
          + (d.toNat - 0x80)).isValidChar := by
        simp only [Nat.isValidChar]
        omega
      obtain ⟨char, hchar⟩ := exists_toNat_eq hvalid
      refine ⟨char, by omega, ?_⟩
      rw [encode_eq, if_neg (by omega), if_neg (by omega), if_neg (by omega),
        ofNat_eq_of_toNat (b := a) (by omega), ofNat_eq_of_toNat (b := b) (by omega),
        ofNat_eq_of_toNat (b := c) (by omega), ofNat_eq_of_toNat (b := d) (by omega)]

end Utf8
