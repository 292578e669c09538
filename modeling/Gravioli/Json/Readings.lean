import Gravioli.Json.Scanning

set_option autoImplicit false

/-! # What a token is read as

`get_string` decodes the spelling of a string to the UTF-8 encoding of its characters, and complains
about exactly the strings that have a lone surrogate (`getString_text`). `get_number` gives the number
that is written (`getNumber_text`), unless the text goes on in a way that no document does; then the next
token is an error (`scan_after_number`). -/

namespace Gravioli

namespace Json.Grammar

open Lexer Scanner

/-! ## Characters -/

theorem or_of_lt {k a x : ℕ} (h : x < 2 ^ k) : 2 ^ k * a ||| x = x + 2 ^ k * a := by
  rw [← Nat.two_pow_add_eq_or_of_lt h, Nat.add_comm]

theorem lead_eq {n : ℕ} (k a shift : ℕ) :
    2 ^ k * a ||| ((n >>> shift) &&& (2 ^ k - 1)) = n / 2 ^ shift % 2 ^ k + 2 ^ k * a := by
  rw [Nat.and_two_pow_sub_one_eq_mod, Nat.shiftRight_eq_div_pow,
    or_of_lt (Nat.mod_lt _ (Nat.two_pow_pos k))]

theorem tail_eq {n : ℕ} (k a : ℕ) :
    2 ^ k * a ||| (n &&& (2 ^ k - 1)) = n % 2 ^ k + 2 ^ k * a := by
  rw [Nat.and_two_pow_sub_one_eq_mod, or_of_lt (Nat.mod_lt _ (Nat.two_pow_pos k))]

/-- `to_unicode` of a character that is not a surrogate is its UTF-8 encoding. -/
theorem encodeCodepoint_char (c : Char) : encodeCodepoint c.toNat = .ok (Utf8.encode c) := by
  have hvalid := Utf8.isValidChar_toNat c
  simp only [Nat.isValidChar] at hvalid
  have htail : 0x80 ||| (c.toNat &&& 0x3F) = c.toNat % 64 + 0x80 := tail_eq 6 2
  have hmiddle : 0x80 ||| ((c.toNat >>> 6) &&& 0x3F) = c.toNat / 64 % 64 + 0x80 := lead_eq 6 2 6
  have hupper : 0x80 ||| ((c.toNat >>> 12) &&& 0x3F) = c.toNat / 4096 % 64 + 0x80 := lead_eq 6 2 12
  rw [Utf8.encode_eq, encodeCodepoint]
  by_cases h₁ : c.toNat ≤ 0x7F
  · rw [if_pos (by omega), if_pos h₁]
  by_cases h₂ : c.toNat ≤ 0x7FF
  · have hlead : 0xC0 ||| ((c.toNat >>> 6) &&& 0x1F) = c.toNat / 64 % 32 + 0xC0 := lead_eq 5 6 6
    rw [if_neg (by omega), if_pos h₂, if_neg h₁, if_pos h₂, hlead, htail]
  by_cases h₃ : c.toNat ≤ 0xFFFF
  · have hlead : 0xE0 ||| ((c.toNat >>> 12) &&& 0x0F) = c.toNat / 4096 % 16 + 0xE0 := lead_eq 4 14 12
    rw [if_neg (by omega), if_neg h₂, if_pos h₃, if_neg h₁, if_neg h₂, if_pos h₃, hlead, hmiddle,
      htail]
  · have hlead : 0xF0 ||| ((c.toNat >>> 18) &&& 0x07) = c.toNat / 262144 % 8 + 0xF0 := lead_eq 3 30 18
    rw [if_neg (by omega), if_neg h₂, if_neg h₃, if_pos (by omega), if_neg h₁, if_neg h₂, if_neg h₃,
      hlead, hupper, hmiddle, htail]

theorem hexValue_lt (d : HexDigit) : hexValue d.1 < 16 := by
  obtain ⟨b, hb⟩ := d
  simp only [IsHex, IsDigit, Char.reduceToNat] at hb
  simp only [hexValue, IsDigit, Char.reduceToNat]
  split_ifs <;> omega

theorem value_lt (h : Hex4) : h.value < 0x10000 := by
  have h₁ := hexValue_lt h.d₁
  have h₂ := hexValue_lt h.d₂
  have h₃ := hexValue_lt h.d₃
  have h₄ := hexValue_lt h.d₄
  unfold Hex4.value
  omega

theorem strtoul_text (h : Hex4) : strtoul h.text = h.value := by
  have hall : h.text.takeWhile (fun b => decide (IsHex b.toNat)) = h.text := by
    simp [Hex4.text, List.takeWhile, h.d₁.2, h.d₂.2, h.d₃.2, h.d₄.2]
  rw [strtoul, hall]
  simp [Hex4.text, Hex4.value]

theorem ofNat_toNat_of_isValidChar {n : ℕ} (h : n.isValidChar) : (Char.ofNat n).toNat = n := by
  obtain ⟨c, rfl⟩ := Utf8.exists_toNat_eq h
  rw [Char.ofNat_toNat]

/-- A unicode escape that is not a surrogate. -/
theorem toUnicode_value {h : Hex4} (hhigh : ¬ h.IsHigh) (hlow : ¬ h.IsLow) :
    toUnicode h.value 0 = .ok (Utf8.encode (Char.ofNat h.value)) := by
  have hlt := value_lt h
  simp only [Hex4.IsHigh, Hex4.IsLow] at hhigh hlow
  have hvalid : h.value.isValidChar := by
    simp only [Nat.isValidChar]
    omega
  rw [toUnicode, if_neg hhigh]
  conv_lhs => rw [← ofNat_toNat_of_isValidChar hvalid]
  exact encodeCodepoint_char _

/-- Two surrogates. -/
theorem toUnicode_pair {high low : Hex4} (hhigh : high.IsHigh) (hlow : low.IsLow) :
    toUnicode high.value low.value = .ok (Utf8.encode (surrogatePair high low)) := by
  have hhigh' := hhigh
  have hlow' := hlow
  simp only [Hex4.IsHigh, Hex4.IsLow] at hhigh' hlow'
  have hvalid : (0x10000 + (high.value - 0xD800) * 0x400 + (low.value - 0xDC00)).isValidChar := by
    simp only [Nat.isValidChar]
    omega
  have hcode : (high.value <<< 10) + low.value - 0x35FDC00
      = 0x10000 + (high.value - 0xD800) * 0x400 + (low.value - 0xDC00) := by
    rw [Nat.shiftLeft_eq]
    omega
  rw [toUnicode, if_pos hhigh', if_pos hlow', hcode, ← ofNat_toNat_of_isValidChar hvalid]
  exact encodeCodepoint_char _

/-- A high surrogate without a low one. -/
theorem toUnicode_error {high low : Hex4} (hhigh : high.IsHigh) (hlow : ¬ low.IsLow) :
    toUnicode high.value low.value = .error "missing or wrong low surrogate" :=
  (if_pos hhigh).trans (if_neg hlow)

/-! ## Strings -/

theorem map_nil_append (r : Except String Text) : r.map (([] : Text) ++ ·) = r := by
  cases r <;> rfl

theorem map_map_append (r : Except String Text) (w w' : Text) :
    (r.map (w' ++ ·)).map (w ++ ·) = r.map ((w ++ w') ++ ·) := by
  cases r with
  | error what => rfl
  | ok text => simp [Except.map]

theorem getStringFrom_append {w : Text} (hw : ∀ b ∈ w, b ≠ chr '\\') (text : Text) :
    getStringFrom (w ++ text) = (getStringFrom text).map (w ++ ·) := by
  induction w with
  | nil => exact (map_nil_append _).symm
  | cons b w ih =>
      rw [List.cons_append, getStringFrom_cons (hw b (by simp)),
        ih (fun b hb => hw b (by simp [hb])), map_map_append]
      rfl

theorem ne_backslash_of_mem_encode {c : Char} (h : 0x20 ≤ c.toNat ∧ c ≠ '"' ∧ c ≠ '\\') {b : Byte}
    (hb : b ∈ Utf8.encode c) : b ≠ chr '\\' := by
  by_cases hc : c.toNat ≤ 0x7F
  · rw [Utf8.encode_of_le c hc, List.mem_singleton] at hb
    rintro rfl
    refine h.2.2 (Char.toNat_inj.1 ?_)
    have := congrArg BitVec.toNat hb
    rw [BitVec.toNat_ofNat, Nat.mod_eq_of_lt (by omega)] at this
    exact this.symm
  · have hge := Utf8.le_of_mem_multibyte (Utf8.multibyte_encode c (by omega)) hb
    rintro rfl
    exact absurd hge (by decide)

theorem getStringFrom_escape (e : Escape) (text : Text) :
    getStringFrom (chr '\\' :: chr e.letter :: text)
      = (getStringFrom text).map (Utf8.encode e.char ++ ·) := by
  have hu : chr e.letter ≠ chr 'u' := by cases e <;> decide
  have hescaped : escaped (chr e.letter) = Utf8.encode e.char := by cases e <;> rfl
  rw [getStringFrom.eq_def]
  dsimp only
  rw [if_neg (by simp), if_neg hu, hescaped]
  cases getStringFrom text <;> rfl

/-- A unicode escape that is no high surrogate is read on its own. -/
theorem getStringFrom_codepoint {h : Hex4} (hhigh : ¬ h.IsHigh) (text : Text) :
    getStringFrom (chr '\\' :: chr 'u' :: (h.text ++ text))
      = if h.IsLow then .error "missing high surrogate"
        else (toUnicode h.value 0).bind (fun chars => (getStringFrom text).map (chars ++ ·)) := by
  have htext : strtoul [h.d₁.1, h.d₂.1, h.d₃.1, h.d₄.1] = h.value := strtoul_text h
  rw [getStringFrom.eq_def]
  dsimp only [Hex4.text, List.cons_append, List.nil_append]
  rw [if_neg (by simp), if_pos rfl, htext]
  refine (if_neg hhigh).trans (if_congr Iff.rfl rfl ?_)
  cases toUnicode h.value 0 with
  | error what => rfl
  | ok chars => cases getStringFrom text <;> rfl

theorem getStringFrom_unicode {h : Hex4} (hhigh : ¬ h.IsHigh) (hlow : ¬ h.IsLow) (text : Text) :
    getStringFrom (chr '\\' :: chr 'u' :: (h.text ++ text))
      = (getStringFrom text).map (Utf8.encode (Char.ofNat h.value) ++ ·) := by
  rw [getStringFrom_codepoint hhigh, if_neg hlow, toUnicode_value hhigh hlow]
  rfl

theorem getStringFrom_low {h : Hex4} (hlow : h.IsLow) (text : Text) :
    getStringFrom (chr '\\' :: chr 'u' :: (h.text ++ text)) = .error "missing high surrogate" := by
  have hhigh : ¬ h.IsHigh := by
    simp only [Hex4.IsLow, Hex4.IsHigh] at hlow ⊢
    omega
  rw [getStringFrom_codepoint hhigh, if_pos hlow]

/-- After a high surrogate the next escape must be a unicode escape. -/
theorem getStringFrom_lone {h : Hex4} (hhigh : h.IsHigh) {text : Text}
    (hnext : ∀ u rest, text = chr '\\' :: u :: rest → u ≠ chr 'u') :
    getStringFrom (chr '\\' :: chr 'u' :: (h.text ++ text)) = .error "missing low surrogate" := by
  have htext : strtoul [h.d₁.1, h.d₂.1, h.d₃.1, h.d₄.1] = h.value := strtoul_text h
  rw [getStringFrom.eq_def]
  dsimp only [Hex4.text, List.cons_append, List.nil_append]
  rw [if_neg (by simp), if_pos rfl, htext]
  refine (if_pos hhigh).trans ?_
  split
  · next b u l₁ l₂ l₃ l₄ rest =>
      refine if_pos ?_
      by_contra hboth
      rw [not_or, not_not, not_not] at hboth
      obtain ⟨rfl, rfl⟩ := hboth
      exact hnext _ _ rfl rfl
  · rfl

theorem getStringFrom_high {high : Hex4} (hhigh : high.IsHigh) (low : Hex4) (text : Text) :
    getStringFrom (chr '\\' :: chr 'u' :: (high.text ++ chr '\\' :: chr 'u' :: (low.text ++ text)))
      = (toUnicode high.value low.value).bind
          (fun chars => (getStringFrom text).map (chars ++ ·)) := by
  have htext : strtoul [high.d₁.1, high.d₂.1, high.d₃.1, high.d₄.1] = high.value :=
    strtoul_text high
  have htext' : strtoul [low.d₁.1, low.d₂.1, low.d₃.1, low.d₄.1] = low.value := strtoul_text low
  rw [getStringFrom.eq_def]
  dsimp only [Hex4.text, List.cons_append, List.nil_append]
  rw [if_neg (by simp), if_pos rfl, htext]
  refine (if_pos hhigh).trans ?_
  rw [if_neg (by simp), htext']
  cases toUnicode high.value low.value with
  | error what => rfl
  | ok chars => cases getStringFrom text <;> rfl

theorem map_map_encode (r : Except String (List Char)) (c : Char) :
    (r.map (·.flatMap Utf8.encode)).map (Utf8.encode c ++ ·)
      = (r.map (c :: ·)).map (·.flatMap Utf8.encode) := by
  cases r <;> rfl

/-- Text after a high surrogate that is not a unicode escape. -/
theorem ne_unicode_of_pieces {p : Piece} (hp : ∀ h, p ≠ .unicode h) (w : Text) {u : Byte} {rest : Text}
    (htext : p.text ++ w = chr '\\' :: u :: rest) : u ≠ chr 'u' := by
  cases p with
  | plain c h =>
      obtain ⟨b, w', hencode⟩ := List.exists_cons_of_ne_nil (Utf8.encode_ne_nil c)
      rw [Piece.text, hencode] at htext
      obtain rfl := (List.cons.inj htext).1
      exact absurd rfl (ne_backslash_of_mem_encode h (by rw [hencode]; simp))
  | escape e =>
      obtain rfl : chr e.letter = u := (List.cons.inj (List.cons.inj htext).2).1
      cases e <;> decide
  | unicode h => exact absurd rfl (hp h)

/-- The loop of `get_string` on the spelling of a string. -/
theorem getStringFrom_pieces : ∀ pieces : List Piece,
    getStringFrom (pieces.flatMap Piece.text) = (chars pieces).map (·.flatMap Utf8.encode)
  | [] => rfl
  | .plain c h :: pieces => by
      rw [List.flatMap_cons, Piece.text,
        getStringFrom_append (fun b hb => ne_backslash_of_mem_encode h hb),
        getStringFrom_pieces pieces, chars, map_map_encode]
  | .escape e :: pieces => by
      refine (getStringFrom_escape e (pieces.flatMap Piece.text)).trans ?_
      rw [getStringFrom_pieces pieces, chars, map_map_encode]
  | .unicode h :: pieces => by
      by_cases hhigh : h.IsHigh
      · rw [chars.eq_def]
        dsimp only
        rw [if_pos hhigh]
        cases pieces with
        | nil => exact getStringFrom_lone hhigh (by simp)
        | cons piece pieces =>
            cases piece with
            | unicode low =>
                refine (getStringFrom_high hhigh low _).trans ?_
                dsimp only
                by_cases hlow : low.IsLow
                · rw [toUnicode_pair hhigh hlow, if_pos hlow, ← map_map_encode,
                    ← getStringFrom_pieces pieces]
                  rfl
                · rw [toUnicode_error hhigh hlow, if_neg hlow]
                  rfl
            | plain c h' =>
                exact getStringFrom_lone hhigh
                  (fun u rest htext => ne_unicode_of_pieces (p := .plain c h') (by simp) _ htext)
            | escape e =>
                exact getStringFrom_lone hhigh
                  (fun u rest htext => ne_unicode_of_pieces (p := .escape e) (by simp) _ htext)
      · rw [chars.eq_def]
        dsimp only
        rw [if_neg hhigh]
        by_cases hlow : h.IsLow
        · rw [if_pos hlow]
          exact getStringFrom_low hlow _
        · rw [if_neg hlow, ← map_map_encode, ← getStringFrom_pieces pieces]
          exact getStringFrom_unicode hhigh hlow _

/-- `get_string` on a string token. -/
theorem getString_text (s : Str) (rest : Text) :
    (getString ⟨.value_string, s.text, rest⟩).map ofText = s.value := by
  have hbody : s.text.tail.dropLast = s.body := by
    rw [Str.text, List.tail_cons, List.dropLast_concat]
  rw [getString, hbody, Str.body, getStringFrom_pieces, Str.value]
  cases chars s.pieces <;> rfl

/-! ## Numbers -/

theorem takeDigits_append {ds rest : Text} (hds : ∀ d ∈ ds, IsDigit d.toNat)
    (hrest : ∀ b ∈ rest.head?, ¬ IsDigit b.toNat) : takeDigits (ds ++ rest) = ds := by
  unfold takeDigits
  rw [List.takeWhile_append_of_pos (fun d hd => by simpa using hds d hd)]
  cases rest with
  | nil => simp
  | cons b rest => simp [hrest b (by simp)]

theorem dropDigits_append {ds rest : Text} (hds : ∀ d ∈ ds, IsDigit d.toNat)
    (hrest : ∀ b ∈ rest.head?, ¬ IsDigit b.toNat) : dropDigits (ds ++ rest) = rest := by
  unfold dropDigits
  rw [List.dropWhile_append_of_pos (fun d hd => by simpa using hds d hd)]
  cases rest with
  | nil => rfl
  | cons b rest => simp [hrest b (by simp)]

theorem isDigit_of_mem_int (int : IntPart) : ∀ d ∈ int.text, IsDigit d.toNat := by
  cases int with
  | zero =>
      intro d hd
      rw [List.mem_singleton.1 hd]
      decide
  | nonzero first hfirst ds hds =>
      intro d hd
      obtain rfl | hd := List.mem_cons.1 hd
      · exact hfirst.1
      · exact hds d hd

theorem ne_chr_of_isDigit {b : Byte} (h : IsDigit b.toNat) {c : Char}
    (hc : c.toNat < '0'.toNat ∨ '9'.toNat < c.toNat) (hlt : c.toNat < 256) : b ≠ chr c := by
  rintro rfl
  rw [toNat_chr hlt] at h
  exact ne_of_isDigit h hc rfl

theorem ne_chr_of_isExp {b : Byte} (h : IsExp b.toNat) : b ≠ chr '.' := by
  rintro rfl
  exact absurd h (by decide)

namespace Number

/-- What follows the integer part, and what follows the fraction. -/
theorem head_exponent (n : Number) {rest : Text} (hrest : NumberEnd rest) :
    ∀ b ∈ (n.exponentText ++ rest).head?, b ≠ chr '.' ∧ ¬ IsDigit b.toNat := by
  intro b hb
  obtain ⟨negative, int, fraction, exponent⟩ := n
  cases exponent with
  | none => exact ⟨(hrest b hb).1, (hrest b hb).2.1⟩
  | some e =>
      obtain rfl : e.letter.1 = b := Option.some.inj hb
      exact ⟨ne_chr_of_isExp e.letter.2, not_isDigit_of_isExp e.letter.2⟩

theorem head_fraction (n : Number) {rest : Text} (hrest : NumberEnd rest) :
    ∀ b ∈ (n.fractionText ++ (n.exponentText ++ rest)).head?, ¬ IsDigit b.toNat := by
  intro b hb
  obtain ⟨negative, int, fraction, exponent⟩ := n
  cases fraction with
  | none => exact (head_exponent ⟨negative, int, none, exponent⟩ hrest b hb).2
  | some ds =>
      obtain rfl : chr '.' = b := Option.some.inj hb
      decide

theorem takeSign_text (n : Number) (w : Text) :
    takeSign (n.signText ++ (n.int.text ++ w)) = (n.negative, n.int.text ++ w) := by
  obtain ⟨negative, int, fraction, exponent⟩ := n
  cases negative with
  | true => rfl
  | false =>
      obtain ⟨d, ds, hint⟩ : ∃ d ds, int.text = d :: ds := by cases int <;> exact ⟨_, _, rfl⟩
      have hd : IsDigit d.toNat := isDigit_of_mem_int _ d (by rw [hint]; simp)
      rw [hint]
      exact if_neg (ne_chr_of_isDigit hd (by decide) (by decide))

theorem takeFraction_text (n : Number) {rest : Text} (hrest : NumberEnd rest) :
    takeFraction (n.fractionText ++ (n.exponentText ++ rest))
      = (n.fractionDigits, n.exponentText ++ rest) := by
  have hhead := n.head_exponent hrest
  obtain ⟨negative, int, fraction, exponent⟩ := n
  cases fraction with
  | none =>
      change takeFraction (exponentText _ ++ rest) = ([], exponentText _ ++ rest)
      cases hE : exponentText ⟨negative, int, none, exponent⟩ ++ rest with
      | nil => rfl
      | cons b w => exact if_neg (hhead b (by rw [hE]; rfl)).1
  | some ds =>
      have htake := takeDigits_append ds.2.2 (fun b hb => (hhead b hb).2)
      have hdrop := dropDigits_append ds.2.2 (fun b hb => (hhead b hb).2)
      change takeFraction (chr '.' :: (ds.1 ++ (exponentText _ ++ rest))) = _
      rw [takeFraction, if_pos rfl, htake, hdrop]
      rfl

theorem takeExponentSign_text (sign : ExponentSign) (ds : Digits) (w : Text) :
    takeExponentSign (sign.text ++ (ds.1 ++ w)) = (decide (sign = .minus), ds.1 ++ w) := by
  cases sign with
  | none =>
      obtain ⟨d, ds', hds⟩ := List.exists_cons_of_ne_nil ds.2.1
      have hd : IsDigit d.toNat := ds.2.2 d (by rw [hds]; simp)
      rw [hds]
      exact (if_neg (ne_chr_of_isDigit hd (by decide) (by decide))).trans
        (if_neg (ne_chr_of_isDigit hd (by decide) (by decide)))
  | plus => rfl
  | minus => rfl

theorem takeExponent_text (n : Number) {rest : Text} (hrest : NumberEnd rest) :
    takeExponent (n.exponentText ++ rest) = (n.exponent.elim 0 Exponent.value, rest) := by
  obtain ⟨negative, int, fraction, exponent⟩ := n
  cases exponent with
  | none =>
      cases rest with
      | nil => rfl
      | cons b w => exact if_neg (hrest b rfl).2.2
  | some e =>
      obtain ⟨letter, sign, ds⟩ := e
      have htake := takeDigits_append ds.2.2 (fun b hb => (hrest b hb).2.1)
      have hdrop := dropDigits_append ds.2.2 (fun b hb => (hrest b hb).2.1)
      have htext : exponentText ⟨negative, int, fraction, some ⟨letter, sign, ds⟩⟩ ++ rest
          = letter.1 :: (sign.text ++ (ds.1 ++ rest)) := by
        simp [exponentText, Exponent.text]
      rw [htext, takeExponent]
      dsimp only
      rw [if_pos letter.2, takeExponentSign_text]
      dsimp only
      rw [htake, hdrop, if_neg ds.2.1]
      rfl

section

variable (toDouble : ℤ → ℤ → Option Double)

/-- `std::strtod` reads the number and nothing else. -/
theorem strtod_text (n : Number) {rest : Text} (hrest : NumberEnd rest) :
    strtod toDouble (n.text ++ rest)
      = (toDouble n.significand n.decimalExponent, n.text.length) := by
  have hint := takeDigits_append (isDigit_of_mem_int n.int) (n.head_fraction hrest)
  have hafter := dropDigits_append (isDigit_of_mem_int n.int) (n.head_fraction hrest)
  have htext : n.text ++ rest
      = n.signText ++ (n.int.text ++ (n.fractionText ++ (n.exponentText ++ rest))) := by
    simp [text]
  have hlength : (n.text ++ rest).length - rest.length = n.text.length := by
    rw [List.length_append]
    omega
  rw [htext] at hlength ⊢
  rw [strtod, n.takeSign_text]
  dsimp only
  rw [hint, hafter, n.takeFraction_text hrest]
  dsimp only
  rw [n.takeExponent_text hrest]
  dsimp only
  rw [hlength]
  rfl

theorem getFloat_text (n : Number) (t : TokenType) {rest : Text} (hrest : NumberEnd rest) :
    getFloat toDouble ⟨t, n.text, rest⟩ = some (n.floatValue toDouble) := by
  rw [getFloat, n.strtod_text toDouble hrest]
  dsimp only
  rw [if_pos rfl]
  rfl

theorem significand_of_isInteger {n : Number} (h : n.IsInteger) :
    n.significand = signed n.negative (digitsValue n.int.text) := by
  rw [significand, fractionDigits, h.1]
  simp

theorem text_of_isInteger {n : Number} (h : n.IsInteger) : n.text = n.signText ++ n.int.text := by
  rw [text, fractionText, exponentText, h.1, h.2]
  simp

@[simp] theorem signed_false (n : ℕ) : signed false n = n := rfl

@[simp] theorem signed_true (n : ℕ) : signed true n = -n := rfl

theorem getNumber_unsigned {n : Number} (hinteger : n.IsInteger) (hnegative : n.negative = false)
    {rest : Text} (hrest : NumberEnd rest) :
    getNumber toDouble ⟨.value_unsigned, n.text, rest⟩ = some (n.value toDouble) := by
  have hfloat := n.getFloat_text toDouble .value_unsigned hrest
  have hsignificand := significand_of_isInteger hinteger
  have htext : n.text = n.int.text := by
    rw [text_of_isInteger hinteger, signText, hnegative]
    rfl
  have htake := takeDigits_append (isDigit_of_mem_int n.int) (fun b hb => (hrest b hb).2.1)
  rw [hnegative, signed_false] at hsignificand
  rw [htext] at hfloat ⊢
  rw [getNumber, value, hsignificand]
  dsimp only
  rw [strtoull, htake]
  by_cases hlt : digitsValue n.int.text < 2 ^ 64
  · have hfits : n.IsInteger ∧ ¬ n.negative ∧ (digitsValue n.int.text : ℤ) < 2 ^ 64 :=
      ⟨hinteger, by simp [hnegative], by exact_mod_cast hlt⟩
    rw [if_pos hlt, if_pos hfits, BitVec.ofInt_natCast]
    exact if_pos rfl
  · have hbig : ¬ (digitsValue n.int.text : ℤ) < 2 ^ 64 := by exact_mod_cast hlt
    rw [if_neg hlt, if_neg (fun h => hbig h.2.2), if_neg (by simp [hnegative])]
    exact hfloat

theorem getNumber_integer {n : Number} (hinteger : n.IsInteger) (hnegative : n.negative = true)
    {rest : Text} (hrest : NumberEnd rest) :
    getNumber toDouble ⟨.value_integer, n.text, rest⟩ = some (n.value toDouble) := by
  have hfloat := n.getFloat_text toDouble .value_integer hrest
  have hsignificand := significand_of_isInteger hinteger
  have hdigit : ∀ b ∈ rest.head?, ¬ IsDigit b.toNat := fun b hb => (hrest b hb).2.1
  have htake := takeDigits_append (isDigit_of_mem_int n.int) hdigit
  have hdrop := dropDigits_append (isDigit_of_mem_int n.int) hdigit
  have htext : n.text ++ rest = n.signText ++ (n.int.text ++ rest) := by
    rw [text_of_isInteger hinteger, List.append_assoc]
  have hlength : (n.text ++ rest).length - rest.length = n.text.length := by
    rw [List.length_append]
    omega
  rw [hnegative, signed_true] at hsignificand
  rw [getNumber, value, hsignificand]
  dsimp only
  rw [strtoll, htext, n.takeSign_text, ← htext]
  dsimp only
  rw [htake, hdrop, hlength, hnegative, signed_true]
  have hle : -(digitsValue n.int.text : ℤ) < 2 ^ 63 := by omega
  by_cases hlow : -2 ^ 63 ≤ -(digitsValue n.int.text : ℤ)
  · rw [if_pos ⟨hlow, hle⟩, if_neg (by simp), if_pos ⟨hinteger, rfl, hlow⟩]
    exact if_pos rfl
  · rw [if_neg (fun h => hlow h.1), if_neg (by simp), if_neg (fun h => hlow h.2.2)]
    exact hfloat

/-- `get_number` gives the number that is written. -/
theorem getNumber_text (n : Number) {rest : Text} (hrest : NumberEnd rest) :
    getNumber toDouble ⟨n.token, n.text, rest⟩ = some (n.value toDouble) := by
  by_cases hinteger : n.IsInteger
  · cases hnegative : n.negative with
    | false =>
        have htoken : n.token = .value_unsigned := by simp [token, hinteger, hnegative]
        rw [htoken, getNumber_unsigned toDouble hinteger hnegative hrest]
    | true =>
        have htoken : n.token = .value_integer := by simp [token, hinteger, hnegative]
        rw [htoken, getNumber_integer toDouble hinteger hnegative hrest]
  · have htoken : n.token = .value_float := by simp [token, hinteger]
    rw [value, if_neg (fun h => hinteger h.1), if_neg (fun h => hinteger h.1), htoken]
    exact n.getFloat_text toDouble .value_float hrest

end

end Number

/-! ## What follows a number -/

theorem scan_error {b : Byte} {rest : Text} (hspace : ¬ IsSpace b.toNat) (hb : first b.toNat = .s4) :
    (scan (b :: rest)).last_token = .parse_error := by
  have hscan := scan_of_run (q := .s4) (w := []) ⟨[], by simp⟩ hspace (congrArg some hb) rfl
    (fun _ => rfl) rest
  simp only [List.nil_append, List.cons_append] at hscan
  rw [hscan]

theorem first_of_isExp {b : Byte} (h : IsExp b.toNat) : first b.toNat = .s4 := by
  obtain h | h := h <;> rw [h] <;> rfl

theorem isSome_accept_digit (n : Number) {b : Byte} (hb : IsDigit b.toNat) :
    ∃ q, next (numberState n) b.toNat = some q ∧ (accept q).isSome := by
  unfold numberState
  split
  · exact ⟨.s60, if_pos hb, rfl⟩
  split
  · exact ⟨.s56, if_pos hb, rfl⟩
  · cases n.negative <;> cases n.int <;> exact ⟨_, inInteger_digit hb, rfl⟩

theorem munch_of_scan {text lexeme rest : Text} {t : TokenType} {b : Byte}
    (h : scan text = ⟨t, lexeme, b :: rest⟩) :
    automaton.munch .start (text.dropWhile (fun b => IsSpace b.toNat))
      = some (t, lexeme, b :: rest) := by
  unfold scan at h
  split at h
  · next t' lexeme' rest' hmunch =>
      obtain ⟨rfl, rfl, rfl⟩ : t' = t ∧ lexeme' = lexeme ∧ rest' = b :: rest := by simpa using h
      exact hmunch
  · exact absurd h (by simp)

/-- A number token is followed by text that ends the number, or by an error. -/
theorem scan_after_number {text rest : Text} {n : Number}
    (h : scan text = ⟨n.token, n.text, rest⟩) :
    NumberEnd rest ∨ (scan rest).last_token = .parse_error := by
  cases rest with
  | nil => exact .inl (by simp [NumberEnd])
  | cons b rest =>
      by_cases hpoint : b = chr '.'
      · rw [hpoint]
        exact .inr (scan_error (by decide) rfl)
      by_cases hexp : IsExp b.toNat
      · have hspace : ¬ IsSpace b.toNat := by
          simp only [IsExp, IsSpace, Char.reduceToNat] at hexp ⊢
          omega
        exact .inr (scan_error hspace (first_of_isExp hexp))
      · refine .inl ?_
        intro b' hb'
        obtain rfl : b = b' := Option.some.inj hb'
        refine ⟨hpoint, ?_, hexp⟩
        intro hdigit
        obtain ⟨q, hnext, haccept⟩ := isSome_accept_digit n hdigit
        have hnone : accept q = none :=
          automaton.accept_eq_none_of_munch (munch_of_scan h) (run_number n) hnext
        rw [hnone] at haccept
        exact absurd haccept (by simp)

end Json.Grammar

end Gravioli
