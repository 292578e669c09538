import Mathlib.Data.List.TakeWhile
import Gravioli.Json.Grammar

set_option autoImplicit false

/-! # What the scanner recognizes

`Reads q w` describes the words that lead the automaton to the state `q`; a step of the automaton
preserves it (`reads_next`), and so every word the scanner accepts is spelled as the grammar says
(`scan_cases`). -/

namespace Gravioli

namespace Json.Grammar

open Lexer Scanner

/-! ## Bytes -/

theorem toNat_chr {c : Char} (h : c.toNat < 256) : (chr c).toNat = c.toNat := by
  simp only [chr, BitVec.toNat_ofNat]
  omega

theorem eq_chr_of_toNat {b : Byte} {c : Char} (h : b.toNat = c.toNat) : b = chr c := by
  apply BitVec.eq_of_toNat_eq
  rw [toNat_chr (h ▸ b.isLt), h]

theorem singleton_of_toNat {b : Byte} {c : Char} (h : b.toNat = c.toNat) : [b] = [chr c] := by
  rw [eq_chr_of_toNat h]

theorem exists_plain {b : Byte} (h : IsPlain b.toNat) : ∃ p : Piece, p.text = [b] := by
  simp only [IsPlain, Char.reduceToNat] at h
  obtain ⟨c, hc⟩ := Utf8.exists_toNat_eq (n := b.toNat) (Or.inl (by omega))
  have hquote : c ≠ '"' := fun heq => by simp [heq] at hc; omega
  have hbackslash : c ≠ '\\' := fun heq => by simp [heq] at hc; omega
  refine ⟨.plain c ⟨by omega, hquote, hbackslash⟩, ?_⟩
  rw [Piece.text, Utf8.encode_of_le c (by omega), Utf8.ofNat_eq_of_toNat hc.symm]

theorem exists_plain_of_multibyte {m : Text} (h : Utf8.Multibyte m) : ∃ p : Piece, p.text = m := by
  obtain ⟨c, hc, rfl⟩ := Utf8.exists_encode_eq h
  have hquote : c ≠ '"' := fun heq => by simp [heq] at hc
  have hbackslash : c ≠ '\\' := fun heq => by simp [heq] at hc
  exact ⟨.plain c ⟨by omega, hquote, hbackslash⟩, rfl⟩

/-! ## The words that lead to a state -/

/-- Inside a string: whole characters, then `m`. -/
def InBody (m w : Text) : Prop :=
  ∃ pieces : List Piece, w = chr '"' :: (pieces.flatMap Piece.text ++ m)

theorem InBody.concat {m w : Text} (h : InBody m w) (b : Byte) : InBody (m ++ [b]) (w ++ [b]) := by
  obtain ⟨pieces, rfl⟩ := h
  exact ⟨pieces, by simp⟩

theorem InBody.piece {m w : Text} (h : InBody m w) {p : Piece} (hp : p.text = m) : InBody [] w := by
  obtain ⟨pieces, rfl⟩ := h
  exact ⟨pieces ++ [p], by simp [hp]⟩

/-- The integer part of a number. -/
def integer (negative : Bool) (int : IntPart) : Number := ⟨negative, int, none, none⟩

/-- What the automaton has read when it is at a label. -/
def Reads : State → Text → Prop
  | .start, w => w = []
  | .s2, w => w = [0]
  | .s9, w => w = [chr '"']
  | .s10, w => w = [chr ',']
  | .s17, w => w = [chr ':']
  | .s19, w => w = [chr '[']
  | .s21, w => w = [chr ']']
  | .s26, w => w = [chr '{']
  | .s28, w => w = [chr '}']
  | .s23, w => w = [chr 'f']
  | .s52, w => w = [chr 'f', chr 'a']
  | .s62, w => w = [chr 'f', chr 'a', chr 'l']
  | .s66, w => w = [chr 'f', chr 'a', chr 'l', chr 's']
  | .s72, w => w = (Value.boolean false).text
  | .s24, w => w = [chr 'n']
  | .s53, w => w = [chr 'n', chr 'u']
  | .s63, w => w = [chr 'n', chr 'u', chr 'l']
  | .s67, w => w = Value.null.text
  | .s25, w => w = [chr 't']
  | .s54, w => w = [chr 't', chr 'r']
  | .s64, w => w = [chr 't', chr 'r', chr 'u']
  | .s69, w => w = (Value.boolean true).text
  | .s31, w => InBody [] w
  | .s33, w => ∃ s : Str, w = s.text
  | .s35, w => InBody [chr '\\'] w
  | .s55, w => InBody [chr '\\', chr 'u'] w
  | .s65, w => ∃ d₁ : HexDigit, InBody [chr '\\', chr 'u', d₁.1] w
  | .s71, w => ∃ d₁ d₂ : HexDigit, InBody [chr '\\', chr 'u', d₁.1, d₂.1] w
  | .s74, w => ∃ d₁ d₂ d₃ : HexDigit, InBody [chr '\\', chr 'u', d₁.1, d₂.1, d₃.1] w
  | .s36, w => ∃ m, (∀ b, Utf8.IsTail b → Utf8.Multibyte (m ++ [b])) ∧ InBody m w
  | .s37, w => ∃ a : Byte, a.toNat = 0xE0 ∧ InBody [a] w
  | .s38, w =>
      ∃ m, (∀ b c, Utf8.IsTail b → Utf8.IsTail c → Utf8.Multibyte (m ++ [b, c])) ∧ InBody m w
  | .s39, w => ∃ a : Byte, a.toNat = 0xED ∧ InBody [a] w
  | .s40, w => ∃ a : Byte, a.toNat = 0xF0 ∧ InBody [a] w
  | .s41, w => ∃ a : Byte, (0xF1 ≤ a.toNat ∧ a.toNat ≤ 0xF3) ∧ InBody [a] w
  | .s42, w => ∃ a : Byte, a.toNat = 0xF4 ∧ InBody [a] w
  | .s12, w => w = [chr '-']
  | .s13, w => w = (integer false .zero).text
  | .s43, w => w = (integer true .zero).text
  | .s15, w => ∃ first hfirst ds hds, w = (integer false (.nonzero first hfirst ds hds)).text
  | .s45, w => ∃ first hfirst ds hds, w = (integer true (.nonzero first hfirst ds hds)).text
  | .s47, w => ∃ negative int, w = (integer negative int).text ++ [chr '.']
  | .s56, w => ∃ negative int fraction, w = (Number.mk negative int (some fraction) none).text
  | .s51, w => ∃ negative int fraction, ∃ e : {b : Byte // IsExp b.toNat},
      w = (Number.mk negative int fraction none).text ++ [e.1]
  | .s59, w => ∃ negative int fraction, ∃ e : {b : Byte // IsExp b.toNat}, ∃ sign : ExponentSign,
      w = (Number.mk negative int fraction none).text ++ e.1 :: sign.text
  | .s60, w => ∃ negative int fraction e, w = (Number.mk negative int fraction (some e)).text
  | .s4, _ => True
  | .s48, _ => True

theorem reads_first {b : Byte} {q : State} (h : first b.toNat = q) : Reads q [b] := by
  unfold first at h
  obtain ⟨h0, rfl⟩ | ⟨-, h⟩ := ite_eq_iff.1 h
  · exact congrArg (fun b => [b]) (BitVec.eq_of_toNat_eq (by simpa using h0))
  obtain ⟨h1, rfl⟩ | ⟨-, h⟩ := ite_eq_iff.1 h
  · exact singleton_of_toNat h1
  obtain ⟨h2, rfl⟩ | ⟨-, h⟩ := ite_eq_iff.1 h
  · exact singleton_of_toNat h2
  obtain ⟨h3, rfl⟩ | ⟨-, h⟩ := ite_eq_iff.1 h
  · exact singleton_of_toNat h3
  obtain ⟨h4, rfl⟩ | ⟨h4, h⟩ := ite_eq_iff.1 h
  · exact singleton_of_toNat h4
  obtain ⟨h5, rfl⟩ | ⟨-, h⟩ := ite_eq_iff.1 h
  · exact ⟨b, ⟨h5, fun heq => h4 (by rw [heq]; rfl)⟩, [], by simp, rfl⟩
  obtain ⟨h6, rfl⟩ | ⟨-, h⟩ := ite_eq_iff.1 h
  · exact singleton_of_toNat h6
  obtain ⟨h7, rfl⟩ | ⟨-, h⟩ := ite_eq_iff.1 h
  · exact singleton_of_toNat h7
  obtain ⟨h8, rfl⟩ | ⟨-, h⟩ := ite_eq_iff.1 h
  · exact singleton_of_toNat h8
  obtain ⟨h9, rfl⟩ | ⟨-, h⟩ := ite_eq_iff.1 h
  · exact singleton_of_toNat h9
  obtain ⟨h10, rfl⟩ | ⟨-, h⟩ := ite_eq_iff.1 h
  · exact singleton_of_toNat h10
  obtain ⟨h11, rfl⟩ | ⟨-, h⟩ := ite_eq_iff.1 h
  · exact singleton_of_toNat h11
  obtain ⟨h12, rfl⟩ | ⟨-, h⟩ := ite_eq_iff.1 h
  · exact singleton_of_toNat h12
  obtain ⟨h13, rfl⟩ | ⟨-, rfl⟩ := ite_eq_iff.1 h
  · exact singleton_of_toNat h13
  · trivial

theorem reads_inString {w : Text} {b : Byte} {q : State} (hw : InBody [] w)
    (h : inString b.toNat = some q) : Reads q (w ++ [b]) := by
  have hb := hw.concat b
  unfold inString at h
  obtain ⟨hplain, h⟩ | ⟨-, h⟩ := ite_eq_iff.1 h
  · obtain ⟨p, hp⟩ := exists_plain hplain
    obtain rfl := Option.some.inj h
    exact hb.piece hp
  obtain ⟨-, h⟩ | ⟨-, h⟩ := ite_eq_iff.1 h
  · exact absurd h (by simp)
  obtain ⟨hquote, h⟩ | ⟨-, h⟩ := ite_eq_iff.1 h
  · obtain ⟨pieces, rfl⟩ := hw
    obtain rfl := Option.some.inj h
    exact ⟨⟨pieces⟩, by simp [Str.text, Str.body, eq_chr_of_toNat hquote]⟩
  obtain ⟨hbackslash, h⟩ | ⟨-, h⟩ := ite_eq_iff.1 h
  · obtain rfl := Option.some.inj h
    rwa [eq_chr_of_toNat hbackslash] at hb ⊢
  obtain ⟨-, h⟩ | ⟨h5, h⟩ := ite_eq_iff.1 h
  · exact absurd h (by simp)
  obtain ⟨h6, h⟩ | ⟨h6, h⟩ := ite_eq_iff.1 h
  · obtain rfl := Option.some.inj h
    exact ⟨[b], fun c hc => .two ⟨by omega, h6⟩ hc, hb⟩
  obtain ⟨h7, h⟩ | ⟨h7, h⟩ := ite_eq_iff.1 h
  · obtain rfl := Option.some.inj h
    exact ⟨b, h7, hb⟩
  obtain ⟨h8, h⟩ | ⟨h8, h⟩ := ite_eq_iff.1 h
  · obtain rfl := Option.some.inj h
    exact ⟨b, h8, hb⟩
  obtain ⟨h9, h⟩ | ⟨h9, h⟩ := ite_eq_iff.1 h
  · obtain rfl := Option.some.inj h
    exact ⟨[b], fun c d hc hd => .three ⟨by omega, h9⟩ hc hd (by omega) (by omega), hb⟩
  obtain ⟨h10, h⟩ | ⟨h10, h⟩ := ite_eq_iff.1 h
  · obtain rfl := Option.some.inj h
    exact ⟨b, h10, hb⟩
  obtain ⟨h11, h⟩ | ⟨h11, h⟩ := ite_eq_iff.1 h
  · obtain rfl := Option.some.inj h
    exact ⟨b, ⟨by omega, h11⟩, hb⟩
  obtain ⟨h12, h⟩ | ⟨-, h⟩ := ite_eq_iff.1 h
  · obtain rfl := Option.some.inj h
    exact ⟨b, h12, hb⟩
  · exact absurd h (by simp)

theorem exists_escape {b : Byte}
    (h : b.toNat = '"'.toNat ∨ b.toNat = '/'.toNat ∨ b.toNat = '\\'.toNat ∨ b.toNat = 'b'.toNat ∨
      b.toNat = 'f'.toNat ∨ b.toNat = 'n'.toNat ∨ b.toNat = 'r'.toNat ∨ b.toNat = 't'.toNat) :
    ∃ e : Escape, b = chr e.letter := by
  obtain h | h | h | h | h | h | h | h := h
  · exact ⟨.quote, eq_chr_of_toNat h⟩
  · exact ⟨.slash, eq_chr_of_toNat h⟩
  · exact ⟨.backslash, eq_chr_of_toNat h⟩
  · exact ⟨.backspace, eq_chr_of_toNat h⟩
  · exact ⟨.formFeed, eq_chr_of_toNat h⟩
  · exact ⟨.newline, eq_chr_of_toNat h⟩
  · exact ⟨.carriageReturn, eq_chr_of_toNat h⟩
  · exact ⟨.tab, eq_chr_of_toNat h⟩

theorem reads_inEscape {w : Text} {b : Byte} {q : State} (hw : InBody [chr '\\'] w)
    (h : inEscape b.toNat = some q) : Reads q (w ++ [b]) := by
  have hb := hw.concat b
  unfold inEscape at h
  obtain ⟨hletter, h⟩ | ⟨-, h⟩ := ite_eq_iff.1 h
  · obtain rfl := Option.some.inj h
    obtain ⟨e, rfl⟩ := exists_escape hletter
    exact hb.piece (p := .escape e) rfl
  obtain ⟨hu, h⟩ | ⟨-, h⟩ := ite_eq_iff.1 h
  · obtain rfl := Option.some.inj h
    rwa [eq_chr_of_toNat hu] at hb ⊢
  · exact absurd h (by simp)

theorem eq_of_within {low high yych : ℕ} {q q' : State} (h : within low high q yych = some q') :
    (low ≤ yych ∧ yych ≤ high) ∧ q' = q := by
  obtain ⟨hrange, h⟩ | ⟨-, h⟩ := ite_eq_iff.1 h
  · exact ⟨hrange, (Option.some.inj h).symm⟩
  · exact absurd h (by simp)

theorem eq_of_letter {c : Char} {b : Byte} {q q' : State} (h : letter c q b.toNat = some q') :
    b = chr c ∧ q' = q := by
  obtain ⟨hc, h⟩ | ⟨-, h⟩ := ite_eq_iff.1 h
  · exact ⟨eq_chr_of_toNat hc, (Option.some.inj h).symm⟩
  · exact absurd h (by simp)

theorem eq_of_ite {c : Prop} [Decidable c] {q q' : State}
    (h : (if c then some q else none) = some q') : c ∧ q' = q := by
  obtain ⟨hc, h⟩ | ⟨-, h⟩ := ite_eq_iff.1 h
  · exact ⟨hc, (Option.some.inj h).symm⟩
  · exact absurd h (by simp)

/-- After the integer part: a point, one more digit or the letter of an exponent. -/
theorem eq_of_inInteger {digit q' : State} {b : Byte} (h : inInteger digit b.toNat = some q') :
    (b = chr '.' ∧ q' = .s47) ∨ (IsDigit b.toNat ∧ q' = digit) ∨ (IsExp b.toNat ∧ q' = .s51) := by
  unfold inInteger at h
  obtain ⟨hpoint, h⟩ | ⟨-, h⟩ := ite_eq_iff.1 h
  · exact .inl ⟨eq_chr_of_toNat hpoint, (Option.some.inj h).symm⟩
  obtain ⟨hdigit, h⟩ | ⟨-, h⟩ := ite_eq_iff.1 h
  · exact .inr (.inl ⟨hdigit, (Option.some.inj h).symm⟩)
  · obtain ⟨hexp, rfl⟩ := eq_of_ite h
    exact .inr (.inr ⟨hexp, rfl⟩)

/-- One digit after the integer part was complete. -/
theorem reads_inInteger {w : Text} {b : Byte} (digit : State) {q : State} {negative : Bool}
    {int : IntPart}
    (hw : w = (integer negative int).text) (hdigit : IsDigit b.toNat → Reads digit (w ++ [b]))
    (h : inInteger digit b.toNat = some q) : Reads q (w ++ [b]) := by
  obtain ⟨rfl, rfl⟩ | ⟨hb, rfl⟩ | ⟨hb, rfl⟩ := eq_of_inInteger h
  · exact ⟨negative, int, by rw [hw]⟩
  · exact hdigit hb
  · exact ⟨negative, int, none, ⟨b, hb⟩, by rw [hw]; rfl⟩

theorem forall_concat {P : Byte → Prop} {ds : Text} (h : ∀ d ∈ ds, P d) {b : Byte} (hb : P b) :
    ∀ d ∈ ds ++ [b], P d := by
  intro d hd
  obtain hd | hd := List.mem_append.1 hd
  · exact h d hd
  · rwa [List.mem_singleton.1 hd]

/-- One more digit of the integer part. -/
theorem reads_digit {w : Text} {b : Byte} {negative : Bool} {first : Byte}
    {hfirst : IsDigit first.toNat ∧ first ≠ chr '0'} {ds : Text} {hds : ∀ d ∈ ds, IsDigit d.toNat}
    (hw : w = (integer negative (.nonzero first hfirst ds hds)).text) (hb : IsDigit b.toNat) :
    ∃ first hfirst ds hds, w ++ [b] = (integer negative (.nonzero first hfirst ds hds)).text :=
  ⟨first, hfirst, ds ++ [b], forall_concat (P := fun d => IsDigit d.toNat) hds hb, by
    rw [hw]
    simp [Number.text, integer, IntPart.text, Number.fractionText, Number.exponentText]
    rfl⟩

/-! ### A step of the automaton, by groups of labels -/

/-- Directly after the opening quote. -/
theorem reads_quote {q' : State} {w : Text} {b : Byte} (hw : Reads .s9 w)
    (h : next .s9 b.toNat = some q') : Reads q' (w ++ [b]) := by
  obtain rfl : w = [chr '"'] := hw
  have hbody : InBody [] [chr '"'] := ⟨[], rfl⟩
  change (if _ then _ else _) = _ at h
  obtain ⟨-, h⟩ | ⟨-, h⟩ := ite_eq_iff.1 h
  · exact absurd h (by simp)
  obtain ⟨-, h⟩ | ⟨-, h⟩ := ite_eq_iff.1 h
  · exact reads_inString hbody h
  obtain ⟨-, h⟩ | ⟨-, h⟩ := ite_eq_iff.1 h
  · exact absurd h (by simp)
  obtain ⟨-, h⟩ | ⟨-, h⟩ := ite_eq_iff.1 h
  · exact reads_inString hbody h
  · exact absurd h (by simp)

/-- Inside a character of more than one byte. -/
theorem reads_multibyte {q q' : State} {w : Text} {b : Byte}
    (hq : q ∈ [.s36, .s37, .s38, .s39, .s40, .s41, .s42]) (hw : Reads q w)
    (h : next q b.toNat = some q') : Reads q' (w ++ [b]) := by
  cases q with
  | s36 =>
      obtain ⟨m, hm, hbody⟩ := hw
      obtain ⟨hb, rfl⟩ := eq_of_within h
      obtain ⟨p, hp⟩ := exists_plain_of_multibyte (hm b hb)
      exact (hbody.concat b).piece hp
  | s37 =>
      obtain ⟨a, ha, hbody⟩ := hw
      obtain ⟨hb, rfl⟩ := eq_of_within h
      exact ⟨[a, b], fun c hc => .three (by omega) ⟨by omega, hb.2⟩ hc (by omega) (by omega),
        hbody.concat b⟩
  | s38 =>
      obtain ⟨m, hm, hbody⟩ := hw
      obtain ⟨hb, rfl⟩ := eq_of_within h
      exact ⟨m ++ [b], fun c hc => by simpa using hm b c hb hc, hbody.concat b⟩
  | s39 =>
      obtain ⟨a, ha, hbody⟩ := hw
      obtain ⟨hb, rfl⟩ := eq_of_within h
      exact ⟨[a, b], fun c hc => .three (by omega) ⟨hb.1, by omega⟩ hc (by omega) (by omega),
        hbody.concat b⟩
  | s40 =>
      obtain ⟨a, ha, hbody⟩ := hw
      obtain ⟨hb, rfl⟩ := eq_of_within h
      exact ⟨[a, b], fun c d hc hd => .four (by omega) ⟨by omega, hb.2⟩ hc hd (by omega) (by omega),
        hbody.concat b⟩
  | s41 =>
      obtain ⟨a, ha, hbody⟩ := hw
      obtain ⟨hb, rfl⟩ := eq_of_within h
      exact ⟨[a, b], fun c d hc hd => .four (by omega) hb hc hd (by omega) (by omega),
        hbody.concat b⟩
  | s42 =>
      obtain ⟨a, ha, hbody⟩ := hw
      obtain ⟨hb, rfl⟩ := eq_of_within h
      exact ⟨[a, b], fun c d hc hd => .four (by omega) ⟨hb.1, by omega⟩ hc hd (by omega) (by omega),
        hbody.concat b⟩
  | _ => exact absurd hq (by decide)

/-- Inside a unicode escape. -/
theorem reads_hexDigit {q q' : State} {w : Text} {b : Byte} (hq : q ∈ [.s55, .s65, .s71, .s74])
    (hw : Reads q w) (h : next q b.toNat = some q') : Reads q' (w ++ [b]) := by
  cases q with
  | s55 =>
      obtain ⟨hb, rfl⟩ := eq_of_ite h
      exact ⟨⟨b, hb⟩, hw.concat b⟩
  | s65 =>
      obtain ⟨d₁, hbody⟩ := hw
      obtain ⟨hb, rfl⟩ := eq_of_ite h
      exact ⟨d₁, ⟨b, hb⟩, hbody.concat b⟩
  | s71 =>
      obtain ⟨d₁, d₂, hbody⟩ := hw
      obtain ⟨hb, rfl⟩ := eq_of_ite h
      exact ⟨d₁, d₂, ⟨b, hb⟩, hbody.concat b⟩
  | s74 =>
      obtain ⟨d₁, d₂, d₃, hbody⟩ := hw
      obtain ⟨hb, rfl⟩ := eq_of_ite h
      exact (hbody.concat b).piece (p := .unicode ⟨d₁, d₂, d₃, ⟨b, hb⟩⟩) rfl
  | _ => exact absurd hq (by decide)

/-- Inside the integer part of a number, or after it. -/
theorem reads_integerPart {q q' : State} {w : Text} {b : Byte}
    (hq : q ∈ [.s12, .s13, .s15, .s43, .s45, .s48]) (hw : Reads q w)
    (h : next q b.toNat = some q') : Reads q' (w ++ [b]) := by
  cases q with
  | s12 =>
      obtain rfl : w = [chr '-'] := hw
      change (if _ then _ else _) = _ at h
      obtain ⟨hzero, h⟩ | ⟨hzero, h⟩ := ite_eq_iff.1 h
      · obtain rfl := Option.some.inj h
        rw [eq_chr_of_toNat hzero]
        rfl
      · obtain ⟨hb, rfl⟩ := eq_of_ite h
        exact ⟨b, ⟨hb, fun heq => hzero (by rw [heq]; rfl)⟩, [], by simp, rfl⟩
  | s13 => exact reads_inInteger .s48 hw (fun _ => trivial) h
  | s43 => exact reads_inInteger .s48 hw (fun _ => trivial) h
  | s15 =>
      obtain ⟨first, hfirst, ds, hds, hw⟩ := hw
      exact reads_inInteger _ hw (reads_digit hw) h
  | s45 =>
      obtain ⟨first, hfirst, ds, hds, hw⟩ := hw
      exact reads_inInteger _ hw (reads_digit hw) h
  | s48 =>
      obtain ⟨-, rfl⟩ := eq_of_ite h
      trivial
  | _ => exact absurd hq (by decide)

/-- After the point of a number. -/
theorem reads_fractionPart {q q' : State} {w : Text} {b : Byte} (hq : q ∈ [.s47, .s56])
    (hw : Reads q w) (h : next q b.toNat = some q') : Reads q' (w ++ [b]) := by
  cases q with
  | s47 =>
      obtain ⟨negative, int, rfl⟩ := hw
      obtain ⟨hb, rfl⟩ := eq_of_ite h
      exact ⟨negative, int, ⟨[b], by simp, by simpa using hb⟩, by
        simp [Number.text, integer, Number.fractionText, Number.exponentText]
        rfl⟩
  | s56 =>
      obtain ⟨negative, int, fraction, rfl⟩ := hw
      change (if _ then _ else _) = _ at h
      obtain ⟨hb, h⟩ | ⟨-, h⟩ := ite_eq_iff.1 h
      · obtain rfl := Option.some.inj h
        refine ⟨negative, int, ⟨fraction.1 ++ [b], by simp,
          forall_concat (P := fun d => IsDigit d.toNat) fraction.2.2 hb⟩, ?_⟩
        simp [Number.text, Number.fractionText, Number.exponentText]
        rfl
      · obtain ⟨hb, rfl⟩ := eq_of_ite h
        exact ⟨negative, int, some fraction, ⟨b, hb⟩, rfl⟩
  | _ => exact absurd hq (by decide)

/-- After the letter of an exponent. -/
theorem reads_exponentPart {q q' : State} {w : Text} {b : Byte} (hq : q ∈ [.s51, .s59, .s60])
    (hw : Reads q w) (h : next q b.toNat = some q') : Reads q' (w ++ [b]) := by
  cases q with
  | s51 =>
      obtain ⟨negative, int, fraction, e, rfl⟩ := hw
      change (if _ then _ else _) = _ at h
      obtain ⟨hsign | hsign, h⟩ | ⟨-, h⟩ := ite_eq_iff.1 h
      · obtain rfl := Option.some.inj h
        exact ⟨negative, int, fraction, e, .plus, by simp [eq_chr_of_toNat hsign, ExponentSign.text]⟩
      · obtain rfl := Option.some.inj h
        exact ⟨negative, int, fraction, e, .minus, by simp [eq_chr_of_toNat hsign, ExponentSign.text]⟩
      · obtain ⟨hb, rfl⟩ := eq_of_ite h
        exact ⟨negative, int, fraction, ⟨e, .none, ⟨[b], by simp, by simpa using hb⟩⟩, by
          simp [Number.text, Number.exponentText, Exponent.text, ExponentSign.text]
          rfl⟩
  | s59 =>
      obtain ⟨negative, int, fraction, e, sign, rfl⟩ := hw
      obtain ⟨hb, rfl⟩ := eq_of_ite h
      exact ⟨negative, int, fraction, ⟨e, sign, ⟨[b], by simp, by simpa using hb⟩⟩, by
        simp [Number.text, Number.exponentText, Exponent.text]
        rfl⟩
  | s60 =>
      obtain ⟨negative, int, fraction, e, rfl⟩ := hw
      obtain ⟨hb, rfl⟩ := eq_of_ite h
      refine ⟨negative, int, fraction, ⟨e.letter, e.sign, ⟨e.digits.1 ++ [b], by simp,
        forall_concat (P := fun d => IsDigit d.toNat) e.digits.2.2 hb⟩⟩, ?_⟩
      simp [Number.text, Number.exponentText, Exponent.text]
      rfl
  | _ => exact absurd hq (by decide)

/-- One more letter of a literal. -/
theorem reads_letter {c : Char} {q q' : State} {word w : Text} {b : Byte} (hw : w = word)
    (h : letter c q b.toNat = some q') (hq : Reads q (word ++ [chr c])) : Reads q' (w ++ [b]) := by
  obtain ⟨rfl, rfl⟩ := eq_of_letter h
  rwa [hw]

/-- A step of the automaton preserves what is known of the word read so far. -/
theorem reads_next {q q' : State} {w : Text} {b : Byte} (hw : Reads q w)
    (h : next q b.toNat = some q') : Reads q' (w ++ [b]) := by
  cases q with
  | start =>
      obtain rfl : w = [] := hw
      exact reads_first (Option.some.inj h)
  | s9 => exact reads_quote hw h
  | s31 => exact reads_inString hw h
  | s35 => exact reads_inEscape hw h
  | s36 | s37 | s38 | s39 | s40 | s41 | s42 => exact reads_multibyte (by decide) hw h
  | s55 | s65 | s71 | s74 => exact reads_hexDigit (by decide) hw h
  | s12 | s13 | s15 | s43 | s45 | s48 => exact reads_integerPart (by decide) hw h
  | s47 | s56 => exact reads_fractionPart (by decide) hw h
  | s51 | s59 | s60 => exact reads_exponentPart (by decide) hw h
  | s23 | s52 | s62 | s66 => exact reads_letter hw h rfl
  | s24 | s53 | s63 => exact reads_letter hw h rfl
  | s25 | s54 | s64 => exact reads_letter hw h rfl
  -- nothing leads on from the other labels
  | _ => exact absurd h (by simp [next])

theorem reads_run {q q' : State} {w w' : Text} (hw : Reads q w)
    (h : automaton.run q w' = some q') : Reads q' (w ++ w') := by
  induction w' generalizing q w with
  | nil =>
      obtain rfl := Option.some.inj h
      rwa [List.append_nil]
  | cons b w' ih =>
      obtain ⟨q₁, hnext, hrun⟩ := automaton.run_cons_eq_some.1 h
      simpa using ih (reads_next hw hnext) hrun

/-! ## The spelling of a token -/

/-- The texts of a token. -/
def Spelled : TokenType → Text → Prop
  | .uninitialized, _ => False
  | .literal_true, w => w = (Value.boolean true).text
  | .literal_false, w => w = (Value.boolean false).text
  | .literal_null, w => w = Value.null.text
  | .value_string, w => ∃ s : Str, w = s.text
  | .value_unsigned, w => ∃ n : Number, n.token = .value_unsigned ∧ w = n.text
  | .value_integer, w => ∃ n : Number, n.token = .value_integer ∧ w = n.text
  | .value_float, w => ∃ n : Number, n.token = .value_float ∧ w = n.text
  | .begin_array, w => w = [chr '[']
  | .begin_object, w => w = [chr '{']
  | .end_array, w => w = [chr ']']
  | .end_object, w => w = [chr '}']
  | .name_separator, w => w = [chr ':']
  | .value_separator, w => w = [chr ',']
  | .parse_error, _ => True
  | .end_of_input, w => w = [0]

theorem spelled_of_accept {q : State} {t : TokenType} {w : Text} (hw : Reads q w)
    (h : accept q = some t) : Spelled t w := by
  cases q with
  | s13 =>
      obtain rfl := Option.some.inj h
      exact ⟨_, rfl, hw⟩
  | s43 =>
      obtain rfl := Option.some.inj h
      exact ⟨_, rfl, hw⟩
  | s15 =>
      obtain rfl := Option.some.inj h
      obtain ⟨first, hfirst, ds, hds, rfl⟩ := hw
      exact ⟨_, rfl, rfl⟩
  | s45 =>
      obtain rfl := Option.some.inj h
      obtain ⟨first, hfirst, ds, hds, rfl⟩ := hw
      exact ⟨_, rfl, rfl⟩
  | s56 =>
      obtain rfl := Option.some.inj h
      obtain ⟨negative, int, fraction, rfl⟩ := hw
      exact ⟨_, rfl, rfl⟩
  | s60 =>
      obtain rfl := Option.some.inj h
      obtain ⟨negative, int, fraction, e, rfl⟩ := hw
      exact ⟨_, by simp [Number.token, Number.IsInteger], rfl⟩
  | _ =>
      first
      | (obtain rfl := Option.some.inj h; exact hw)
      | (obtain rfl := Option.some.inj h; trivial)
      | exact absurd h (by simp [accept])

/-- One byte is always enough for a token. -/
theorem isSome_accept_first (yych : ℕ) : (accept (first yych)).isSome := by
  unfold first
  iterate 14
    refine iteInduction (motive := fun q => (accept q).isSome) (fun _ => rfl) (fun _ => ?_)
  rfl

/-- A call of `scan()`: either only white space is left, or a token that is spelled as its class
    demands comes next. -/
theorem scan_cases (text : Text) :
    ((∀ b ∈ text, IsSpace b.toNat) ∧ scan text = ⟨.end_of_input, [], []⟩) ∨
      ∃ (space : Space) (t : TokenType) (lexeme rest : Text),
        text = space.1 ++ (lexeme ++ rest) ∧ scan text = ⟨t, lexeme, rest⟩ ∧ lexeme ≠ [] ∧
          Spelled t lexeme := by
  have hsplit := List.takeWhile_append_dropWhile (p := fun b : Byte => decide (IsSpace b.toNat))
    (l := text)
  have hspace : ∀ b ∈ text.takeWhile (fun b : Byte => decide (IsSpace b.toNat)),
      IsSpace b.toNat := by
    intro b hb
    simpa using List.mem_takeWhile_imp hb
  cases hmunch : automaton.munch .start (text.dropWhile (fun b => IsSpace b.toNat)) with
  | none =>
      refine .inl ⟨?_, by simp [scan, hmunch]⟩
      cases hrest : text.dropWhile (fun b : Byte => decide (IsSpace b.toNat)) with
      | nil =>
          rw [hrest, List.append_nil] at hsplit
          rwa [hsplit] at hspace
      | cons b rest =>
          obtain ⟨t, ht⟩ := Option.isSome_iff_exists.1 (isSome_accept_first b.toNat)
          have := automaton.munch_isSome_of_accept (q := .start) (a := b) rest rfl ht
          rw [hrest] at hmunch
          simp [hmunch] at this
  | some r =>
      obtain ⟨t, lexeme, rest⟩ := r
      obtain ⟨hrest, hne, q, hrun, haccept⟩ := automaton.munch_sound hmunch
      refine .inr ⟨⟨_, hspace⟩, t, lexeme, rest, ?_, by simp [scan, hmunch], hne, ?_⟩
      · rw [← hrest, hsplit]
      · exact spelled_of_accept (reads_run (q := .start) (w := []) rfl hrun) haccept

end Json.Grammar

end Gravioli
