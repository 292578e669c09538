import Gravioli.Json.Parser

set_option autoImplicit false

/-! # JSON documents

The concrete syntax of JSON as data: a tree that keeps the white space, the spelling of every string
and of every number. A tree cannot be ill-formed; `text` writes it down and `value` is what it means.

The meaning is stated without the lexer: a string denotes characters, and fails only where a
surrogate stands alone; a number denotes an integer if it is written as one and fits, and a `double`
otherwise. -/

namespace Gravioli

namespace Json

namespace Grammar

open Lexer

/-- White space. -/
abbrev Space := {w : Text // ∀ b ∈ w, IsSpace b.toNat}

/-! ## Strings -/

/-- A hex digit, in either case. -/
abbrev HexDigit := {b : Byte // IsHex b.toNat}

/-- The four digits after `\u`. -/
structure Hex4 where
  d₁ : HexDigit
  d₂ : HexDigit
  d₃ : HexDigit
  d₄ : HexDigit

/-- The digits as they are written. -/
def Hex4.text (h : Hex4) : Text := [h.d₁.1, h.d₂.1, h.d₃.1, h.d₄.1]

/-- The code unit they stand for. -/
def Hex4.value (h : Hex4) : ℕ :=
  ((hexValue h.d₁.1 * 16 + hexValue h.d₂.1) * 16 + hexValue h.d₃.1) * 16 + hexValue h.d₄.1

/-- A high surrogate. -/
def Hex4.IsHigh (h : Hex4) : Prop := 0xD800 ≤ h.value ∧ h.value ≤ 0xDBFF

/-- A low surrogate. -/
def Hex4.IsLow (h : Hex4) : Prop := 0xDC00 ≤ h.value ∧ h.value ≤ 0xDFFF

instance (h : Hex4) : Decidable h.IsHigh := inferInstanceAs (Decidable (_ ∧ _))
instance (h : Hex4) : Decidable h.IsLow := inferInstanceAs (Decidable (_ ∧ _))

/-- The character two surrogates stand for. -/
def surrogatePair (high low : Hex4) : Char :=
  Char.ofNat (0x10000 + (high.value - 0xD800) * 0x400 + (low.value - 0xDC00))

/-- The escapes of one letter. -/
inductive Escape
  | tab
  | backspace
  | formFeed
  | newline
  | carriageReturn
  | backslash
  | slash
  | quote

/-- The letter behind the backslash. -/
def Escape.letter : Escape → Char
  | .tab => 't'
  | .backspace => 'b'
  | .formFeed => 'f'
  | .newline => 'n'
  | .carriageReturn => 'r'
  | .backslash => '\\'
  | .slash => '/'
  | .quote => '"'

/-- The character it stands for. -/
def Escape.char : Escape → Char
  | .tab => '\t'
  | .backspace => '\x08'
  | .formFeed => '\x0c'
  | .newline => '\n'
  | .carriageReturn => '\r'
  | .backslash => '\\'
  | .slash => '/'
  | .quote => '"'

/-- One character of a string, or half of one. -/
inductive Piece
  | plain (c : Char) (h : 0x20 ≤ c.toNat ∧ c ≠ '"' ∧ c ≠ '\\')
  | escape (e : Escape)
  | unicode (h : Hex4)

/-- A piece as it is written. -/
def Piece.text : Piece → Text
  | .plain c _ => Utf8.encode c
  | .escape e => [chr '\\', chr e.letter]
  | .unicode h => chr '\\' :: chr 'u' :: h.text

/-- The characters of a string. -/
def chars : List Piece → Except String (List Char)
  | [] => .ok []
  | .plain c _ :: pieces => (chars pieces).map (c :: ·)
  | .escape e :: pieces => (chars pieces).map (e.char :: ·)
  | .unicode h :: pieces =>
      if h.IsHigh then
        match pieces with
        | .unicode low :: pieces =>
            if low.IsLow then (chars pieces).map (surrogatePair h low :: ·)
            else .error "missing or wrong low surrogate"
        | _ => .error "missing low surrogate"
      else if h.IsLow then .error "missing high surrogate"
      else (chars pieces).map (Char.ofNat h.value :: ·)

/-- A string with its quotes. -/
structure Str where
  pieces : List Piece

namespace Str

/-- What stands between the quotes. -/
def body (s : Str) : Text := s.pieces.flatMap Piece.text

/-- The string as it is written. -/
def text (s : Str) : Text := chr '"' :: (s.body ++ [chr '"'])

/-- The `std::string` a string denotes: the UTF-8 encoding of its characters. -/
def value (s : Str) : Except String String :=
  (chars s.pieces).map (fun cs => ofText (cs.flatMap Utf8.encode))

end Str

/-! ## Numbers -/

/-- At least one digit. -/
abbrev Digits := {ds : Text // ds ≠ [] ∧ ∀ d ∈ ds, IsDigit d.toNat}

/-- The digits before the point: no leading zero. -/
inductive IntPart
  | zero
  | nonzero (first : Byte) (hfirst : IsDigit first.toNat ∧ first ≠ chr '0') (digits : Text)
      (hdigits : ∀ d ∈ digits, IsDigit d.toNat)

/-- The digits as they are written. -/
def IntPart.text : IntPart → Text
  | .zero => [chr '0']
  | .nonzero first _ digits _ => first :: digits

/-- The sign of an exponent. -/
inductive ExponentSign
  | none
  | plus
  | minus
  deriving DecidableEq

/-- The sign as it is written. -/
def ExponentSign.text : ExponentSign → Text
  | .none => []
  | .plus => [chr '+']
  | .minus => [chr '-']

/-- An exponent, with its letter. -/
structure Exponent where
  letter : {b : Byte // IsExp b.toNat}
  sign : ExponentSign
  digits : Digits

namespace Exponent

/-- The exponent as it is written. -/
def text (e : Exponent) : Text := e.letter.1 :: (e.sign.text ++ e.digits.1)

/-- The power of ten. -/
def value (e : Exponent) : ℤ := signed (e.sign = .minus) (digitsValue e.digits.1)

end Exponent

/-- A number literal. -/
structure Number where
  negative : Bool
  int : IntPart
  fraction : Option Digits
  exponent : Option Exponent

namespace Number

/-- The minus sign, if there is one. -/
def signText (n : Number) : Text := if n.negative then [chr '-'] else []

/-- The digits after the point. -/
def fractionDigits (n : Number) : Text := n.fraction.elim [] (·.1)

/-- The point and the digits after it. -/
def fractionText (n : Number) : Text := n.fraction.elim [] (fun ds => chr '.' :: ds.1)

/-- The exponent, if there is one. -/
def exponentText (n : Number) : Text := n.exponent.elim [] Exponent.text

/-- The number as it is written. -/
def text (n : Number) : Text :=
  n.signText ++ (n.int.text ++ (n.fractionText ++ n.exponentText))

/-- Written without a fraction and without an exponent. -/
def IsInteger (n : Number) : Prop := n.fraction = none ∧ n.exponent = none

instance (n : Number) : Decidable n.IsInteger :=
  decidable_of_iff (n.fraction.isNone ∧ n.exponent.isNone) (by simp [IsInteger])

/-- The token of the number: the lexer tells the three kinds apart by their spelling. -/
def token (n : Number) : TokenType :=
  if n.IsInteger then (if n.negative then .value_integer else .value_unsigned) else .value_float

/-- The significand and the decimal exponent. -/
def significand (n : Number) : ℤ :=
  signed n.negative (digitsValue (n.int.text ++ n.fractionDigits))

/-- The power of ten the significand is multiplied with. -/
def decimalExponent (n : Number) : ℤ :=
  n.exponent.elim 0 Exponent.value - n.fractionDigits.length

section

variable (toDouble : ℤ → ℤ → Option Double)

/-- The nearest `double`; what is no finite one becomes `null`. -/
def floatValue (n : Number) : Json :=
  match toDouble n.significand n.decimalExponent with
  | some x => .number_float x
  | none => .null

/-- An integer that fits into 64 bits stays one, every other number becomes a `double`. -/
def value (n : Number) : Json :=
  if n.IsInteger ∧ ¬ n.negative ∧ n.significand < 2 ^ 64 then
    .number_unsigned (BitVec.ofInt 64 n.significand)
  else if n.IsInteger ∧ n.negative ∧ -2 ^ 63 ≤ n.significand then
    .number_integer (BitVec.ofInt 64 n.significand)
  else n.floatValue toDouble

end

end Number

/-! ## Values -/

mutual

/-- A value; `space` is what stands before a closing bracket. -/
inductive Value
  | null
  | boolean (b : Bool)
  | string (s : Str)
  | number (n : Number)
  | emptyArray (space : Space)
  | array (elems : Elements) (space : Space)
  | emptyObject (space : Space)
  | object (members : Members) (space : Space)

/-- The elements of an array that has some. -/
inductive Elements
  | one (before : Space) (v : Value)
  | more (before : Space) (v : Value) (after : Space) (elems : Elements)

/-- The members of an object that has some. -/
inductive Members
  | one (before : Space) (key : Str) (beforeColon afterColon : Space) (v : Value)
  | more (before : Space) (key : Str) (beforeColon afterColon : Space) (v : Value) (after : Space)
      (members : Members)

end

mutual

/-- A value as it is written. -/
def Value.text : Value → Text
  | .null => [chr 'n', chr 'u', chr 'l', chr 'l']
  | .boolean true => [chr 't', chr 'r', chr 'u', chr 'e']
  | .boolean false => [chr 'f', chr 'a', chr 'l', chr 's', chr 'e']
  | .string s => s.text
  | .number n => n.text
  | .emptyArray space => chr '[' :: (space.1 ++ [chr ']'])
  | .array elems space => chr '[' :: (elems.text ++ (space.1 ++ [chr ']']))
  | .emptyObject space => chr '{' :: (space.1 ++ [chr '}'])
  | .object members space => chr '{' :: (members.text ++ (space.1 ++ [chr '}']))

/-- Elements as they are written, with the commas between them. -/
def Elements.text : Elements → Text
  | .one before v => before.1 ++ v.text
  | .more before v after elems => before.1 ++ (v.text ++ (after.1 ++ chr ',' :: elems.text))

/-- Members as they are written, with their colons and the commas between them. -/
def Members.text : Members → Text
  | .one before key beforeColon afterColon v =>
      before.1 ++ (key.text ++ (beforeColon.1 ++ chr ':' :: (afterColon.1 ++ v.text)))
  | .more before key beforeColon afterColon v after members =>
      before.1 ++ (key.text ++ (beforeColon.1 ++ chr ':' :: (afterColon.1 ++
        (v.text ++ (after.1 ++ chr ',' :: members.text)))))

end

section

variable (toDouble : ℤ → ℤ → Option Double)

mutual

/-- The value written down, or the complaint about the first string without one. -/
def Value.value : Value → Except String Json
  | .null => .ok .null
  | .boolean b => .ok (.boolean b)
  | .string s => s.value.map .string
  | .number n => .ok (n.value toDouble)
  | .emptyArray _ => .ok (.array [])
  | .array elems _ => elems.values.map .array
  | .emptyObject _ => .ok (.object [])
  | .object members _ => members.pairs.map (fun ms => .object (ms.foldl (fun o m => setMember m.1 m.2 o) []))

/-- The values of the elements, in their order. -/
def Elements.values : Elements → Except String (List Json)
  | .one _ v => do
      let j ← v.value
      return [j]
  | .more _ v _ elems => do
      let j ← v.value
      let js ← elems.values
      return j :: js

/-- The key-value pairs as they are written, duplicates included. -/
def Members.pairs : Members → Except String (List (String × Json))
  | .one _ key _ _ v => do
      let k ← key.value
      let j ← v.value
      return [(k, j)]
  | .more _ key _ _ v _ members => do
      let k ← key.value
      let j ← v.value
      let ms ← members.pairs
      return (k, j) :: ms

end

end

/-- A text: one value with white space around it. -/
structure Document where
  before : Space
  root : Value
  after : Space

namespace Document

/-- The text itself. -/
def text (d : Document) : Text := d.before.1 ++ (d.root.text ++ d.after.1)

/-- The value of the root. -/
def value (toDouble : ℤ → ℤ → Option Double) (d : Document) : Except String Json :=
  d.root.value toDouble

end Document

end Grammar

end Json

end Gravioli
