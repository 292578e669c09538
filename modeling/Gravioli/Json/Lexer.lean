import Gravioli.Json
import Gravioli.Library.Scanner
import Gravioli.Library.Utf8

set_option autoImplicit false

/-! # The lexer of `json.hpp`

`scan()` is code generated by re2c: an automaton whose states are labels and which goes back to the
last accepting one when it is stuck. The states here carry the numbers of the labels; a state stands
for "the byte after this label decides". Labels that only consume a byte and fall into another one
are merged with it.

Bytes behind the text are padding: `fill_line_buffer` appends a NUL, which is a token of its own at
the beginning of a token and stops the automaton everywhere else.

`get_string` and `get_number` turn the text of a token into a value. What rounds a decimal number to
a `double` is a parameter: `toDouble m e` is the `double` that `std::strtod` gives for `m * 10 ^ e`,
`none` when it is not finite. -/

namespace Gravioli

/-- The contents of a buffer. -/
abbrev Text := List Byte

/-- A character as a byte. -/
def chr (c : Char) : Byte := BitVec.ofNat 8 c.toNat

/-- The bytes of a `std::string`; a character stands for a byte. -/
def toText (s : String) : Text := s.toList.map chr

/-- The `std::string` with these bytes. -/
def ofText (text : Text) : String := String.ofList (text.map (fun b => Char.ofNat b.toNat))

namespace Json.Lexer

/-- `lexer::token_type`. -/
inductive TokenType
  | uninitialized
  | literal_true
  | literal_false
  | literal_null
  | value_string
  | value_unsigned
  | value_integer
  | value_float
  | begin_array
  | begin_object
  | end_array
  | end_object
  | name_separator
  | value_separator
  | parse_error
  | end_of_input
  deriving DecidableEq, Repr

/-- `token_type_name`. -/
def tokenTypeName : TokenType → String
  | .uninitialized => "<uninitialized>"
  | .literal_true => "true literal"
  | .literal_false => "false literal"
  | .literal_null => "null literal"
  | .value_string => "string literal"
  | .value_unsigned => "number literal"
  | .value_integer => "number literal"
  | .value_float => "number literal"
  | .begin_array => "'['"
  | .begin_object => "'\x7b'"
  | .end_array => "']'"
  | .end_object => "'\x7d'"
  | .name_separator => "':'"
  | .value_separator => "','"
  | .parse_error => "<parse error>"
  | .end_of_input => "end of input"

/-! ## Byte classes -/

/-- Bit 32 of `yybm`. -/
def IsSpace (yych : ℕ) : Prop := yych = 0x09 ∨ yych = 0x0A ∨ yych = 0x0D ∨ yych = 0x20

/-- Bit 64 of `yybm`. -/
def IsDigit (yych : ℕ) : Prop := '0'.toNat ≤ yych ∧ yych ≤ '9'.toNat

/-- Bit 128 of `yybm`: the ASCII characters that stand for themselves in a string. -/
def IsPlain (yych : ℕ) : Prop :=
  0x20 ≤ yych ∧ yych ≤ 0x7F ∧ yych ≠ '"'.toNat ∧ yych ≠ '\\'.toNat

/-- The hex digits. -/
def IsHex (yych : ℕ) : Prop :=
  IsDigit yych ∨ ('A'.toNat ≤ yych ∧ yych ≤ 'F'.toNat) ∨ ('a'.toNat ≤ yych ∧ yych ≤ 'f'.toNat)

/-- The letters of an exponent. -/
def IsExp (yych : ℕ) : Prop := yych = 'E'.toNat ∨ yych = 'e'.toNat

instance (yych : ℕ) : Decidable (IsSpace yych) := inferInstanceAs (Decidable (_ ∨ _))
instance (yych : ℕ) : Decidable (IsDigit yych) := inferInstanceAs (Decidable (_ ∧ _))
instance (yych : ℕ) : Decidable (IsPlain yych) := inferInstanceAs (Decidable (_ ∧ _))
instance (yych : ℕ) : Decidable (IsHex yych) := inferInstanceAs (Decidable (_ ∨ _))
instance (yych : ℕ) : Decidable (IsExp yych) := inferInstanceAs (Decidable (_ ∨ _))

/-! ## The automaton -/

/-- The labels of the generated scanner that read a byte or accept a token. -/
inductive State
  | start
  | s2 | s4 | s9 | s10 | s12 | s13 | s15 | s17 | s19 | s21 | s23 | s24 | s25 | s26 | s28
  | s31 | s33 | s35 | s36 | s37 | s38 | s39 | s40 | s41 | s42 | s43 | s45 | s47 | s48
  | s51 | s52 | s53 | s54 | s55 | s56 | s59 | s60 | s62 | s63 | s64 | s65 | s66 | s67 | s69
  | s71 | s72 | s74
  deriving DecidableEq, Repr

/-- Go on when `yych` is between `low` and `high`. -/
def within (low high : ℕ) (q : State) (yych : ℕ) : Option State :=
  if low ≤ yych ∧ yych ≤ high then some q else none

/-- Go on when `yych` is this character. -/
def letter (c : Char) (q : State) (yych : ℕ) : Option State :=
  if yych = c.toNat then some q else none

/-- The first byte of a token that is not white space. -/
def first (yych : ℕ) : State :=
  if yych = 0x00 then .s2
  else if yych = '"'.toNat then .s9
  else if yych = ','.toNat then .s10
  else if yych = '-'.toNat then .s12
  else if yych = '0'.toNat then .s13
  else if IsDigit yych then .s15
  else if yych = ':'.toNat then .s17
  else if yych = '['.toNat then .s19
  else if yych = ']'.toNat then .s21
  else if yych = 'f'.toNat then .s23
  else if yych = 'n'.toNat then .s24
  else if yych = 't'.toNat then .s25
  else if yych = '{'.toNat then .s26
  else if yych = '}'.toNat then .s28
  else .s4

/-- Label 31: inside a string. -/
def inString (yych : ℕ) : Option State :=
  if IsPlain yych then some .s31
  else if yych ≤ 0x1F then none
  else if yych = '"'.toNat then some .s33
  else if yych = '\\'.toNat then some .s35
  else if yych ≤ 0xC1 then none
  else if yych ≤ 0xDF then some .s36
  else if yych = 0xE0 then some .s37
  else if yych = 0xED then some .s39
  else if yych ≤ 0xEF then some .s38
  else if yych = 0xF0 then some .s40
  else if yych ≤ 0xF3 then some .s41
  else if yych = 0xF4 then some .s42
  else none

/-- Label 35: after a backslash. -/
def inEscape (yych : ℕ) : Option State :=
  if yych = '"'.toNat ∨ yych = '/'.toNat ∨ yych = '\\'.toNat ∨ yych = 'b'.toNat ∨
      yych = 'f'.toNat ∨ yych = 'n'.toNat ∨ yych = 'r'.toNat ∨ yych = 't'.toNat then some .s31
  else if yych = 'u'.toNat then some .s55
  else none

/-- The labels after the integer part of a number; `digit` is where one more digit leads. -/
def inInteger (digit : State) (yych : ℕ) : Option State :=
  if yych = '.'.toNat then some .s47
  else if IsDigit yych then some digit
  else if IsExp yych then some .s51
  else none

/-- Where the byte `yych` leads from a label; `none` is a `goto` to the label that gives up. -/
def next : State → ℕ → Option State
  | .start, yych => some (first yych)
  | .s9, yych =>
      if yych ≤ 0x1F then none
      else if yych ≤ 0x7F then inString yych
      else if yych ≤ 0xC1 then none
      else if yych ≤ 0xF4 then inString yych
      else none
  | .s31, yych => inString yych
  | .s35, yych => inEscape yych
  | .s36, yych => within 0x80 0xBF .s31 yych
  | .s37, yych => within 0xA0 0xBF .s36 yych
  | .s38, yych => within 0x80 0xBF .s36 yych
  | .s39, yych => within 0x80 0x9F .s36 yych
  | .s40, yych => within 0x90 0xBF .s38 yych
  | .s41, yych => within 0x80 0xBF .s38 yych
  | .s42, yych => within 0x80 0x8F .s38 yych
  | .s55, yych => if IsHex yych then some .s65 else none
  | .s65, yych => if IsHex yych then some .s71 else none
  | .s71, yych => if IsHex yych then some .s74 else none
  | .s74, yych => if IsHex yych then some .s31 else none
  | .s12, yych =>
      if yych = '0'.toNat then some .s43
      else if IsDigit yych then some .s45
      else none
  | .s13, yych => inInteger .s48 yych
  | .s15, yych => inInteger .s15 yych
  | .s43, yych => inInteger .s48 yych
  | .s45, yych => inInteger .s45 yych
  | .s47, yych => if IsDigit yych then some .s56 else none
  | .s48, yych => if IsDigit yych then some .s48 else none
  | .s51, yych =>
      if yych = '+'.toNat ∨ yych = '-'.toNat then some .s59
      else if IsDigit yych then some .s60
      else none
  | .s56, yych =>
      if IsDigit yych then some .s56
      else if IsExp yych then some .s51
      else none
  | .s59, yych => if IsDigit yych then some .s60 else none
  | .s60, yych => if IsDigit yych then some .s60 else none
  | .s23, yych => letter 'a' .s52 yych
  | .s52, yych => letter 'l' .s62 yych
  | .s62, yych => letter 's' .s66 yych
  | .s66, yych => letter 'e' .s72 yych
  | .s24, yych => letter 'u' .s53 yych
  | .s53, yych => letter 'l' .s63 yych
  | .s63, yych => letter 'l' .s67 yych
  | .s25, yych => letter 'r' .s54 yych
  | .s54, yych => letter 'u' .s64 yych
  | .s64, yych => letter 'e' .s69 yych
  | _, _ => none

/-- The token of the word read so far; also what `yyaccept` remembers. -/
def accept : State → Option TokenType
  | .s2 => some .end_of_input
  | .s4 => some .parse_error
  | .s9 => some .parse_error
  | .s12 => some .parse_error
  | .s23 => some .parse_error
  | .s24 => some .parse_error
  | .s25 => some .parse_error
  | .s48 => some .parse_error
  | .s10 => some .value_separator
  | .s17 => some .name_separator
  | .s19 => some .begin_array
  | .s21 => some .end_array
  | .s26 => some .begin_object
  | .s28 => some .end_object
  | .s13 => some .value_unsigned
  | .s15 => some .value_unsigned
  | .s43 => some .value_integer
  | .s45 => some .value_integer
  | .s56 => some .value_float
  | .s60 => some .value_float
  | .s33 => some .value_string
  | .s67 => some .literal_null
  | .s69 => some .literal_true
  | .s72 => some .literal_false
  | _ => none

/-- The labels as an automaton over bytes. -/
def automaton : Scanner.Automaton Byte State TokenType where
  next q b := next q b.toNat
  accept := accept

/-- The lexer after a call of `scan()`: the token, its text `[m_start, m_cursor)`, and the text from
    `m_cursor` on. -/
structure Scanned where
  last_token : TokenType
  lexeme : Text
  rest : Text
  deriving DecidableEq, Repr

/-- `scan()`. White space is passed over by `continue`; the automaton gives nothing only at the end of
    the buffer, where the padding is. -/
def scan (text : Text) : Scanned :=
  match automaton.munch .start (text.dropWhile (fun b => IsSpace b.toNat)) with
  | some (t, lexeme, rest) => ⟨t, lexeme, rest⟩
  | none => ⟨.end_of_input, [], []⟩

/-! ## Strings -/

/-- The second half of `to_unicode`: the bytes of a code point. -/
def encodeCodepoint (codepoint : ℕ) : Except String Text :=
  if codepoint < 0x80 then .ok [BitVec.ofNat 8 codepoint]
  else if codepoint ≤ 0x7FF then
    .ok [BitVec.ofNat 8 (0xC0 ||| ((codepoint >>> 6) &&& 0x1F)),
      BitVec.ofNat 8 (0x80 ||| (codepoint &&& 0x3F))]
  else if codepoint ≤ 0xFFFF then
    .ok [BitVec.ofNat 8 (0xE0 ||| ((codepoint >>> 12) &&& 0x0F)),
      BitVec.ofNat 8 (0x80 ||| ((codepoint >>> 6) &&& 0x3F)),
      BitVec.ofNat 8 (0x80 ||| (codepoint &&& 0x3F))]
  else if codepoint ≤ 0x10FFFF then
    .ok [BitVec.ofNat 8 (0xF0 ||| ((codepoint >>> 18) &&& 0x07)),
      BitVec.ofNat 8 (0x80 ||| ((codepoint >>> 12) &&& 0x3F)),
      BitVec.ofNat 8 (0x80 ||| ((codepoint >>> 6) &&& 0x3F)),
      BitVec.ofNat 8 (0x80 ||| (codepoint &&& 0x3F))]
  else .error "code points above 0x10FFFF are invalid"

/-- `to_unicode`. -/
def toUnicode (codepoint1 codepoint2 : ℕ) : Except String Text :=
  if 0xD800 ≤ codepoint1 ∧ codepoint1 ≤ 0xDBFF then
    if 0xDC00 ≤ codepoint2 ∧ codepoint2 ≤ 0xDFFF then
      encodeCodepoint ((codepoint1 <<< 10) + codepoint2 - 0x35FDC00)
    else .error "missing or wrong low surrogate"
  else encodeCodepoint codepoint1

/-- The value of a hexadecimal digit. -/
def hexValue (b : Byte) : ℕ :=
  if IsDigit b.toNat then b.toNat - '0'.toNat
  else if b.toNat ≤ 'F'.toNat then b.toNat - 'A'.toNat + 10
  else b.toNat - 'a'.toNat + 10

/-- `std::strtoul` in base 16. -/
def strtoul (text : Text) : ℕ :=
  (text.takeWhile (fun b => IsHex b.toNat)).foldl (fun acc b => acc * 16 + hexValue b) 0

/-- The default escapes; an unknown one adds nothing. -/
def escaped (b : Byte) : Text :=
  if b = chr 't' then [0x09]
  else if b = chr 'b' then [0x08]
  else if b = chr 'f' then [0x0C]
  else if b = chr 'n' then [0x0A]
  else if b = chr 'r' then [0x0D]
  else if b = chr '\\' then [chr '\\']
  else if b = chr '/' then [chr '/']
  else if b = chr '"' then [chr '"']
  else []

/-- The loop of `get_string` over the text between the quotes. A token of the scanner never ends in
    the middle of an escape, so the branches for that are not reached. -/
def getStringFrom : Text → Except String Text
  | [] => .ok []
  | b :: text =>
      if b ≠ chr '\\' then do
        let result ← getStringFrom text
        return b :: result
      else
        match text with
        | [] => .ok []
        | e :: text =>
            if e = chr 'u' then
              match text with
              | h₁ :: h₂ :: h₃ :: h₄ :: text =>
                  let codepoint := strtoul [h₁, h₂, h₃, h₄]
                  if 0xD800 ≤ codepoint ∧ codepoint ≤ 0xDBFF then
                    match text with
                    | b :: u :: l₁ :: l₂ :: l₃ :: l₄ :: text =>
                        if b ≠ chr '\\' ∨ u ≠ chr 'u' then .error "missing low surrogate"
                        else do
                          let chars ← toUnicode codepoint (strtoul [l₁, l₂, l₃, l₄])
                          let result ← getStringFrom text
                          return chars ++ result
                    | _ => .error "missing low surrogate"
                  else if 0xDC00 ≤ codepoint ∧ codepoint ≤ 0xDFFF then
                    .error "missing high surrogate"
                  else do
                    let chars ← toUnicode codepoint 0
                    let result ← getStringFrom text
                    return chars ++ result
              | _ => .ok []
            else do
              let result ← getStringFrom text
              return escaped e ++ result

/-- A byte that stands for itself. -/
theorem getStringFrom_cons {b : Byte} (hb : b ≠ chr '\\') (text : Text) :
    getStringFrom (b :: text) = (getStringFrom text).map ([b] ++ ·) := by
  rw [getStringFrom.eq_def]
  dsimp only
  rw [if_pos hb]
  cases getStringFrom text <;> rfl

/-- `get_string`. -/
def getString (p : Scanned) : Except String Text := getStringFrom p.lexeme.tail.dropLast

/-! ## Numbers -/

/-- The value of a string of decimal digits. -/
def digitsValue (digits : Text) : ℕ :=
  digits.foldl (fun acc d => acc * 10 + (d.toNat - '0'.toNat)) 0

def takeDigits (text : Text) : Text := text.takeWhile (fun b => IsDigit b.toNat)

def dropDigits (text : Text) : Text := text.dropWhile (fun b => IsDigit b.toNat)

/-- A leading minus sign: whether there is one, and what follows it. -/
def takeSign (text : Text) : Bool × Text :=
  match text with
  | b :: rest => if b = chr '-' then (true, rest) else (false, text)
  | [] => (false, [])

/-- The integer a string of digits with this sign denotes. -/
def signed (negative : Bool) (n : ℕ) : ℤ := if negative then -n else n

/-- `std::strtoull` in base 10 on text that starts with a digit: the value, `none` when it overflows,
    and the number of characters read. -/
def strtoull (text : Text) : Option (BitVec 64) × ℕ :=
  let n := digitsValue (takeDigits text)
  (if n < 2 ^ 64 then some (BitVec.ofNat 64 n) else none, (takeDigits text).length)

/-- `std::strtoll` in base 10 on text that starts with a minus sign or a digit. -/
def strtoll (text : Text) : Option (BitVec 64) × ℕ :=
  let (negative, digits) := takeSign text
  let x := signed negative (digitsValue (takeDigits digits))
  (if -2 ^ 63 ≤ x ∧ x < 2 ^ 63 then some (BitVec.ofInt 64 x) else none,
    text.length - (dropDigits digits).length)

/-- The sign of an exponent: whether it is a minus sign, and what follows it. -/
def takeExponentSign (text : Text) : Bool × Text :=
  match text with
  | s :: rest =>
      if s = chr '-' then (true, rest)
      else if s = chr '+' then (false, rest)
      else (false, text)
  | [] => (false, [])

/-- The exponent of a decimal number: its value and what follows it. Without a digit there is no
    exponent. -/
def takeExponent (text : Text) : ℤ × Text :=
  match text with
  | e :: rest =>
      if IsExp e.toNat then
        let (negative, digits) := takeExponentSign rest
        if takeDigits digits = [] then (0, text)
        else (signed negative (digitsValue (takeDigits digits)), dropDigits digits)
      else (0, text)
  | [] => (0, [])

/-- The fraction of a decimal number: its digits and what follows it. -/
def takeFraction (text : Text) : Text × Text :=
  match text with
  | b :: rest => if b = chr '.' then (takeDigits rest, dropDigits rest) else ([], text)
  | [] => ([], [])

section

variable (toDouble : ℤ → ℤ → Option Double)

/-- `std::strtod` on text that starts with a decimal number: the value and the number of characters
    read. -/
def strtod (text : Text) : Option Double × ℕ :=
  let (negative, int) := takeSign text
  let (fraction, afterFraction) := takeFraction (dropDigits int)
  let (exponent, rest) := takeExponent afterFraction
  (toDouble (signed negative (digitsValue (takeDigits int ++ fraction))) (exponent - fraction.length),
    text.length - rest.length)

/-- The conversion to `number_float_t`; it fails when `strtod` reads past the token. -/
def getFloat (p : Scanned) : Option Json :=
  match strtod toDouble (p.lexeme ++ p.rest) with
  | (x, length) =>
      if length = p.lexeme.length then
        some (match x with | some x => .number_float x | none => .null)
      else none

/-- `get_number`; `none` when the result stays `discarded`. -/
def getNumber (p : Scanned) : Option Json :=
  match p.last_token with
  | .value_unsigned =>
      match strtoull (p.lexeme ++ p.rest) with
      | (some n, length) =>
          if length = p.lexeme.length then some (.number_unsigned n) else getFloat toDouble p
      | (none, _) => getFloat toDouble p
  | .value_integer =>
      match strtoll (p.lexeme ++ p.rest) with
      | (some n, length) =>
          if length = p.lexeme.length then some (.number_integer n) else getFloat toDouble p
      | (none, _) => getFloat toDouble p
  | _ => getFloat toDouble p

end

end Json.Lexer

end Gravioli
