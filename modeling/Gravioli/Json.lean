import Gravioli.Crypto

set_option autoImplicit false

/-! # JSON values

What the player provider uses of `json.hpp`: the value kinds, `operator[]` with a key, and the
conversion `get<int>()`. Turning text into a value is the parser's business and a parameter
(`JsonLib.parse`); so is what a conversion of a `double` outside the range of `int` gives, which the
language leaves undefined.

`from_json` converts every number kind and even booleans by a plain `static_cast`: integers are
reduced to 32 bits and fractions are cut off. -/

namespace Gravioli

/-- A C++ `int`. -/
abbrev CInt := BitVec 32

/-- A finite `double`: the value `mantissa * 2 ^ exponent`. -/
structure Double where
  mantissa : ℤ
  exponent : ℤ
  mantissa_lt : mantissa.natAbs < 2 ^ 53
  le_exponent : -1074 ≤ exponent
  exponent_le : exponent ≤ 971

namespace Double

/-- The value without its fraction. -/
def truncate (d : Double) : ℤ :=
  if 0 ≤ d.exponent then d.mantissa * 2 ^ d.exponent.toNat
  else d.mantissa.tdiv (2 ^ (-d.exponent).toNat)

/-- The fraction can be cut off without leaving the range of `int`. -/
def fitsInt (d : Double) : Prop := -2 ^ 31 ≤ d.truncate ∧ d.truncate < 2 ^ 31

instance (d : Double) : Decidable d.fitsInt := inferInstanceAs (Decidable (_ ∧ _))

end Double

/-- A `basic_json` value. -/
inductive Json
  | null
  | boolean (b : Bool)
  | number_integer (n : BitVec 64)
  | number_unsigned (n : BitVec 64)
  | number_float (x : Double)
  | string (s : String)
  | array (elems : List Json)
  | object (members : List (String × Json))

/-- What is taken from outside: the parser, which may throw, and the result of converting a `double`
    that does not fit. -/
structure JsonLib where
  parse : String → Except String Json
  castOutOfRange : Double → CInt

namespace Json

/-- `type_name`, which the messages of type errors use. -/
def typeName : Json → String
  | null => "null"
  | object _ => "object"
  | array _ => "array"
  | string _ => "string"
  | boolean _ => "boolean"
  | _ => "number"

def isNumber : Json → Bool
  | number_integer _ => true
  | number_unsigned _ => true
  | number_float _ => true
  | _ => false

/-- `operator[]` with a key: a missing member is created with the value `null`, and so is the object
    itself when the value is `null`. -/
def index (key : String) : Json → Except String Json
  | null => .ok null
  | object members => .ok ((members.lookup key).getD null)
  | j => .error ("cannot use operator[] with " ++ j.typeName)

theorem index_eq_array {j : Json} {name : String} {elems : List Json} :
    j.index name = .ok (.array elems) ↔
      ∃ members, j = .object members ∧ members.lookup name = some (.array elems) := by
  cases j with
  | object members =>
      cases hlookup : members.lookup name with
      | none => simp [index, hlookup]
      | some m => simp [index, hlookup]
  | _ => simp [index]

/-- `get<int>()`. -/
def getInt (lib : JsonLib) : Json → Except String CInt
  | number_unsigned n => .ok (n.setWidth 32)
  | number_integer n => .ok (n.setWidth 32)
  | number_float x => .ok (if x.fitsInt then BitVec.ofInt 32 x.truncate else lib.castOutOfRange x)
  | boolean b => .ok (if b then 1 else 0)
  | j => .error ("type must be number, but is " ++ j.typeName)

/-- A number converts without an exception. -/
theorem exists_getInt (lib : JsonLib) {j : Json} (h : j.isNumber) :
    ∃ i, j.getInt lib = .ok i := by
  cases j with
  | number_integer n => exact ⟨_, rfl⟩
  | number_unsigned n => exact ⟨_, rfl⟩
  | number_float x => exact ⟨_, rfl⟩
  | _ => exact absurd h (by simp [isNumber])

end Json

end Gravioli
