import Mathlib.Tactic.Ring
import Mathlib.Tactic.NormNum

set_option autoImplicit false

/-! # Big-endian digit strings

The `n` digits of `w` bits of an integer, most significant first, and the value such a string
denotes. The integer may be negative: its digits are those of its residue modulo `2 ^ (w * n)`,
which is what an arithmetic shift followed by a truncation computes (`beValue_beDigits`). -/

namespace BigEndian

variable {w : ℕ}

/-- Digit `i` of `x` in base `2 ^ w`. -/
def digit (w : ℕ) (x : ℤ) (i : ℕ) : BitVec w := BitVec.ofInt w (x / 2 ^ (w * i))

/-- The low `n` digits of `x`, most significant first. -/
def beDigits (w n : ℕ) (x : ℤ) : List (BitVec w) := (List.range n).reverse.map (digit w x)

/-- The number a digit string denotes, read most significant digit first. -/
def beValue (ds : List (BitVec w)) : ℕ := ds.foldl (fun acc d => acc * 2 ^ w + d.toNat) 0

@[simp] theorem length_beDigits (n : ℕ) (x : ℤ) : (beDigits w n x).length = n := by
  simp [beDigits]

theorem beDigits_succ (n : ℕ) (x : ℤ) :
    beDigits w (n + 1) x = digit w x n :: beDigits w n x := by
  simp [beDigits, List.range_succ]

theorem foldl_beValue (ds : List (BitVec w)) (acc : ℕ) :
    ds.foldl (fun acc d => acc * 2 ^ w + d.toNat) acc = acc * 2 ^ (w * ds.length) + beValue ds := by
  unfold beValue
  induction ds generalizing acc with
  | nil => simp
  | cons d ds ih =>
      simp only [List.foldl_cons, List.length_cons]
      rw [ih, ih (0 * 2 ^ w + d.toNat)]
      ring

theorem beValue_cons (d : BitVec w) (ds : List (BitVec w)) :
    beValue (d :: ds) = d.toNat * 2 ^ (w * ds.length) + beValue ds := by
  show ds.foldl _ (0 * 2 ^ w + d.toNat) = _
  rw [foldl_beValue]
  simp

theorem toNat_digit (x : ℤ) (i : ℕ) : ((digit w x i).toNat : ℤ) = x / 2 ^ (w * i) % 2 ^ w := by
  unfold digit
  rw [BitVec.toNat_ofInt, Int.toNat_of_nonneg (Int.emod_nonneg _ (by positivity))]
  push_cast
  rfl

theorem emod_mul_eq (x a b : ℤ) (ha : 0 < a) :
    x % (a * b) = x % a + a * (x / a % b) := by
  have hdiv : x / (a * b) = x / a / b := (Int.ediv_ediv_of_nonneg ha.le).symm
  rw [Int.emod_def x (a * b), Int.emod_def x a, Int.emod_def (x / a) b, hdiv]
  ring

/-- **Reading back the digits** gives the integer modulo `2 ^ (w * n)`. -/
theorem beValue_beDigits (n : ℕ) (x : ℤ) : (beValue (beDigits w n x) : ℤ) = x % 2 ^ (w * n) := by
  induction n with
  | zero => simp [beDigits, beValue]
  | succ n ih =>
      rw [beDigits_succ, beValue_cons, length_beDigits]
      push_cast
      rw [toNat_digit, ih, Nat.mul_succ, pow_add, emod_mul_eq x _ _ (by positivity)]
      ring

end BigEndian
