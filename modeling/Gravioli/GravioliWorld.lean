import Gravioli.Crypto
import Mathlib.Data.List.Permutation
import Mathlib.Data.Nat.Cast.Defs

set_option autoImplicit false

/-! # The world of the game

Two planets on fixed curves (`gravioliWorld.cpp`). `loop` computes the positions from the number of the
tick, and `serializeWorldForPlayer` writes them, as `float`s, to a FlatBuffer, for every player alike
but in a random order.

The arithmetic of `double`s and the FlatBuffers library are not part of the repository. They are taken
from outside: the arithmetic through the operators of `D` and through `Numerics`, the library through
`FlatBuffers`, which says what the bytes of a finished buffer are and what a reader finds in them. -/

namespace Gravioli

/-- `std::array<T, 3>`. -/
structure Vec3 (T : Type) where
  x : T
  y : T
  z : T
  deriving DecidableEq

/-- Apply `f` to each coordinate. -/
def Vec3.map {S T : Type} (f : S → T) (v : Vec3 S) : Vec3 T := ⟨f v.x, f v.y, f v.z⟩

/-- `Planet` of `gravioliWorld.hpp`, with `double`s of type `D`. -/
structure Planet (D : Type) where
  pos : Vec3 D

/-- What the code uses of `<cmath>` and of the conversions between `double`, here `D`, and `float`, here
    `F`. -/
structure Numerics (D F : Type) where
  /-- the literal `3.14159265359` -/
  pi : D
  sin : D → D
  /-- `static_cast<float>` -/
  toFloat : D → F
  /-- comparison with `0.0f` -/
  isZero : F → Bool
  zero : F

/-- FlatBuffers, as far as it is used for the schema of `world.fbs`. -/
structure FlatBuffers (F : Type) where
  /-- the buffer after a `CreatePlanet` for each position, `CreateVector` of the offsets of the planets
      with these numbers, `CreatePlanets` and `Finish` -/
  finish : List (Vec3 F) → List ℕ → List Byte
  /-- `GetRootAsPlanets`, and `X`, `Y` and `Z` of `Planets(i)` for each `i` below `PlanetsLength` -/
  planets : List Byte → List (Vec3 F)

namespace GravioliWorld

variable {D F : Type} [NatCast D] [Add D] [Mul D] [Div D] (num : Numerics D F) (fb : FlatBuffers F)

/-- The two planets. -/
def init : List (Planet D) :=
  let newPlanet (x y z : ℕ) : Planet D := ⟨⟨(x : D), (y : D), (z : D)⟩⟩
  [newPlanet 0 0 0, newPlanet 0 0 0]

/-- `static_cast<double>(t) / 2. * pi / 1000.`, and the same with 2000 and 3000. -/
def phase (t : BitVec 64) (period : ℕ) : D := (t.toNat : D) / ((2 : ℕ) : D) * num.pi / (period : D)

/-- `loop`: the planets at time `t`. -/
def loop (t : BitVec 64) (planets : List (Planet D)) : List (Planet D) :=
  planets.mapIdx (fun i p =>
    { p with
      pos.x := num.sin (phase num t 1000) + ((2 * i : ℕ) : D)
      pos.y := num.sin (phase num t 2000)
      pos.z := num.sin (phase num t 3000) })

/-- `_planets` after the first loops of `World::run`, which passes a 64-bit counter. -/
def afterLoops : ℕ → List (Planet D)
  | 0 => init
  | ticks + 1 => loop num (BitVec.ofNat 64 ticks) (afterLoops ticks)

/-- The positions as `float`s. -/
def positions (planets : List (Planet D)) : List (Vec3 F) :=
  planets.map (fun p => p.pos.map num.toFloat)

/-- `shuffle` of the offsets. -/
def shuffles (n : ℕ) : List (List ℕ) := (List.range n).permutations'

/-- The buffer; `shuffled` is the order that `shuffle` leaves the offsets in. -/
def serializeWorldForPlayer (shuffled : List ℕ) (planets : List (Planet D)) : List Byte :=
  fb.finish (positions num planets) shuffled

/-! ## What is read -/

/-- A field that compares equal to its default is not stored, and reads as the default. -/
def field (x : F) : F := if num.isZero x then num.zero else x

/-- What FlatBuffers promises for the two planets: the planets at the offsets of the vector are read, in
    the order of the vector. -/
def RoundTrips : Prop :=
  ∀ (tables : List (Vec3 F)) (shuffled : List ℕ), tables.length = 2 → shuffled ∈ shuffles 2 →
    fb.planets (fb.finish tables shuffled)
      = (shuffled.filterMap (fun i => tables[i]?)).map (Vec3.map (field num))

/-- The positions after tick `t`, as they are read. -/
def visible (t : ℕ) : List (Vec3 F) :=
  (positions num (afterLoops num (t + 1))).map (Vec3.map (field num))

/-- `loop` overwrites what is there. -/
theorem loop_loop (t t' : BitVec 64) (planets : List (Planet D)) :
    loop num t (loop num t' planets) = loop num t planets := by
  simp [loop, List.mapIdx_mapIdx, Function.comp_def]

theorem length_loop (t : BitVec 64) (planets : List (Planet D)) :
    (loop num t planets).length = planets.length := by
  simp [loop]

/-- The positions depend on the last tick only. -/
theorem afterLoops_succ (ticks : ℕ) :
    afterLoops num (ticks + 1) = loop num (BitVec.ofNat 64 ticks) init := by
  induction ticks with
  | zero => rfl
  | succ ticks ih => rw [afterLoops, ih, loop_loop]

theorem length_afterLoops (ticks : ℕ) : (afterLoops num ticks).length = 2 := by
  cases ticks with
  | zero => rfl
  | succ ticks => rw [afterLoops_succ, length_loop]; rfl

/-- Whatever order `shuffle` leaves, the planets are read. -/
theorem planets_serializeWorldForPlayer (hflat : RoundTrips num fb) {shuffled : List ℕ}
    (hshuffled : shuffled ∈ shuffles 2) (t : ℕ) :
    (fb.planets (serializeWorldForPlayer num fb shuffled (afterLoops num (t + 1)))).Perm
      (visible num t) := by
  have hlength : (positions num (afterLoops num (t + 1))).length = 2 := by
    rw [positions, List.length_map, length_afterLoops]
  rw [serializeWorldForPlayer, hflat _ _ hlength hshuffled]
  obtain ⟨first, second, htwo⟩ := List.length_eq_two.1 hlength
  have horder := (List.mem_permutations'.1 hshuffled).filterMap (fun i => [first, second][i]?)
  rw [visible, htwo]
  exact horder.map _

end GravioliWorld

end Gravioli
