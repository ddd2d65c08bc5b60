import Presynth.Decimal.Binary
import Presynth.Decimal.Fixed
/-!
# Numbers that estimates are computed in

Areas, powers and times are doubles when the program runs. The same definitions make sense over
exact fractions, where the laws of arithmetic hold without rounding. Addition, comparison and so on
come from the standard classes; the class `Quantity` adds what those lack.
-/

namespace Presynth

/-- What estimates need of their numbers beyond arithmetic and comparison. -/
class Quantity (α : Type) where
  /-- Is this an actual number, neither infinite nor undefined? -/
  isFinite : α → Bool
  /-- The nearest integer, a half going to the even neighbour. -/
  roundEven : α → α
  /-- The integer part as a natural number, cut off to the range of 64 bit words. -/
  toWord : α → Nat
  /-- A total order that refines `≤` and tells all numbers apart. -/
  totalLe : α → α → Bool
  /-- The minimum of no numbers, where the numbers have one. -/
  emptyMin : α

/-- The greatest natural number that fits 64 bits. -/
def maxWord : Nat := 0xffffffffffffffff

/-! ### Doubles -/

instance instZeroFloat : Zero Float := ⟨Float.ofNat 0⟩

instance instNatCastFloat : NatCast Float := ⟨Float.ofNat⟩

namespace Decimal

/-- The integer nearest to a finite double. Doubles without a fractional part are their own. -/
def Binary.roundEven (b : Binary) : Nat :=
  if b.exponent < 0 then roundQuotient b.significand (1 <<< (-b.exponent).toNat)
  else b.significand <<< b.exponent.toNat

/-- Rounds a double to an integer and keeps its sign, also on zero. -/
def roundEven (x : Float) : Float :=
  match reading x with
  | .finite b => if b.negative then -Float.ofNat b.roundEven else Float.ofNat b.roundEven
  | _ => x

/-- The rank of a bit pattern in the order of the numbers, with `-0` just below `0`. -/
def rankOfBits (bits : UInt64) : Int :=
  if bits >>> 63 == 1 then -((bits &&& 0x7fffffffffffffff).toNat : Int) - 1 else bits.toNat

end Decimal

instance : Quantity Float where
  isFinite := Float.isFinite
  roundEven := Decimal.roundEven
  toWord x := x.toUInt64.toNat
  totalLe x y := Decimal.rankOfBits x.toBits ≤ Decimal.rankOfBits y.toBits
  emptyMin := 1.0 / 0.0

/-! ### Exact fractions -/

/-- The integer nearest to a fraction, a half going to the even neighbour. -/
def roundRat (x : Rat) : Int :=
  let excess := 2 * (x - x.floor)
  if excess < 1 then x.floor
  else if 1 < excess then x.floor + 1
  else if x.floor % 2 = 0 then x.floor else x.floor + 1

instance : Quantity Rat where
  isFinite _ := true
  roundEven x := roundRat x
  toWord x := min x.floor.toNat maxWord
  totalLe x y := decide (x ≤ y)
  emptyMin := 0

end Presynth
