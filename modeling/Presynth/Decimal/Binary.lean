/-!
# Doubles as exact numbers

A finite double is a sign, an integer significand and a power of two. Everything that is printed
about a double is computed from these three with exact natural number arithmetic.
-/

namespace Presynth.Decimal

/-- The value `± significand · 2 ^ exponent`. -/
structure Binary where
  negative : Bool
  significand : Nat
  exponent : Int
  deriving DecidableEq, Repr

/-- What the 64 bits of a double stand for. -/
inductive Reading where
  | nan
  | infinite (negative : Bool)
  | finite (value : Binary)
  deriving DecidableEq, Repr

/-- Takes the bit pattern of a double apart. An exponent field of zero marks the subnormal numbers,
which lack the implicit leading bit. -/
def readingOfBits (bits : UInt64) : Reading :=
  let negative := bits >>> 63 == 1
  let field := ((bits >>> 52) &&& 0x7ff).toNat
  let fraction := (bits &&& 0xfffffffffffff).toNat
  -- the largest exponent field is reserved for what is not finite
  if field = 2047 then
    if fraction = 0 then .infinite negative else .nan
  else if field = 0 then .finite ⟨negative, fraction, -1074⟩
  else .finite ⟨negative, fraction + 1 <<< 52, (field : Int) - 1075⟩

/-- Takes a double apart. -/
def reading (x : Float) : Reading := readingOfBits x.toBits

namespace Binary

/-- The magnitude as a fraction of natural numbers. -/
def fraction (b : Binary) : Nat × Nat :=
  if b.exponent < 0 then (b.significand, 1 <<< (-b.exponent).toNat)
  else (b.significand <<< b.exponent.toNat, 1)

/-- The bounds of the numbers that round to `b`, as numerators over four times the denominator of
`b.fraction`. Below a power of two the neighbours lie twice as close, unless the power is the least
normal one. -/
def roundingBounds (b : Binary) : Nat × Nat :=
  let unit := if b.exponent < 0 then 1 else 1 <<< b.exponent.toNat
  let below := if b.significand = 1 <<< 52 ∧ -1074 < b.exponent then unit else 2 * unit
  (4 * b.fraction.1 - below, 4 * b.fraction.1 + 2 * unit)

end Binary

end Presynth.Decimal
