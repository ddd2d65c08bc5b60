import Presynth.Decimal.Binary
/-!
# The fewest decimal digits that read back

Among the decimals that round to a given double, the shortest are those with the fewest digits, and
of these the one nearest to the double is chosen. For one digit, two digits and so on, the two
neighbours of the exact value on the grid of that many digits are tested against the interval of
numbers that round to the double; the first grid with a hit decides.
-/

namespace Presynth.Decimal

/-- The number `digits · 10 ^ exponent`. -/
structure Scaled where
  digits : Nat
  exponent : Int
  deriving DecidableEq, Repr

/-- Which of two equally near neighbours is taken. -/
inductive Tie where
  | up
  | toEven
  deriving DecidableEq, Repr

/-- The number of decimal digits of `n`, one for zero. -/
def digitCount (n : Nat) : Nat := (Nat.toDigits 10 n).length

/-- The power of ten of the leading digit of `num / den`, for a positive fraction. -/
def leadingPower (num den : Nat) : Int :=
  let guess : Int := (digitCount num : Int) - digitCount den
  let reached :=
    if 0 ≤ guess then den * Nat.pow 10 guess.toNat ≤ num
    else den ≤ num * Nat.pow 10 (-guess).toNat
  if reached then guess else guess - 1

/-- Moves trailing zeros from the digits to the exponent; `fuel` bounds their number. -/
def dropZeros : Nat → Nat → Int → Scaled
  | 0, digits, exponent => ⟨digits, exponent⟩
  | fuel + 1, digits, exponent =>
    if digits % 10 = 0 ∧ digits ≠ 0 then dropZeros fuel (digits / 10) (exponent + 1)
    else ⟨digits, exponent⟩

/-- The neighbour of `num / den` on the grid of `10 ^ power` that lies between `low / (4 den)` and
`high / (4 den)`, the nearer one if both do. -/
def gridHit (tie : Tie) (num den low high : Nat) (closed : Bool) (power : Int) : Option Nat :=
  let up := Nat.pow 10 power.toNat
  let down := Nat.pow 10 (-power).toNat
  let floor := num * down / (den * up)
  -- the bounds are numerators over four times `den`, and so is `point`
  let inside (k : Nat) : Bool :=
    let point := 4 * k * up * den
    if closed then low * down ≤ point && point ≤ high * down
    else low * down < point && point < high * down
  let excess := 2 * (num * down - floor * (den * up))
  match inside floor, inside (floor + 1) with
  | false, false => none
  | true, false => some floor
  | false, true => some (floor + 1)
  | true, true =>
    if excess < den * up then some floor
    else if den * up < excess then some (floor + 1)
    else match tie with
      | .up => some (floor + 1)
      | .toEven => some (if floor % 2 = 0 then floor else floor + 1)

/-- Tries grids of more and more digits. Seventeen digits tell all doubles apart, so the search ends
with a hit. -/
def searchGrids (tie : Tie) (num den low high : Nat) (closed : Bool) : Nat → Int → Scaled
  | 0, power => ⟨num * Nat.pow 10 (-power).toNat / (den * Nat.pow 10 power.toNat), power⟩
  | fuel + 1, power =>
    match gridHit tie num den low high closed power with
    | some digits => dropZeros 20 digits power
    | none => searchGrids tie num den low high closed fuel (power - 1)

/-- The shortest decimal that reads back as the magnitude of `b`. -/
def Binary.shortest (tie : Tie) (b : Binary) : Scaled :=
  if b.significand = 0 then ⟨0, 0⟩
  else
    let (num, den) := b.fraction
    let (low, high) := b.roundingBounds
    searchGrids tie num den low high (b.significand % 2 = 0) 18 (leadingPower num den)

end Presynth.Decimal
