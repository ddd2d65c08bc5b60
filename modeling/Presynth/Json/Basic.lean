/-!
# JSON values

Numbers are kept as they are written, because an integer field accepts other spellings than a
fraction does. A string in which an escaped surrogate stands alone is no text; it is kept as `none`,
so that it is harmless where nobody looks at it.
-/

namespace Presynth

/-- A number as written: all its digits as one natural number, how many of them follow the point,
and the written exponent. -/
structure Json.Number where
  negative : Bool
  digits : Nat
  places : Nat
  exponent : Int
  /-- Neither a point nor an exponent is written. -/
  whole : Bool
  deriving DecidableEq, Repr

/-- A JSON value. Members of an object keep their order and their repetitions. -/
inductive Json where
  | null
  | bool (value : Bool)
  | number (value : Json.Number)
  | string (text : Option String)
  | array (items : List Json)
  | object (members : List (Option String × Json))
  deriving Repr, Inhabited

namespace Json.Number

/-- Numbers that fit 64 bits. -/
def wordLimit : Nat := 1 <<< 64

/-- The longest leading part of `digits` that fits 64 bits, and how many digits follow it. -/
def leadingWord (digits : Nat) : Nat × Nat :=
  if digits < wordLimit then (digits, 0)
  else
    let (word, dropped) := leadingWord (digits / 10)
    (word, dropped + 1)
termination_by digits
decreasing_by
  simp only [wordLimit] at *
  omega

/-- The power `10 ^ n` as a double. -/
def tenTo (n : Nat) : Float := Float.ofScientific 1 false n

/-- Scales by a power of ten with one multiplication or division; below `10 ^ -308` the scale itself
is out of range and is applied in two parts. A product beyond the doubles has no value. -/
def scale (x : Float) (power : Int) : Option Float :=
  if 0 ≤ power then
    -- zero stays zero under any power
    if x == 0.0 then some x
    else if 308 < power then none
    else
      let y := x * tenTo power.toNat
      if y.isInf then none else some y
  else if -308 ≤ power then some (x / tenTo power.natAbs)
  else if -616 ≤ power then some (x / tenTo 308 / tenTo (power.natAbs - 308))
  else some 0.0

/-- The digits that count, as a number of 64 bits, and the power of ten that it is multiplied by.
Of the digits before the point the leading ones count; those after the point follow them, even if
some were dropped before the point, as long as there is room. -/
def significant (n : Number) : Nat × Int :=
  let (before, skipped) := leadingWord (n.digits / Nat.pow 10 n.places)
  let (word, dropped) := leadingWord (before * Nat.pow 10 n.places + n.digits % Nat.pow 10 n.places)
  (word, n.exponent - n.places + skipped + dropped)

/-- The double that a number stands for: the digits that count, rounded to a double and scaled by a
power of ten. -/
def toFloat? (n : Number) : Option Float :=
  let (word, power) := n.significant
  (scale (Float.ofNat word) power).map fun x => if n.negative then -x else x

/-- The natural number below `limit` that a number stands for. A sign, a point or an exponent makes
it none. -/
def toNat? (limit : Nat) (n : Number) : Option Nat :=
  if n.whole && !n.negative && n.digits < limit then some n.digits else none

end Json.Number

end Presynth
