import Presynth.Decimal.Shortest
import Presynth.Decimal.Fixed
/-!
# Laying out shortest digits

Two layouts of the same shortest digits are in use: `plain`, which is always positional and writes
whole numbers without a point, for messages; and `exchange`, which always shows a point or an
exponent and turns to an exponent for very small and very large numbers, for exchanged files.
-/

namespace Presynth.Decimal

/-- How the digits of a number are set out. -/
structure Layout where
  /-- Is a number whose leading digit stands at this power of ten written without an exponent? -/
  positional : Int → Bool
  /-- Do whole numbers carry `.0`? -/
  point : Bool
  /-- The choice between two equally near shortest decimals. -/
  tie : Tie

/-- Always positional, whole numbers without a point. -/
def plain : Layout := ⟨fun _ => true, false, .up⟩

/-- Positional for leading digits from the fifth decimal place up to fifteen zeros; whole numbers
carry `.0`. -/
def exchange : Layout := ⟨fun power => -5 ≤ power && power ≤ 15, true, .toEven⟩

namespace Scaled

/-- Digits with a decimal point and as many zeros as their place needs. -/
def positionalText (point : Bool) (s : Scaled) : String :=
  if 0 ≤ s.exponent then
    toString (s.digits * Nat.pow 10 s.exponent.toNat) ++ if point then ".0" else ""
  else
    let places := (-s.exponent).toNat
    toString (s.digits / Nat.pow 10 places) ++ "." ++
      padded places (s.digits % Nat.pow 10 places)

/-- The first digit, the others after a point, and the power of ten with its sign. -/
def exponentText (s : Scaled) (power : Int) : String :=
  let mark := if power < 0 then "e-" else "e+"
  match Nat.toDigits 10 s.digits with
  | [] => ""
  | [d] => String.singleton d ++ mark ++ toString power.natAbs
  | d :: rest => String.singleton d ++ "." ++ String.ofList rest ++ mark ++ toString power.natAbs

/-- The power of ten of the leading digit. -/
def power (s : Scaled) : Int := s.exponent + (digitCount s.digits : Int) - 1

end Scaled

namespace Layout

/-- The text of a finite number. -/
def finiteText (layout : Layout) (b : Binary) : String :=
  let s := b.shortest layout.tie
  (if b.negative then "-" else "") ++
    if layout.positional s.power then s.positionalText layout.point else s.exponentText s.power

end Layout

/-- The plain text of a double, as messages show it. -/
def plainText (x : Float) : String :=
  match reading x with
  | .nan => "NaN"
  | .infinite negative => if negative then "-inf" else "inf"
  | .finite b => plain.finiteText b

/-- The text of a finite double in exchanged files; the other doubles have none. -/
def exchangeText? (x : Float) : Option String :=
  match reading x with
  | .finite b => some (exchange.finiteText b)
  | _ => none

end Presynth.Decimal
