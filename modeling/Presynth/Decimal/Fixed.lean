import Presynth.Decimal.Binary
/-!
# A fixed number of decimal places

The exact binary value is rounded to the nearest multiple of `10 ^ -places`, a half going to the
even neighbour. The sign is kept, also on a value that rounds to zero.
-/

namespace Presynth.Decimal

/-- The natural number nearest to `num / den`, a half going to the even neighbour. -/
def roundQuotient (num den : Nat) : Nat :=
  let floor := num / den
  let excess := 2 * (num % den)
  if excess < den then floor
  else if den < excess then floor + 1
  else if floor % 2 = 0 then floor else floor + 1

/-- Decimal digits, filled with zeros on the left up to `width`. -/
def padded (width n : Nat) : String :=
  let digits := Nat.toDigits 10 n
  String.ofList (List.replicate (width - digits.length) '0' ++ digits)

/-- The magnitude of `b` with `places` digits after the point. -/
def Binary.fixed (places : Nat) (b : Binary) : String :=
  let (num, den) := b.fraction
  let units := roundQuotient (num * Nat.pow 10 places) den
  let whole := toString (units / Nat.pow 10 places)
  if places = 0 then whole else whole ++ "." ++ padded places (units % Nat.pow 10 places)

/-- A double with `places` digits after the point. -/
def fixedText (places : Nat) (x : Float) : String :=
  match reading x with
  | .nan => "NaN"
  | .infinite negative => if negative then "-inf" else "inf"
  | .finite b => (if b.negative then "-" else "") ++ b.fixed places

end Presynth.Decimal
