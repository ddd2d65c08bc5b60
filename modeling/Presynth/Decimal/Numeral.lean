/-!
# Reading decimal numerals

A numeral is an optional sign and either a word for a special value (`inf`, `infinity`, `nan`, in
any case) or digits with an optional point and an optional exponent, where a digit stands before or
after the point. Its value is the double nearest to the exact decimal.
-/

namespace Presynth.Decimal

/-- The value of a run of decimal digits, most significant first. -/
def ofDigits (digits : List Char) : Nat :=
  digits.foldl (fun n c => 10 * n + (c.toNat - '0'.toNat)) 0

/-- The double nearest to `digits · 10 ^ exponent`. Beyond the range of doubles on either side the
answer does not depend on how far beyond, which spares the huge powers. -/
def nearest (digits : Nat) (exponent : Int) : Float :=
  if digits = 0 then 0
  else
    let power : Int := exponent + (Nat.toDigits 10 digits).length
    -- the value lies below `10 ^ power` and not below a tenth of that
    if 400 < power then 1.0 / 0.0
    else if power < -400 then 0
    else if exponent < 0 then Float.ofScientific digits true exponent.natAbs
    else Float.ofScientific digits false exponent.natAbs

/-- Splits a sign off; no sign is the sign `+`. -/
def splitSign : List Char → Bool × List Char
  | '-' :: rest => (true, rest)
  | '+' :: rest => (false, rest)
  | text => (false, text)

/-- An exponent mark, an optional sign and at least one digit, up to the end of the text; no text at
all is the exponent zero. -/
def exponent? : List Char → Option Int
  | [] => some 0
  | c :: rest =>
    if c = 'e' ∨ c = 'E' then
      let (negative, digits) := splitSign rest
      if digits.isEmpty ∨ ¬ digits.all Char.isDigit then none
      else some (if negative then -(ofDigits digits : Int) else ofDigits digits)
    else none

/-- The magnitude written by digits, an optional point with digits, and an optional exponent. -/
def magnitude? (text : List Char) : Option Float :=
  let whole := text.takeWhile Char.isDigit
  let (places, rest) := match text.dropWhile Char.isDigit with
    | '.' :: rest => (rest.takeWhile Char.isDigit, rest.dropWhile Char.isDigit)
    | rest => ([], rest)
  if whole.isEmpty ∧ places.isEmpty then none
  else (exponent? rest).map fun e => nearest (ofDigits (whole ++ places)) (e - places.length)

/-- Reads a whole text as a numeral. -/
def numeral? (text : List Char) : Option Float :=
  let (negative, rest) := splitSign text
  let sign (x : Float) : Float := if negative then -x else x
  let word := String.ofList (rest.map Char.toLower)
  if word = "inf" ∨ word = "infinity" then some (sign (1.0 / 0.0))
  else if word = "nan" then some (0.0 / 0.0)
  else (magnitude? rest).map sign

end Presynth.Decimal
