import Presynth.Decimal.Numeral
import Presynth.Text.Hex
import Presynth.Toml.Basic
/-!
# TOML numbers, truth values, dates and times

Values that are not quoted or bracketed are single tokens. Underscores may stand between digits;
whole numbers fit 64 bits with a sign; dates and times are checked but not kept.
-/

namespace Presynth.Toml.Scalar

/-! ### Digits -/

/-- Digits that satisfy `p`, with single underscores between them, without the underscores. -/
def digits? (p : Char → Bool) : List Char → Option (List Char)
  | [] => none
  | [c] => if p c then some [c] else none
  | c :: '_' :: rest => if p c then (digits? p rest).map (c :: ·) else none
  | c :: rest => if p c then (digits? p rest).map (c :: ·) else none

/-- Decimal digits without a leading zero, unless it is the only one. -/
def decimal? (text : List Char) : Option (List Char) :=
  if text.head? = some '0' ∧ 1 < text.length then none else digits? Char.isDigit text

/-- The value of digits in a base. -/
def ofBase (base : Nat) (digits : List Char) : Nat :=
  digits.foldl (fun n c => base * n + (Text.hexValue? c).getD 0) 0

/-! ### Numbers -/

/-- A number that fits 64 bits with a sign. -/
def wholeOf? (negative : Bool) (n : Nat) : Option Toml :=
  if negative then (if n ≤ 1 <<< 63 then some (integer (-(n : Int))) else none)
  else if n < 1 <<< 63 then some (integer n) else none

/-- A whole number with a mark for its base. -/
def based? (base : Nat) (digits : List Char) : Option Toml :=
  let isDigit (c : Char) : Bool := (Text.hexValue? c).any (· < base)
  (digits? isDigit digits).bind fun ds => wholeOf? false (ofBase base ds)

/-- The exponent after its mark. -/
def exponentOf? (text : List Char) : Option Int :=
  let (negative, digits) := Decimal.splitSign text
  (digits? Char.isDigit digits).map fun ds =>
    let n : Int := Decimal.ofDigits ds
    if negative then -n else n

/-- A fraction. A positive number beyond the doubles is refused, a negative one is minus
infinity. -/
def fraction? (negative : Bool) (whole places : List Char) (exponent : Int) : Option Toml :=
  let x := Decimal.nearest (Decimal.ofDigits (whole ++ places)) (exponent - places.length)
  if negative then some (float (-x)) else if x.isInf then none else some (float x)

/-- A number in base ten after its sign: whole, or with a point or an exponent or both. -/
def number? (negative : Bool) (text : List Char) : Option Toml := do
  let isMark (c : Char) : Bool := c == 'e' || c == 'E'
  let mantissa := text.takeWhile fun c => !isMark c
  let mark := text.dropWhile fun c => !isMark c
  let whole := mantissa.takeWhile (· != '.')
  let point := mantissa.dropWhile (· != '.')
  let wholeDigits ← decimal? whole
  match point, mark with
  | [], [] => wholeOf? negative (Decimal.ofDigits wholeDigits)
  | [], _ :: e =>
    let exponent ← exponentOf? e
    fraction? negative wholeDigits [] exponent
  | _ :: places, [] =>
    let places ← digits? Char.isDigit places
    fraction? negative wholeDigits places 0
  | _ :: places, _ :: e =>
    let places ← digits? Char.isDigit places
    let exponent ← exponentOf? e
    fraction? negative wholeDigits places exponent

/-! ### Dates and times -/

/-- A number of exactly `k` digits within bounds, and the text after it. -/
def field? (k low high : Nat) (text : List Char) : Option (Nat × List Char) :=
  let digits := text.take k
  let n := Decimal.ofDigits digits
  if digits.length = k ∧ digits.all Char.isDigit ∧ low ≤ n ∧ n ≤ high then some (n, text.drop k)
  else none

/-- The text after a certain character. -/
def after? (c : Char) : List Char → Option (List Char)
  | [] => none
  | d :: rest => if d = c then some rest else none

/-- The number of days of a month. -/
def daysIn (year month : Nat) : Nat :=
  if month = 2 then
    if year % 4 = 0 ∧ (year % 100 ≠ 0 ∨ year % 400 = 0) then 29 else 28
  else if month = 4 ∨ month = 6 ∨ month = 9 ∨ month = 11 then 30
  else 31

/-- The text after a date. -/
def afterDate? (text : List Char) : Option (List Char) := do
  let (year, rest) ← field? 4 0 9999 text
  let rest ← after? '-' rest
  let (month, rest) ← field? 2 1 12 rest
  let rest ← after? '-' rest
  let (_, rest) ← field? 2 1 (daysIn year month) rest
  return rest

/-- The text after a time of day. -/
def afterTime? (text : List Char) : Option (List Char) := do
  let (_, rest) ← field? 2 0 23 text
  let rest ← after? ':' rest
  let (_, rest) ← field? 2 0 59 rest
  let rest ← after? ':' rest
  let (_, rest) ← field? 2 0 60 rest
  match rest with
  | '.' :: more =>
    if (more.takeWhile Char.isDigit).isEmpty then none else some (more.dropWhile Char.isDigit)
  | _ => some rest

/-- Is this nothing or a distance from universal time? -/
def isOffset : List Char → Bool
  | [] => true
  | ['Z'] => true
  | ['z'] => true
  | c :: rest =>
    (c == '+' || c == '-') &&
      (do
        let (_, rest) ← field? 2 0 23 rest
        let rest ← after? ':' rest
        let (_, rest) ← field? 2 0 59 rest
        return rest).any List.isEmpty

/-- Is this a time of day with an optional offset? -/
def isZonedTime (text : List Char) : Bool := (afterTime? text).any isOffset

/-- Is this a date, a time of day, or both? -/
def isMoment (text : List Char) : Bool :=
  match afterDate? text with
  | some [] => true
  | some (c :: rest) => (c == 'T' || c == 't' || c == ' ') && isZonedTime rest
  | none => (afterTime? text).any List.isEmpty

/-! ### Tokens -/

/-- May a character stand in a token? -/
def isTokenChar (c : Char) : Bool :=
  c.isAlphanum || c == '_' || c == '+' || c == '-' || c == '.' || c == ':'

/-- Is this a time with a colon where one is expected? -/
def looksLikeTime : List Char → Bool
  | a :: b :: c :: _ => a.isDigit && b.isDigit && c == ':'
  | _ => false

/-- Splits a token off. One blank may stand between a date and a time. -/
def splitToken (text : List Char) : List Char × List Char :=
  let token := text.takeWhile isTokenChar
  match text.dropWhile isTokenChar with
  | ' ' :: rest =>
    if (afterDate? token).any List.isEmpty && looksLikeTime rest then
      (token ++ ' ' :: rest.takeWhile isTokenChar, rest.dropWhile isTokenChar)
    else (token, ' ' :: rest)
  | rest => (token, rest)

/-- The value of a token. -/
def ofToken? (token : List Char) : Option Toml :=
  if token = "true".toList then some (boolean true)
  else if token = "false".toList then some (boolean false)
  else if isMoment token then some moment
  else
    let (negative, rest) := Decimal.splitSign token
    if rest = "inf".toList then some (float (if negative then -(1.0 / 0.0) else 1.0 / 0.0))
    else if rest = "nan".toList then some (float (0.0 / 0.0))
    else
      match token with
      | '0' :: 'x' :: digits => based? 16 digits
      | '0' :: 'o' :: digits => based? 8 digits
      | '0' :: 'b' :: digits => based? 2 digits
      | _ => number? negative rest

end Presynth.Toml.Scalar
