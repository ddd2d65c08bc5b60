import Presynth.Json.Basic
import Presynth.Decimal.Numeral
import Presynth.Text.Hex
/-!
# Reading JSON

A strict reader: one value with only white space around it, no leading zeros, no trailing commas, no
control characters in strings. Every reading function returns what it read and the text after it.
-/

namespace Presynth.Json

/-- The four white space characters of the format. -/
def isSpace (c : Char) : Bool := c == ' ' || c == '\t' || c == '\n' || c == '\r'

/-- Drops leading white space. -/
def skipSpace (text : List Char) : List Char := text.dropWhile isSpace

/-! ### Strings -/

/-- A part of a string: a character, or a 16 bit unit given by an escape. -/
inductive Piece where
  | char (c : Char)
  | unit (n : Nat)

/-- The characters that a backslash and one letter stand for. -/
def shortEscape? : Char → Option Char
  | '"' => some '"'
  | '\\' => some '\\'
  | '/' => some '/'
  | 'b' => some '\x08'
  | 'f' => some '\x0c'
  | 'n' => some '\n'
  | 'r' => some '\r'
  | 't' => some '\t'
  | _ => none

/-- The number written by four hexadecimal digits. -/
def hexUnit? (a b c d : Char) : Option Nat := do
  let a ← Text.hexValue? a
  let b ← Text.hexValue? b
  let c ← Text.hexValue? c
  let d ← Text.hexValue? d
  return ((a * 16 + b) * 16 + c) * 16 + d

/-- The parts of a string up to its closing quote. -/
def pieces : List Char → Option (List Piece × List Char)
  | [] => none
  | '"' :: rest => some ([], rest)
  | '\\' :: 'u' :: a :: b :: c :: d :: rest => do
    let n ← hexUnit? a b c d
    let (found, rest) ← pieces rest
    return (.unit n :: found, rest)
  | '\\' :: c :: rest => do
    let c ← shortEscape? c
    let (found, rest) ← pieces rest
    return (.char c :: found, rest)
  | c :: rest =>
    if c.toNat < 0x20 ∨ c = '\\' then none
    else do
      let (found, rest) ← pieces rest
      return (.char c :: found, rest)

/-- Joins the parts of a string. A pair of surrogates is one character; a surrogate without its
partner has no meaning. -/
def joinPieces : List Piece → Option (List Char)
  | [] => some []
  | .char c :: rest => (joinPieces rest).map (c :: ·)
  | .unit n :: rest =>
    if n < 0xd800 ∨ 0xdfff < n then (joinPieces rest).map (Char.ofNat n :: ·)
    else if n < 0xdc00 then
      -- the first half of a pair
      match rest with
      | .unit m :: rest =>
        if 0xdc00 ≤ m ∧ m ≤ 0xdfff then
          let c := Char.ofNat (0x10000 + (n - 0xd800) * 0x400 + (m - 0xdc00))
          (joinPieces rest).map (c :: ·)
        else none
      | _ => none
    else none

/-- A string, after its opening quote. -/
def stringAfterQuote (text : List Char) : Option (Option String × List Char) :=
  (pieces text).map fun (found, rest) => ((joinPieces found).map String.ofList, rest)

/-! ### Numbers -/

/-- The digits after an exponent mark, with an optional sign; at least one digit. -/
def exponentAfterMark (text : List Char) : Option (Int × List Char) :=
  let (negative, rest) := Decimal.splitSign text
  let digits := rest.takeWhile Char.isDigit
  if digits.isEmpty then none
  else
    let n : Int := Decimal.ofDigits digits
    some (if negative then -n else n, rest.dropWhile Char.isDigit)

/-- The optional exponent of a number whose other parts have been read. -/
def withExponent (negative : Bool) (digits : List Char) (places : Nat) (whole : Bool)
    (text : List Char) : Option (Number × List Char) :=
  match text with
  | c :: rest =>
    if c = 'e' ∨ c = 'E' then
      (exponentAfterMark rest).map fun (exponent, rest) =>
        (⟨negative, Decimal.ofDigits digits, places, exponent, false⟩, rest)
    else some (⟨negative, Decimal.ofDigits digits, places, 0, whole⟩, text)
  | [] => some (⟨negative, Decimal.ofDigits digits, places, 0, whole⟩, text)

/-- A number after its sign. A leading zero is followed by no other digit, and a point by at least
one. -/
def unsigned (negative : Bool) (text : List Char) : Option (Number × List Char) :=
  let digits := text.takeWhile Char.isDigit
  let rest := text.dropWhile Char.isDigit
  if digits.isEmpty ∨ (digits.head? = some '0' ∧ 1 < digits.length) then none
  else
    match rest with
    | '.' :: rest =>
      let places := rest.takeWhile Char.isDigit
      if places.isEmpty then none
      else
        withExponent negative (digits ++ places) places.length false (rest.dropWhile Char.isDigit)
    | _ => withExponent negative digits 0 true rest

/-- A number with its sign. -/
def signedNumber : List Char → Option (Number × List Char)
  | '-' :: rest => unsigned true rest
  | text => unsigned false text

/-! ### Values -/

/-- Drops `word` from the front of a text. -/
def dropWord : List Char → List Char → Option (List Char)
  | [], text => some text
  | _ :: _, [] => none
  | c :: word, d :: text => if c = d then dropWord word text else none

mutual

/-- One value. `fuel` bounds the nesting of the calls, of which there are at most two for each
character read. -/
def value : Nat → List Char → Option (Json × List Char)
  | 0, _ => none
  | fuel + 1, text =>
    match skipSpace text with
    | 'n' :: rest => (dropWord "ull".toList rest).map (null, ·)
    | 't' :: rest => (dropWord "rue".toList rest).map (bool true, ·)
    | 'f' :: rest => (dropWord "alse".toList rest).map (bool false, ·)
    | '"' :: rest => (stringAfterQuote rest).map fun (s, rest) => (string s, rest)
    | '[' :: rest =>
      match skipSpace rest with
      | ']' :: rest => some (array [], rest)
      | rest => (items fuel rest).map fun (found, rest) => (array found, rest)
    | '{' :: rest =>
      match skipSpace rest with
      | '}' :: rest => some (object [], rest)
      | rest => (members fuel rest).map fun (found, rest) => (object found, rest)
    | text => (signedNumber text).map fun (n, rest) => (number n, rest)

/-- The items of an array up to its closing bracket; at least one. -/
def items : Nat → List Char → Option (List Json × List Char)
  | 0, _ => none
  | fuel + 1, text => do
    let (first, rest) ← value fuel text
    match skipSpace rest with
    | ']' :: rest => return ([first], rest)
    | ',' :: rest =>
      let (more, rest) ← items fuel rest
      return (first :: more, rest)
    | _ => none

/-- The members of an object up to its closing brace; at least one. -/
def members : Nat → List Char → Option (List (Option String × Json) × List Char)
  | 0, _ => none
  | fuel + 1, text =>
    match skipSpace text with
    | '"' :: rest => do
      let (key, rest) ← stringAfterQuote rest
      match skipSpace rest with
      | ':' :: rest =>
        let (first, rest) ← value fuel rest
        match skipSpace rest with
        | '}' :: rest => return ([(key, first)], rest)
        | ',' :: rest =>
          let (more, rest) ← members fuel rest
          return ((key, first) :: more, rest)
        | _ => none
      | _ => none
    | _ => none

end

/-- Reads a whole text as one value. -/
def parse? (text : String) : Option Json :=
  let chars := text.toList
  match value (2 * chars.length + 2) chars with
  | some (v, rest) => if (skipSpace rest).isEmpty then some v else none
  | none => none

end Presynth.Json
