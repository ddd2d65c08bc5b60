import Presynth.Quantity
import Presynth.Decimal.Layout
import Presynth.Decimal.Numeral
import Presynth.Text.Blank
/-!
# Clock frequencies

A frequency is kept in hertz. It is written with the largest unit that leaves at least one whole
unit, and read with any unit in any case, or none for hertz.
-/

namespace Presynth

variable {α : Type}

/-- A clock frequency in hertz. -/
structure Frequency (α : Type) where
  hz : α
  deriving DecidableEq, Repr, BEq

namespace Frequency

section Arithmetic

variable [Mul α] [Div α] [NatCast α]

/-- The number of hertz in a gigahertz, and of nanoseconds in a second. -/
def giga : Nat := 1000000000

/-- A frequency given in gigahertz. -/
def ofGhz (ghz : α) : Frequency α := ⟨ghz * (giga : α)⟩

/-- The frequency in megahertz. -/
def mhz (f : Frequency α) : α := f.hz / ((1000000 : Nat) : α)

/-- The frequency in gigahertz. -/
def ghz (f : Frequency α) : α := f.hz / (giga : α)

/-- The length of a clock cycle in nanoseconds. -/
def periodNs (f : Frequency α) : α := (giga : α) / f.hz

end Arithmetic

/-- A frequency with its unit. -/
def text (f : Frequency Float) : String :=
  if f.hz ≥ 1000000000 then Decimal.plainText (f.hz / 1000000000) ++ "GHz"
  else if f.hz ≥ 1000000 then Decimal.plainText (f.hz / 1000000) ++ "MHz"
  else if f.hz ≥ 1000 then Decimal.plainText (f.hz / 1000) ++ "KHz"
  else Decimal.plainText f.hz ++ "Hz"

/-- A frequency with its unit, for mentions among other values. -/
def mention (f : Frequency Float) : String := "Frequency(" ++ f.text ++ ")"

/-- Cuts `ending` off the end of a text. -/
def dropEnding? (ending : String) (text : List Char) : Option (List Char) :=
  let kept := text.length - ending.length
  if text.drop kept = ending.toList then some (text.take kept) else none

/-- Takes the unit off a text in lower case: what is left, and the unit in hertz. -/
def splitUnit (text : List Char) : List Char × Float :=
  match dropEnding? "ghz" text with
  | some rest => (rest, 1000000000)
  | none =>
    match dropEnding? "mhz" text with
    | some rest => (rest, 1000000)
    | none =>
      match dropEnding? "khz" text with
      | some rest => (rest, 1000)
      | none =>
        match dropEnding? "hz" text with
        | some rest => (rest, 1)
        | none => (text, 1)

/-- Reads a number with a unit. Blanks are allowed around the text and before the unit. -/
def parse? (text : String) : Option (Frequency Float) :=
  let (digits, unit) := splitUnit ((Text.trim text.toList).map Char.toLower)
  (Decimal.numeral? (Text.trim digits)).map fun x => ⟨x * unit⟩

/-- The text that the report of an unreadable frequency shows. -/
def shownInput (text : String) : String := String.ofList (Text.trim text.toList)

/-- The report of an unreadable frequency. -/
def invalidMessage (text : String) : String := "invalid frequency: '" ++ shownInput text ++ "'"

end Frequency

end Presynth
