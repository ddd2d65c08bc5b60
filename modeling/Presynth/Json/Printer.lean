import Presynth.Decimal.Layout
import Presynth.Text.Hex
/-!
# Writing JSON

Compact text: no white space, members in the order given. Quotes, backslashes and control characters
are escaped, all other characters stand for themselves. A double that is not finite is `null`.
-/

namespace Presynth.Json.Printer

/-- The written form of one character of a string. -/
def escaped (c : Char) : List Char :=
  if c = '"' then ['\\', '"']
  else if c = '\\' then ['\\', '\\']
  else if c = '\n' then ['\\', 'n']
  else if c = '\r' then ['\\', 'r']
  else if c = '\t' then ['\\', 't']
  else if c = '\x08' then ['\\', 'b']
  else if c = '\x0c' then ['\\', 'f']
  else if c.toNat < 0x20 then
    ['\\', 'u', '0', '0', Text.hexDigit (c.toNat / 16), Text.hexDigit (c.toNat % 16)]
  else [c]

/-- A string in quotes. -/
def string (text : String) : String :=
  "\"" ++ String.ofList (text.toList.flatMap escaped) ++ "\""

/-- A double with the fewest digits that read back. -/
def float (x : Float) : String := (Decimal.exchangeText? x).getD "null"

/-- A natural number. -/
def nat (n : Nat) : String := toString n

/-- A truth value. -/
def bool (b : Bool) : String := if b then "true" else "false"

/-- A value that may be absent. -/
def option {α : Type} (write : α → String) : Option α → String
  | none => "null"
  | some x => write x

/-- Written items in brackets. -/
def array (items : List String) : String := "[" ++ ",".intercalate items ++ "]"

/-- Written members in braces. -/
def object (members : List (String × String)) : String :=
  "\x7b" ++ ",".intercalate (members.map fun m => string m.1 ++ ":" ++ m.2) ++ "\x7d"

end Presynth.Json.Printer
