import Presynth.Exchange.Record
import Presynth.Run.Fault
/-!
# Files of numbers

Vectors are stored as arrays of numbers, and single measured values as numbers of their own.
-/

namespace Presynth.Run

/-- The text of a vector. -/
def vectorText (values : List Float) : String := Exchange.write values

/-- The vector in a text. -/
def vectorOf? (text : String) : Option (List Float) := (Json.parse? text).bind Exchange.read?

/-- The number in a text. -/
def scalarOf? (text : String) : Option Float := (Json.parse? text).bind Exchange.read?

/-- Reads the value in a text file. -/
def readValue {β : Type} (parse? : String → Option β) (files : FileTree) (path : Path) :
    Except RunFault β :=
  match files.readText path with
  | .error fault => .error (.file path fault)
  | .ok text =>
    match parse? text with
    | some x => .ok x
    | none => .error (.malformed path)

/-- Reads a vector of any length. -/
def readVector : FileTree → Path → Except RunFault (List Float) := readValue vectorOf?

/-- Reads a vector of a certain length. -/
def readVectorOfLength (files : FileTree) (path : Path) (length : Nat) :
    Except RunFault (List Float) :=
  match readVector files path with
  | .error e => .error e
  | .ok values =>
    if values.length = length then .ok values
    else .error (.vectorLength path values.length length)

/-- Reads a single number. -/
def readScalar : FileTree → Path → Except RunFault Float := readValue scalarOf?

end Presynth.Run
