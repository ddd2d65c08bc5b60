import Presynth.Json.Printer
import Presynth.Json.Reader
/-!
# Records in exchange texts

Values are exchanged with other programs as JSON. A record is an object, whose unknown members are
ignored, or an array of the values of its fields in order. A choice between named cases is its name,
or an object whose only member has that name and no content.
-/

namespace Presynth

/-- A type with a form in exchange texts. -/
class Exchange (β : Type) where
  /-- The value that a text stands for. -/
  read? : Json → Option β
  /-- The text of a value. -/
  write : β → String

namespace Exchange

/-- Reads a text as a value of a type and writes it again. -/
def normalized? (β : Type) [Exchange β] (text : String) : Option String :=
  ((Json.parse? text).bind (read? (β := β))).map write

/-! ### Simple values -/

instance : Exchange Float where
  read?
    | .number n => n.toFloat?
    | _ => none
  write := Json.Printer.float

instance : Exchange String where
  read?
    | .string text => text
    | _ => none
  write := Json.Printer.string

/-- A natural number below `limit`. -/
def below? (limit : Nat) : Json → Option Nat
  | .number n => n.toNat? limit
  | _ => none

/-- Counts are numbers of 64 bits. -/
instance : Exchange Nat where
  read? := below? (1 <<< 64)
  write := Json.Printer.nat

instance : Exchange UInt8 where
  read? v := (below? (1 <<< 8) v).map UInt8.ofNat
  write n := Json.Printer.nat n.toNat

instance : Exchange UInt16 where
  read? v := (below? (1 <<< 16) v).map UInt16.ofNat
  write n := Json.Printer.nat n.toNat

instance : Exchange UInt32 where
  read? v := (below? (1 <<< 32) v).map UInt32.ofNat
  write n := Json.Printer.nat n.toNat

instance {β : Type} [Exchange β] : Exchange (Option β) where
  read?
    | .null => some none
    | v => (read? v).map some
  write := Json.Printer.option write

instance {β : Type} [Exchange β] : Exchange (List β) where
  read?
    | .array items => items.mapM read?
    | _ => none
  write xs := Json.Printer.array (xs.map write)

/-! ### Choices -/

/-- The case, among `all`, that a text names. -/
def case? {β : Type} (all : List β) (name : β → String) : Json → Option β
  | .string (some text) => all.find? fun c => name c == text
  | .object [(some text, .null)] => all.find? fun c => name c == text
  | _ => none

/-- The form of a choice between named cases. -/
@[reducible] def ofCases {β : Type} (all : List β) (name : β → String) : Exchange β where
  read? := case? all name
  write c := Json.Printer.string (name c)

/-! ### Records -/

/-- What it means that a field of a record is not given. -/
inductive Absence where
  /-- The record is refused. -/
  | refused
  /-- In an object the field is null; an array is refused. -/
  | null
  /-- The field has a value for this case. -/
  | known
  deriving DecidableEq, Repr

/-- The name of a field, and what it means that it is not given. -/
abbrev Field := String × Absence

/-- The given fields of a record, by name. -/
abbrev Given := String → Option Json

/-- The fields that an object gives; no field twice, and none is left out that is needed. -/
def ofMembers? (fields : List Field) (members : List (Option String × Json)) : Option Given := do
  let named ← members.mapM fun m => m.1.map fun name => (name, m.2)
  -- names that are no fields may repeat
  let known := (named.map (·.1)).filter (fields.map (·.1)).contains
  let given : Given := fun name => named.lookup name
  if known.Nodup ∧ fields.all fun f => f.2 ≠ .refused || (given f.1).isSome then return given
  else none

/-- The fields that an array gives: all of them in order, but for fields with a known value at the
end. -/
def ofItems? (fields : List Field) (items : List Json) : Option Given :=
  if items.length ≤ fields.length ∧ (fields.drop items.length).all (·.2 = .known) then
    some fun name => ((fields.map (·.1)).zip items).lookup name
  else none

/-- The given fields of a record. -/
def given? (fields : List Field) : Json → Option Given
  | .object members => ofMembers? fields members
  | .array items => ofItems? fields items
  | _ => none

/-- The value of a field that has to be given. -/
def Given.needed? {β : Type} [Exchange β] (given : Given) (name : String) : Option β :=
  (given name).bind read?

/-- The value of a field that may be null or left out. -/
def Given.nullable? {β : Type} [Exchange β] (given : Given) (name : String) : Option (Option β) :=
  read? ((given name).getD .null)

/-- The value of a field that may be left out. -/
def Given.orElse? {β : Type} [Exchange β] (given : Given) (name : String) (known : β) : Option β :=
  match given name with
  | none => some known
  | some v => read? v

end Exchange

end Presynth
