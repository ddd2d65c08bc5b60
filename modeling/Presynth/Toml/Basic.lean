/-!
# TOML documents

A document is a sequence of statements: headers, which open a table, and assignments, which give a
key of the open table a value. Tables may be defined once only. What may still be added to a table
depends on how it came about, so every table remembers that.

Arrays of tables have no place in the documents that are read here; a header for one is refused in
reading.
-/

namespace Presynth

/-- How a table came about. -/
inductive Toml.Origin where
  /-- By a header of its own, or as the document itself. -/
  | header
  /-- As a table on the way of a header. -/
  | passage
  /-- As a table on the way of a dotted key. -/
  | dotted
  /-- As a value, to which nothing can be added. -/
  | value
  deriving DecidableEq, Repr

/-- A TOML value. -/
inductive Toml where
  | string (text : String)
  | integer (value : Int)
  | float (value : Float)
  | boolean (value : Bool)
  /-- A date or a time, of which no more is kept. -/
  | moment
  | array (items : List Toml)
  | table (origin : Toml.Origin) (entries : List (String × Toml))
  deriving Repr, Inhabited

namespace Toml

/-- The entries of a table. -/
abbrev Entries := List (String × Toml)

/-- Applies a change to the value of a key, where nothing stands for a key without one. The key
keeps its place. -/
def alter (key : String) (f : Option Toml → Option Toml) : Entries → Option Entries
  | [] => (f none).map fun v => [(key, v)]
  | (k, v) :: rest =>
    if k = key then (f (some v)).map fun v => (k, v) :: rest
    else (alter key f rest).map ((k, v) :: ·)

/-- Gives the last key of a dotted key a value. The tables on the way are made where they are
missing; what is there must not have a header of its own and must not be a value, and the table that
receives the value must have come about by dotted keys. -/
def assign (value : Toml) : List String → Toml.Origin → Entries → Option Entries
  | [], _, _ => none
  | [key], origin, entries =>
    if origin = .passage ∨ origin = .value then none
    else
      alter key (fun found => match found with
        | none => some value
        | some _ => none) entries
  | key :: more, _, entries =>
    alter key (fun found => match found with
      | none => (assign value more .dotted []).map (table .dotted)
      | some (table .dotted inner) => (assign value more .dotted inner).map (table .dotted)
      | some (table .passage inner) => (assign value more .passage inner).map (table .passage)
      | some _ => none) entries

/-- Opens the table of a header. Tables on the way are made where they are missing; the table itself
must be new or have been passed by other headers only. -/
def openTable : List String → Entries → Option Entries
  | [], _ => none
  | [key], entries =>
    alter key (fun found => match found with
      | none => some (table .header [])
      | some (table .passage inner) => some (table .header inner)
      | some _ => none) entries
  | key :: more, entries =>
    alter key (fun found => match found with
      | none => (openTable more []).map (table .passage)
      | some (table .value _) => none
      | some (table origin inner) => (openTable more inner).map (table origin)
      | some _ => none) entries

/-- Gives a dotted key a value in the table at a path. -/
def assignAt (value : Toml) (keys : List String) : List String → Entries → Option Entries
  | [], entries => assign value keys .header entries
  | key :: path, entries =>
    alter key (fun found => match found with
      | some (table origin inner) => (assignAt value keys path inner).map (table origin)
      | _ => none) entries

/-- A statement of a document. -/
inductive Statement where
  /-- `[a.b]` -/
  | header (path : List String)
  /-- `a.b = value` -/
  | assignment (keys : List String) (value : Toml)

/-- The document of statements, from the entries so far and the path of the open table. -/
def build : List Statement → List String → Entries → Option Entries
  | [], _, entries => some entries
  | .header path :: rest, _, entries => do
    let entries ← openTable path entries
    build rest path entries
  | .assignment keys value :: rest, path, entries => do
    let entries ← assignAt value keys path entries
    build rest path entries

end Toml

end Presynth
