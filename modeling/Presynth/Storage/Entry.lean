import Presynth.Archive.Binary
import Presynth.NameMap
/-!
# Files and directories

An entry is a file or a directory with further entries in it, so that nothing stands outside a
directory and an empty directory is remembered. What stands where is a question to `kind?`, which
does not show what is in a directory; a change at one location is then a change of one answer.

Main statement: `kind?_put` (what recording a leaf does to look-ups).
-/

namespace Presynth

/-- The names on the way from a directory to an entry below it; none for itself. -/
abbrev Location := List String

/-- A location as a text. -/
def Location.text (here : Location) : String := "/".intercalate here

/-- A file, or a directory with entries in name order. -/
inductive Entry where
  | file (content : Archive.Bytes)
  | directory (entries : List (String × Entry))
  deriving Inhabited

/-- What stands at a location. -/
inductive Entry.Kind where
  | directory
  | file (content : Archive.Bytes)
  deriving DecidableEq, Repr

namespace Entry

/-- What an entry is, without what is in it. -/
def kind : Entry → Kind
  | file content => .file content
  | directory _ => .directory

/-- The entries in a directory; a file has none. -/
def entries : Entry → List (String × Entry)
  | file _ => []
  | directory entries => entries

/-- The entry of a name in a directory. -/
def child? (e : Entry) (name : String) : Option Entry := NameMap.lookup name e.entries

/-- The entry at a location. -/
def get? : Entry → Location → Option Entry
  | e, [] => some e
  | e, name :: rest =>
    match e.child? name with
    | some e => e.get? rest
    | none => none

/-- What stands at a location. -/
def kind? (e : Entry) (here : Location) : Option Kind := (e.get? here).map kind

/-- Records an entry at a location, in place of what stands there. Missing directories are made. -/
def put : Entry → Location → Entry → Entry
  | _, [], new => new
  | e, name :: rest, new =>
    directory (NameMap.place name (((e.child? name).getD (directory [])).put rest new) e.entries)

/-- Takes away what stands at a location with all that is below it. Of the entry itself only an
empty directory is left. -/
def remove : Entry → Location → Entry
  | _, [] => directory []
  | e, [name] => directory (e.entries.filter fun x => x.1 ≠ name)
  | e, name :: rest =>
    match e.child? name with
    | some inner => directory (NameMap.place name (inner.remove rest) e.entries)
    | none => e

mutual

/-- The files at and below a location, with their locations. -/
def files (here : Location) : Entry → List (Location × Archive.Bytes)
  | file content => [(here, content)]
  | directory entries => filesAmong here entries

/-- The files of some entries of a directory at a location, with their locations. -/
def filesAmong (here : Location) : List (String × Entry) → List (Location × Archive.Bytes)
  | [] => []
  | (name, e) :: rest => e.files (here ++ [name]) ++ filesAmong here rest

end

/-! ### Look-ups -/

@[simp] theorem kind_directory (entries : List (String × Entry)) :
    (directory entries).kind = .directory := rfl

theorem get?_append_singleton (e : Entry) (here : Location) (name : String) :
    e.get? (here ++ [name]) = (e.get? here).bind fun e => e.child? name := by
  induction here generalizing e with
  | nil => cases h : e.child? name <;> simp [get?, h]
  | cons n rest ih => cases h : e.child? n <;> simp [get?, h, ih]

theorem entries_eq_nil_of_kind {e : Entry} (h : e.kind ≠ .directory) : e.entries = [] := by
  cases e with
  | file _ => rfl
  | directory _ => exact absurd rfl h

theorem kind_eq_directory_of_child? {e inner : Entry} {name : String}
    (h : e.child? name = some inner) : e.kind = .directory := by
  cases e with
  | file _ => cases h
  | directory _ => rfl

/-- Nothing stands below what has no entries. -/
theorem get?_cons_of_entries_eq_nil {e : Entry} (h : e.entries = []) (name : String)
    (rest : Location) : e.get? (name :: rest) = none := by
  simp [get?, child?, h, NameMap.lookup]

theorem child?_place (e new : Entry) (name other : String) :
    (directory (NameMap.place name new e.entries)).child? other =
      if name = other then some new else e.child? other :=
  NameMap.lookup_place name other new e.entries

/-- Recording a file or an empty directory in a directory changes one answer. -/
theorem kind?_put {e new : Entry} {dir other : Location} {name : String}
    (hd : e.kind? dir = some .directory) (hn : e.kind? (dir ++ [name]) ≠ some .directory)
    (hnew : new.entries = []) :
    (e.put (dir ++ [name]) new).kind? other =
      if dir ++ [name] = other then some new.kind else e.kind? other := by
  induction dir generalizing e other with
  | nil =>
    have hk : e.kind = .directory := by simpa [kind?, get?] using hd
    cases other with
    | nil => simp [put, kind?, get?, hk]
    | cons o rest =>
      simp only [List.nil_append, put, kind?, get?, child?_place]
      by_cases ho : name = o
      · subst ho
        cases rest with
        | nil => simp [get?]
        | cons r rest =>
          -- below a leaf there is nothing, neither before nor after
          rw [if_pos rfl]
          simp only [get?_cons_of_entries_eq_nil hnew]
          cases hc : e.child? name with
          | none => simp
          | some inner =>
            have hi : inner.kind ≠ .directory := by
              simpa [kind?, get?, hc] using hn
            simp [get?_cons_of_entries_eq_nil (entries_eq_nil_of_kind hi)]
      · simp [ho]
  | cons d ds ih =>
    cases hc : e.child? d with
    | none => simp [kind?, get?, hc] at hd
    | some inner =>
      have hk : e.kind = .directory := kind_eq_directory_of_child? hc
      cases other with
      | nil => simp [put, kind?, get?, hk]
      | cons o rest =>
        have ih := @ih inner rest (by simpa [kind?, get?, hc] using hd)
          (by simpa [kind?, get?, hc] using hn)
        by_cases ho : d = o
        · subst ho
          simpa [put, kind?, get?, child?_place, hc] using ih
        · simp [put, kind?, get?, child?_place, ho]

end Entry

end Presynth
