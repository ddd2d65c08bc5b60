/-!
# Paths

A path is kept as it is written, because reports show it so: empty parts and single dots stay,
although they lead nowhere else. What a path leads to is for a file tree to say.

Main statement: `length_parent_lt` (every path but the root is longer than its parent).
-/

namespace Presynth

/-- A path from the root of a tree, or an absolute one, which leads out of the tree. -/
structure Path where
  absolute : Bool
  /-- What is written between the slashes; nothing for the root. A slash at the end leaves an empty
  part behind it. -/
  parts : List String
  deriving DecidableEq, Repr

namespace Path

/-- The path of the root itself. -/
def root : Path := ⟨false, []⟩

/-! ### Texts -/

/-- The parts of a text between slashes. -/
def splitSlashes : List Char → List (List Char)
  | [] => [[]]
  | c :: rest =>
    if c = '/' then [] :: splitSlashes rest
    else
      match splitSlashes rest with
      | [] => [[c]]
      | part :: parts => (c :: part) :: parts

/-- The path that a text names. The empty text names the root, and a slash at the front makes a path
absolute. -/
def ofText (text : String) : Path :=
  match text.toList with
  | [] => root
  | '/' :: rest => ⟨true, (splitSlashes rest).map String.ofList⟩
  | chars => ⟨false, (splitSlashes chars).map String.ofList⟩

/-- A path as a text, with the name of the root before it unless it is absolute. -/
def shown (root : String) (path : Path) : String :=
  "/".intercalate ((if path.absolute then "" else root) :: path.parts)

/-! ### Files and directories -/

/-- Does a part of a path lead nowhere else? -/
def isIdle (part : String) : Bool := part == "" || part == "."

/-- Is a part longer than the 255 bytes that a name may have? -/
def isTooLong (part : String) : Bool := 255 < part.utf8ByteSize

/-- The bytes that a path may have below the root: 4095, of which 32 are left to the root. -/
def byteLimit : Nat := 4095 - 32

/-- Is a path longer than it may be? Every part counts with the slash before it. -/
def isOversized (path : Path) : Bool :=
  byteLimit < path.parts.foldl (fun size part => size + part.utf8ByteSize + 1) 0

/-- Does a path hold the null character? -/
def hasNull (path : Path) : Bool := path.parts.any fun part => part.toList.contains '\x00'

/-- Drops parts from the end as long as they pass a test. -/
def trimEnd (drops : String → Bool) (parts : List String) : List String :=
  (parts.reverse.dropWhile drops).reverse

/-- The parts of a path without the slashes at its end. -/
def partsBeforeSlash (path : Path) : List String := trimEnd (· == "") path.parts

/-- The path of a file below a directory. A slash at the end of the directory is not doubled, and a
slash in the name leads further down. A name that is an absolute path stands for itself. -/
def below (dir : Path) (name : String) : Path :=
  let file := ofText name
  let parts := if dir.parts.getLast? = some "" then dir.parts.dropLast else dir.parts
  if file.absolute then file else { dir with parts := parts ++ file.parts }

/-- The path of the directory that an entry is in. Idle parts are passed over on both sides of the
name that is dropped. -/
def parent (path : Path) : Path :=
  { path with parts := trimEnd isIdle (trimEnd isIdle path.parts).dropLast }

theorem length_trimEnd_le (drops : String → Bool) (parts : List String) :
    (trimEnd drops parts).length ≤ parts.length := by
  have := (List.dropWhile_sublist drops (l := parts.reverse)).length_le
  simpa [trimEnd] using this

theorem length_parent_lt {path : Path} (h : path.parts ≠ []) :
    path.parent.parts.length < path.parts.length := by
  have h₁ := length_trimEnd_le isIdle (trimEnd isIdle path.parts).dropLast
  have h₂ := length_trimEnd_le isIdle path.parts
  have h₃ := List.length_pos_iff.2 h
  rw [List.length_dropLast] at h₁
  simp only [parent]
  omega

end Path

end Presynth
