/-!
# Binary forms

A value is written as bytes that tell where it ends, so that written values can follow each other.
Reading returns the value and the bytes after it. Numbers take one byte if they are small, and else
a marker and two, four or eight bytes, the low one first; texts and lists begin with their length.
-/

namespace Presynth.Archive

/-- A string of bytes. -/
abbrev Bytes := List UInt8

/-- Reads a value off the front of a byte string. -/
abbrev Reader (β : Type) := Bytes → Option (β × Bytes)

/-! ### Numbers -/

/-- The `k` low bytes of a number, the lowest first. -/
def littleEndian : Nat → Nat → Bytes
  | 0, _ => []
  | k + 1, n => UInt8.ofNat (n % 256) :: littleEndian k (n / 256)

/-- Reads a number of `k` bytes. -/
def takeLittleEndian : Nat → Reader Nat
  | 0, bytes => some (0, bytes)
  | _ + 1, [] => none
  | k + 1, b :: bytes => do
    let (n, rest) ← takeLittleEndian k bytes
    return (b.toNat + 256 * n, rest)

@[simp] theorem length_littleEndian (k n : Nat) : (littleEndian k n).length = k := by
  induction k generalizing n with
  | zero => rfl
  | succ k ih => simp [littleEndian, ih]

/-- The forms of a number, by size: below 251 a byte, below `2 ^ 16`, `2 ^ 32` and `2 ^ 64` a marker
and as many bytes as that takes. -/
def writeLength (n : Nat) : Bytes :=
  if n < 251 then [UInt8.ofNat n]
  else if n < 1 <<< 16 then 251 :: littleEndian 2 n
  else if n < 1 <<< 32 then 252 :: littleEndian 4 n
  else 253 :: littleEndian 8 n

/-- Reads a number in any form, also a longer one than it needs. -/
def readLength : Reader Nat
  | [] => none
  | b :: rest =>
    if b < 251 then some (b.toNat, rest)
    else if b = 251 then takeLittleEndian 2 rest
    else if b = 252 then takeLittleEndian 4 rest
    else if b = 253 then takeLittleEndian 8 rest
    else none

/-- Reads a number of 32 bits; the form for 64 bits is refused whatever it holds. -/
def readWord32 : Reader Nat
  | [] => none
  | b :: rest => if b = 253 then none else readLength (b :: rest)

/-! ### Bytes, texts, lists and options -/

/-- Reads `k` bytes. -/
def takeBytes (k : Nat) : Reader Bytes := fun bytes =>
  let found := bytes.take k
  if found.length < k then none else some (found, bytes.drop k)

/-- The bytes of a text. -/
def utf8 (text : String) : Bytes := text.toUTF8.data.toList

/-- The text of bytes, if they are one. -/
def ofUtf8? (bytes : Bytes) : Option String := String.fromUTF8? ⟨bytes.toArray⟩

/-- The number of its bytes, then a text. -/
def writeText (text : String) : Bytes := writeLength (utf8 text).length ++ utf8 text

/-- Reads a text. -/
def readText : Reader String := fun bytes => do
  let (n, rest) ← readLength bytes
  let (found, rest) ← takeBytes n rest
  let text ← ofUtf8? found
  return (text, rest)

/-- The number of its items, then a list. -/
def writeList {β : Type} (write : β → Bytes) (items : List β) : Bytes :=
  writeLength items.length ++ items.flatMap write

/-- Reads as many items as are announced. -/
def readItems {β : Type} (read : Reader β) : Nat → Reader (List β)
  | 0, bytes => some ([], bytes)
  | k + 1, bytes => do
    let (item, rest) ← read bytes
    let (items, rest) ← readItems read k rest
    return (item :: items, rest)

/-- Reads a list. -/
def readList {β : Type} (read : Reader β) : Reader (List β) := fun bytes => do
  let (n, rest) ← readLength bytes
  readItems read n rest

/-- A zero for nothing, else a one and the value. -/
def writeOption {β : Type} (write : β → Bytes) : Option β → Bytes
  | none => [0]
  | some x => 1 :: write x

/-- Reads a value that may be absent. -/
def readOption {β : Type} (read : Reader β) : Reader (Option β)
  | [] => none
  | b :: rest =>
    if b = 0 then some (none, rest)
    else if b = 1 then do
      let (x, rest) ← read rest
      return (some x, rest)
    else none

end Presynth.Archive
