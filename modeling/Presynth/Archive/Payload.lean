import Presynth.Archive.Binary
import Presynth.Netlist.Basic
/-!
# The two halves of a netlist in bytes

Fanout lists and registry are written as lists of entries in name order. In reading, a later entry
of the same name counts, so any order is accepted.
-/

namespace Presynth

/-- Numbers with a form of 64 bits that tells all of them apart. -/
class BitPattern (α : Type) where
  toBits : α → UInt64
  ofBits : UInt64 → α

instance : BitPattern Float := ⟨Float.toBits, Float.ofBits⟩

instance : BitPattern UInt64 := ⟨id, id⟩

namespace Archive

variable {α : Type} [BitPattern α]

/-- The eight bytes of a number. -/
def writeNumber (x : α) : Bytes := littleEndian 8 (BitPattern.toBits x).toNat

/-- Reads a number of eight bytes. -/
def readNumber : Reader α := fun bytes => do
  let (n, rest) ← takeLittleEndian 8 bytes
  return (BitPattern.ofBits (UInt64.ofNat n), rest)

/-- A width of 32 bits. -/
def writeWidth (w : UInt32) : Bytes := writeLength w.toNat

/-- Reads a width. -/
def readWidth : Reader UInt32 := fun bytes => do
  let (n, rest) ← readWord32 bytes
  return (UInt32.ofNat n, rest)

/-- The position of a kind among all kinds. -/
def writeKind (kind : NodeKind) : Bytes := writeLength (NodeKind.all.idxOf kind)

/-- Reads the position of a kind. -/
def readKind : Reader NodeKind := fun bytes => do
  let (n, rest) ← readWord32 bytes
  let kind ← NodeKind.all[n]?
  return (kind, rest)

/-- The fields of a node in order. -/
def writeNode (node : Node α) : Bytes :=
  writeText node.name ++ writeKind node.kind ++ writeOption writeWidth node.width ++
    writeOption writeText node.father ++ writeOption writeNumber node.delay ++
    writeOption writeNumber node.toggleRate ++ writeNumber node.steadyProbability

/-- Reads the fields of a node. -/
def readNode : Reader (Node α) := fun bytes => do
  let (name, rest) ← readText bytes
  let (kind, rest) ← readKind rest
  let (width, rest) ← readOption readWidth rest
  let (father, rest) ← readOption readText rest
  let (delay, rest) ← readOption readNumber rest
  let (toggleRate, rest) ← readOption readNumber rest
  let (steadyProbability, rest) ← readNumber rest
  return (⟨name, kind, width, father, delay, toggleRate, steadyProbability⟩, rest)

/-- A name and its value. -/
def writeEntry {β : Type} (write : β → Bytes) (entry : String × β) : Bytes :=
  writeText entry.1 ++ write entry.2

/-- Reads a name and its value. -/
def readEntry {β : Type} (read : Reader β) : Reader (String × β) := fun bytes => do
  let (name, rest) ← readText bytes
  let (value, rest) ← read rest
  return ((name, value), rest)

/-- The entries of a map in name order. -/
def writeMap {β : Type} (write : β → Bytes) (m : NameMap β) : Bytes :=
  writeList (writeEntry write) m.toList

/-- Reads the entries of a map. -/
def readMap {β : Type} (read : Reader β) : Reader (NameMap β) := fun bytes => do
  let (entries, rest) ← readList (readEntry read) bytes
  return (NameMap.ofList entries, rest)

/-- The fanout lists of a netlist. -/
def writeFanout (fanout : NameMap (List String)) : Bytes := writeMap (writeList writeText) fanout

/-- Reads fanout lists. -/
def readFanout : Reader (NameMap (List String)) := readMap (readList readText)

/-- The registry of a netlist. -/
def writeRegistry (registry : NameMap (Node α)) : Bytes := writeMap writeNode registry

/-- Reads a registry. -/
def readRegistry : Reader (NameMap (Node α)) := readMap readNode

end Archive

end Presynth
