import Presynth.Archive.Binary
import Presynth.Digest.Basic
/-!
# Sealed files

Each half of a netlist is a file of its own: the length of a header in four bytes, the header, and
the payload. The header says what kind of payload follows and carries its digest. A file that fails
any check is refused as a whole, and the first failed check is reported.
-/

namespace Presynth.Archive

/-- Which half of a netlist a file holds. -/
inductive PayloadKind where
  | Adjacency
  | Registry
  deriving DecidableEq, Repr

/-- The name of a half. -/
def PayloadKind.name : PayloadKind → String
  | Adjacency => "Adjacency"
  | Registry => "Registry"

/-- What a header says. -/
structure Header where
  magic : Bytes
  version : Nat
  kind : PayloadKind
  digest : Digest
  deriving DecidableEq, Repr

/-- The four bytes that such files are known by. -/
def magic : Bytes := [0x50, 0x50, 0x41, 0x47]

/-- The version of the form of these files. -/
def formatVersion : Nat := 1

/-- Why a file is refused. -/
inductive Defect where
  | noHeaderLength
  | truncatedHeader
  | undecodableHeader
  | badMagic
  | otherVersion (version : Nat)
  | otherKind (found expected : PayloadKind)
  | digestMismatch
  | undecodablePayload
  deriving DecidableEq, Repr

/-- The report of a defect. -/
def Defect.reason : Defect → String
  | noHeaderLength => "file too short for header length"
  | truncatedHeader => "truncated header"
  | undecodableHeader => "undecodable header"
  | badMagic => "bad magic"
  | otherVersion version =>
    "format version " ++ toString version ++ " (expected " ++ toString formatVersion ++ ")"
  | otherKind found expected => "holds " ++ found.name ++ " data, expected " ++ expected.name
  | digestMismatch => "checksum mismatch"
  | undecodablePayload => "undecodable payload"

/-! ### Headers -/

/-- The number of a half. -/
def writePayloadKind : PayloadKind → Bytes
  | .Adjacency => writeLength 0
  | .Registry => writeLength 1

/-- Reads the number of a half. -/
def readPayloadKind : Reader PayloadKind := fun bytes =>
  match readWord32 bytes with
  | some (0, rest) => some (.Adjacency, rest)
  | some (1, rest) => some (.Registry, rest)
  | _ => none

/-- The fields of a header in order. -/
def writeHeader (h : Header) : Bytes :=
  h.magic ++ writeLength h.version ++ writePayloadKind h.kind ++ h.digest.bytes.toList

/-- A digest of exactly sixteen bytes. -/
def digestOfBytes? (bytes : Bytes) : Option Digest :=
  if h : bytes.length = 16 then some ⟨⟨bytes.toArray, by simpa using h⟩⟩ else none

/-- Reads the fields of a header. -/
def readHeader : Reader Header := fun bytes => do
  let (magic, rest) ← takeBytes 4 bytes
  let (version, rest) ← readWord32 rest
  let (kind, rest) ← readPayloadKind rest
  let (found, rest) ← takeBytes 16 rest
  let digest ← digestOfBytes? found
  return (⟨magic, version, kind, digest⟩, rest)

/-! ### Files -/

/-- The file of a payload. -/
def sealed (kind : PayloadKind) (payload : Bytes) : Bytes :=
  let header := writeHeader ⟨magic, formatVersion, kind, Digest.ofBytes payload⟩
  littleEndian 4 header.length ++ header ++ payload

/-- Checks what a header says about a payload. -/
def checkHeader (kind : PayloadKind) (h : Header) (payload : Bytes) : Except Defect Unit :=
  if h.magic ≠ magic then .error .badMagic
  else if h.version ≠ formatVersion then .error (.otherVersion h.version)
  else if h.kind ≠ kind then .error (.otherKind h.kind kind)
  else if Digest.ofBytes payload ≠ h.digest then .error .digestMismatch
  else .ok ()

/-- The payload of a file, if its header is in order. Bytes of the header beyond its fields are
ignored. -/
def payloadOf (kind : PayloadKind) (file : Bytes) : Except Defect Bytes :=
  match takeLittleEndian 4 file with
  | none => .error .noHeaderLength
  | some (n, rest) =>
    match takeBytes n rest with
    | none => .error .truncatedHeader
    | some (header, payload) =>
      match readHeader header with
      | none => .error .undecodableHeader
      -- the digest is that of all the payload, also of bytes that no value claims
      | some (h, _) => (checkHeader kind h payload).map fun _ => payload

/-- The value in a file. Bytes after the value are ignored. -/
def contentOf {β : Type} (kind : PayloadKind) (read : Reader β) (file : Bytes) : Except Defect β :=
  match payloadOf kind file with
  | .error d => .error d
  | .ok payload =>
    match read payload with
    | none => .error .undecodablePayload
    | some (x, _) => .ok x

end Presynth.Archive
