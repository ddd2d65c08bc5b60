import Presynth.Archive.Store
import Presynth.Proofs.Archive.Format
import Presynth.Proofs.Archive.Seal
import Presynth.Proofs.Storage.SideBySide
/-!
# Stored netlists are read back

The two files of a netlist have different names, whatever the design and the directory are called,
so that writing one leaves the other as it is. Each is in the form that is described for it, and
reading gives the netlist back.

Main statements: `location_ne`, `isStored_of_writeNetlist` and `readNetlist_writeNetlist`.
-/

namespace Presynth.Archive

variable {α : Type} [BitPattern α]

/-! ### Names of the files -/

/-- The file of the fanout lists has a name of its own. -/
theorem endsIn_adjacencyPath (dir : Path) (key : DesignKey) :
    (adjacencyPath dir key).EndsIn ".graph.bin".toList :=
  dir.endsIn_below String.toList_append (by decide) (by decide)

/-- So has the file of the registry. -/
theorem endsIn_registryPath (dir : Path) (key : DesignKey) :
    (registryPath dir key).EndsIn "_node_dict.bin".toList :=
  dir.endsIn_below String.toList_append (by decide) (by decide)

/-- The two files are never one. -/
theorem location_ne {t : FileTree} {dir : Path} {key : DesignKey} {c d : Cursor}
    (hc : t.locate (adjacencyPath dir key) = .ok c)
    (hd : t.locate (registryPath dir key) = .ok d) : c.location ≠ d.location :=
  (endsIn_adjacencyPath dir key).location_ne (endsIn_registryPath dir key) (by decide) (by decide)
    hc hd

/-! ### What storing leaves -/

/-- The two files of a netlist stand where they belong, and all lengths in them fit. -/
structure IsStored (files : FileTree) (dir : Path) (key : DesignKey) (g : Netlist α) : Prop where
  adjacency : files.read (adjacencyPath dir key) = .ok (sealed .Adjacency (writeFanout g.fanout))
  registry : files.read (registryPath dir key) = .ok (sealed .Registry (writeRegistry g.registry))
  adjacency_lt : (writeFanout g.fanout).length < 2 ^ 64
  registry_lt : (writeRegistry g.registry).length < 2 ^ 64

/-- A file that was stored is there as a whole. -/
theorem of_writeFile_eq_ok {files files' : FileTree} {path : Path} {kind : PayloadKind}
    {payload : Bytes} (h : writeFile files path kind payload = (.ok (), files')) :
    payload.length < 2 ^ 64 ∧ files.write path (sealed kind payload) = .ok files' := by
  unfold writeFile at h
  split at h
  · rename_i hlen
    refine ⟨hlen, ?_⟩
    split at h
    · cases h
    · rename_i hsave
      cases h
      exact FileTree.write_of_save hsave
  · cases h

/-- The steps of storing a netlist, where none of them fails. -/
theorem writeNetlist_eq_ok_iff {files stored : FileTree} {dir : Path} {key : DesignKey}
    {g : Netlist α} : writeNetlist files dir key g = (.ok (), stored) ↔
      ∃ made between, files.makeDirectory dir = (.ok (), made) ∧
        writeFile made (adjacencyPath dir key) .Adjacency (writeFanout g.fanout) =
          (.ok (), between) ∧
        writeFile between (registryPath dir key) .Registry (writeRegistry g.registry) =
          (.ok (), stored) := by
  unfold writeNetlist
  constructor
  · intro ok
    split at ok
    · cases ok
    · rename_i made hmake
      split at ok
      · cases ok
      · rename_i between hadjacency
        exact ⟨made, between, hmake, hadjacency, ok⟩
  · rintro ⟨made, between, hmake, hadjacency, hregistry⟩
    simp only [hmake, hadjacency, hregistry]

/-- Storing the registry leaves the fanout lists in their file. -/
theorem isStored_of_writeNetlist {files stored : FileTree} {dir : Path} {key : DesignKey}
    {g : Netlist α} (ok : writeNetlist files dir key g = (.ok (), stored)) :
    IsStored stored dir key g := by
  obtain ⟨made, between, -, hadjacency, hregistry⟩ := writeNetlist_eq_ok_iff.mp ok
  obtain ⟨hlen, hwrite⟩ := of_writeFile_eq_ok hadjacency
  obtain ⟨hlen', hwrite'⟩ := of_writeFile_eq_ok hregistry
  -- the registry is written last, so it is there as it was written
  refine ⟨?_, FileTree.read_write hwrite', hlen, hlen'⟩
  exact FileTree.read_write_of_ne hwrite' (fun c d hc hd => (location_ne hd hc).symm)
    (FileTree.read_write hwrite)

theorem readFile_of_content {β : Type} {files : FileTree} {path : Path} {kind : PayloadKind}
    {read : Reader β} {file : Bytes} {x : β} (h : files.read path = .ok file)
    (hx : contentOf kind read file = .ok x) : readFile files path kind read = .ok x := by
  unfold readFile
  rw [h]
  dsimp only
  rw [hx]

/-- A file with a defect is refused with that defect. -/
theorem readFile_of_defect {β : Type} {files : FileTree} {path : Path} {kind : PayloadKind}
    {read : Reader β} {file : Bytes} {defect : Defect} (h : files.read path = .ok file)
    (hd : contentOf kind read file = .error defect) :
    readFile files path kind read = .error (.defective path defect) := by
  unfold readFile
  rw [h]
  dsimp only
  rw [hd]

theorem IsStored.readFile_adjacency {files : FileTree} {dir : Path} {key : DesignKey}
    {g : Netlist α} (h : IsStored files dir key g) :
    readFile files (adjacencyPath dir key) .Adjacency readFanout = .ok g.fanout :=
  readFile_of_content h.adjacency (contentOf_sealed isCodec_fanout _ h.adjacency_lt)

theorem IsStored.readRegistryFile [LawfulBitPattern α] {files : FileTree} {dir : Path}
    {key : DesignKey} {g : Netlist α} (h : IsStored files dir key g) :
    readRegistryFile files dir key = .ok g.registry :=
  readFile_of_content h.registry (contentOf_sealed isCodec_registry _ h.registry_lt)

theorem IsStored.readNetlist [LawfulBitPattern α] {files : FileTree} {dir : Path}
    {key : DesignKey} {g : Netlist α} (h : IsStored files dir key g) :
    readNetlist files dir key = .ok g := by
  rw [Archive.readNetlist, h.readFile_adjacency, h.readRegistryFile]
  rfl

/-! ### The form of a file -/

/-- A file of a datum: the length of the header in four bytes, the header with the digest of the
payload, and the datum as the payload. -/
def IsFileOf (kind : PayloadKind) (datum : Datum) (file : Bytes) : Prop :=
  ∃ size header payload, file = size ++ header ++ payload ∧
    IsLittleEndian 4 header.length size ∧
    Encodes (headerDatum ⟨magic, formatVersion, kind, Digest.ofBytes payload⟩) header ∧
    Encodes datum payload

/-- Sealing puts a header with the right digest in front of the payload, and the length of the
header in front of both. -/
theorem isFileOf_sealed {kind : PayloadKind} {datum : Datum} {payload : Bytes}
    (h : Encodes datum payload) : IsFileOf kind datum (sealed kind payload) := by
  have hlen := length_writeHeader kind payload
  refine ⟨_, _, payload, rfl, isLittleEndian_littleEndian ?_, encodes_header ?_, h⟩
  · change (writeHeader (headerOf kind payload)).length < 256 ^ 4
    rw [hlen]
    decide
  · change 1 < 2 ^ 32
    decide

/-- A netlist that was stored is read back as it was, with every name, number and repetition, and so
is its registry alone. Numbers are compared by their bits. The files are in the described form. -/
theorem readNetlist_writeNetlist [LawfulBitPattern α] {files stored : FileTree} {dir : Path}
    {key : DesignKey} {g : Netlist α} (ok : writeNetlist files dir key g = (.ok (), stored)) :
    readNetlist stored dir key = .ok g ∧ readRegistryFile stored dir key = .ok g.registry ∧
      (∃ file, stored.read (adjacencyPath dir key) = .ok file ∧
        IsFileOf .Adjacency (fanoutDatum g.fanout) file) ∧
      ∃ file, stored.read (registryPath dir key) = .ok file ∧
        IsFileOf .Registry (registryDatum g.registry) file := by
  have h := isStored_of_writeNetlist ok
  exact ⟨h.readNetlist, h.readRegistryFile,
    ⟨_, h.adjacency, isFileOf_sealed (hasForm_fanout _ h.adjacency_lt)⟩,
    _, h.registry, isFileOf_sealed (hasForm_registry _ h.registry_lt)⟩

/-- Numbers that no arithmetic yields, names in many scripts, a node under the name of another,
repeated edges, and a width of more than one byte. -/
def oddments : Netlist UInt64 where
  registry := .ofList
    [("", ⟨"λ", .Reg, none, some "", some 0x7ff0000000000001, none, 0x8000000000000000⟩),
      ("λ", ⟨"λ", .Pointer, some 251, none, none, some 0xffffffffffffffff, 0⟩)]
  fanout := .ofList [("λ", ["𝄞", "λ", "𝄞"]), ("x", [])]

/-- A design with a slash in its name, stored where there was nothing. -/
theorem readNetlist_writeNetlist_oddments :
    ∃ stored, writeNetlist .empty (.ofText "out") ⟨"./é", "sog"⟩ oddments = (.ok (), stored) ∧
      readNetlist stored (.ofText "out") ⟨"./é", "sog"⟩ = .ok oddments ∧
      readRegistryFile stored (.ofText "out") ⟨"./é", "sog"⟩ = .ok oddments.registry := by
  have ok : (writeNetlist .empty (.ofText "out") ⟨"./é", "sog"⟩ oddments).1 = .ok () := by
    unfold writeNetlist
    rw [FileTree.makeDirectory]
    decide +kernel
  obtain ⟨hnetlist, hregistry, -⟩ := readNetlist_writeNetlist (Prod.ext ok rfl)
  exact ⟨_, Prod.ext ok rfl, hnetlist, hregistry⟩

end Presynth.Archive
