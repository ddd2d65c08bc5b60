import Presynth.Proofs.Archive.Stored
/-!
# Damaged files are refused

A stored netlist of which one file was cut short, at any byte, or overwritten by the other file is
not read: its defect is reported, with the path of the file. A digest that happens to be right does
not help, since no value can be read from a beginning of its bytes.

Main statements: `contentOf_damaged` and `readNetlist_damaged`.
-/

namespace Presynth.Archive

variable {α : Type} [BitPattern α]

/-- `bad` is a proper beginning of a file, down to nothing, or the other file. -/
def IsDamage (file other bad : Bytes) : Prop := (bad <+: file ∧ bad ≠ file) ∨ bad = other

/-- A sealed file that was damaged has no content. -/
theorem contentOf_damaged {β : Type} {write : β → Bytes} {read : Reader β}
    (h : IsCodec write read) {kind other : PayloadKind} (hne : other ≠ kind) {x : β}
    (hx : (write x).length < 2 ^ 64) {payload bad : Bytes}
    (hbad : IsDamage (sealed kind (write x)) (sealed other payload) bad) :
    ∃ defect, contentOf kind read bad = .error defect := by
  rcases hbad with ⟨⟨more, hcut⟩, hproper⟩ | rfl
  · refine contentOf_cut h kind hx hcut.symm fun hmore => hproper ?_
    rw [← hcut, hmore, List.append_nil]
  · exact ⟨_, contentOf_sealed_of_ne read hne payload⟩

section Stored

variable {stored : FileTree} {dir : Path} {key : DesignKey} {g : Netlist α}

/-- The fanout lists can be overwritten with anything, and it is then read in their place. -/
theorem IsStored.exists_write_adjacency (h : IsStored stored dir key g) (bad : Bytes) :
    ∃ damaged, stored.write (adjacencyPath dir key) bad = .ok damaged ∧
      damaged.read (adjacencyPath dir key) = .ok bad := by
  obtain ⟨damaged, hwrite⟩ :=
    FileTree.exists_write (endsIn_adjacencyPath dir key).partsBeforeSlash_eq h.adjacency bad
  exact ⟨damaged, hwrite, FileTree.read_write hwrite⟩

/-- Overwriting the registry leaves the fanout lists as they are. -/
theorem IsStored.exists_write_registry (h : IsStored stored dir key g) (bad : Bytes) :
    ∃ damaged, stored.write (registryPath dir key) bad = .ok damaged ∧
      damaged.read (registryPath dir key) = .ok bad ∧
      damaged.read (adjacencyPath dir key) =
        .ok (sealed .Adjacency (writeFanout g.fanout)) := by
  obtain ⟨damaged, hwrite⟩ :=
    FileTree.exists_write (endsIn_registryPath dir key).partsBeforeSlash_eq h.registry bad
  exact ⟨damaged, hwrite, FileTree.read_write hwrite,
    FileTree.read_write_of_ne hwrite (fun c d hc hd => (location_ne hd hc).symm) h.adjacency⟩

end Stored

/-- Cut short anywhere or overwritten by the other one, each of the two files of a stored netlist is
refused, and the netlist with it. -/
theorem readNetlist_damaged [LawfulBitPattern α] {files stored : FileTree} {dir : Path}
    {key : DesignKey} {g : Netlist α} (ok : writeNetlist files dir key g = (.ok (), stored)) :
    ∃ adjacency registry, stored.read (adjacencyPath dir key) = .ok adjacency ∧
      stored.read (registryPath dir key) = .ok registry ∧
      (∀ bad, IsDamage adjacency registry bad →
        ∃ damaged defect, stored.write (adjacencyPath dir key) bad = .ok damaged ∧
          readNetlist (α := α) damaged dir key =
            .error (.defective (adjacencyPath dir key) defect)) ∧
      ∀ bad, IsDamage registry adjacency bad →
        ∃ damaged defect, stored.write (registryPath dir key) bad = .ok damaged ∧
          readRegistryFile (α := α) damaged dir key =
            .error (.defective (registryPath dir key) defect) ∧
          readNetlist (α := α) damaged dir key =
            .error (.defective (registryPath dir key) defect) := by
  have h := isStored_of_writeNetlist ok
  refine ⟨_, _, h.adjacency, h.registry, fun bad hbad => ?_, fun bad hbad => ?_⟩
  · obtain ⟨damaged, hwrite, hread⟩ := h.exists_write_adjacency bad
    obtain ⟨defect, hdefect⟩ := contentOf_damaged isCodec_fanout (by decide) h.adjacency_lt hbad
    refine ⟨damaged, defect, hwrite, ?_⟩
    rw [readNetlist, readFile_of_defect hread hdefect]
    rfl
  · obtain ⟨damaged, hwrite, hread, hother⟩ := h.exists_write_registry bad
    obtain ⟨defect, hdefect⟩ :=
      contentOf_damaged (isCodec_registry (α := α)) (by decide) h.registry_lt hbad
    have hregistry : readRegistryFile (α := α) damaged dir key =
        .error (.defective (registryPath dir key) defect) := readFile_of_defect hread hdefect
    refine ⟨damaged, defect, hwrite, hregistry, ?_⟩
    -- the fanout lists are read first and are whole, so the netlist fails on the registry
    rw [readNetlist, readFile_of_content hother (contentOf_sealed isCodec_fanout _ h.adjacency_lt),
      hregistry]
    rfl

/-- A registry that was emptied: the shortest of all beginnings. -/
theorem readNetlist_damaged_emptied :
    ∃ stored, writeNetlist .empty (.ofText "out") ⟨"fifo", "sog"⟩ oddments = (.ok (), stored) ∧
      ∃ damaged defect,
        stored.write (registryPath (.ofText "out") ⟨"fifo", "sog"⟩) [] = .ok damaged ∧
        readNetlist (α := UInt64) damaged (.ofText "out") ⟨"fifo", "sog"⟩ =
          .error (.defective (registryPath (.ofText "out") ⟨"fifo", "sog"⟩) defect) := by
  have ok : (writeNetlist .empty (.ofText "out") ⟨"fifo", "sog"⟩ oddments).1 = .ok () := by
    unfold writeNetlist
    rw [FileTree.makeDirectory]
    decide +kernel
  obtain ⟨adjacency, registry, -, hregistry, -, hrefused⟩ :=
    readNetlist_damaged (Prod.ext ok rfl)
  have hread := (isStored_of_writeNetlist (Prod.ext ok rfl)).registry
  obtain rfl : sealed _ _ = registry := Except.ok.inj (hread.symm.trans hregistry)
  obtain ⟨damaged, defect, hwrite, -, herror⟩ :=
    hrefused [] (.inl ⟨List.nil_prefix, (List.cons_ne_nil _ _).symm⟩)
  exact ⟨_, Prod.ext ok rfl, damaged, defect, hwrite, herror⟩

end Presynth.Archive
