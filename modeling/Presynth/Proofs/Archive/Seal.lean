import Presynth.Archive.Container
import Presynth.Proofs.Archive.Codec
/-!
# What sealed files hold

A sealed file gives its content back. A file of the other half is refused by its header, and a
beginning of a sealed file by whatever is missing: even where the header and its digest are in
order, no value can be read from a beginning of what was written. So nothing is assumed about
digests.

Main statements: `contentOf_sealed`, `contentOf_sealed_of_ne` and `contentOf_cut`.
-/

namespace Presynth.Archive

variable {β : Type}

/-! ### Headers -/

theorem isCodec_payloadKind : IsCodec writePayloadKind readPayloadKind where
  length_pos kind := by cases kind <;> exact length_writeLength_pos _
  read_write kind rest _ := by cases kind <;> rfl
  stable := by
    intro bytes kind rest h more
    unfold readPayloadKind at h ⊢
    split at h
    · rename_i rest' hread
      cases h
      simp only [stable_readWord32 hread]
    · rename_i rest' hread
      cases h
      simp only [stable_readWord32 hread]
    · cases h

theorem digestOfBytes?_toList (d : Digest) : digestOfBytes? d.bytes.toList = some d := by
  rw [digestOfBytes?, dif_pos (Vector.length_toList ..)]
  rfl

/-- A header is read back, whatever follows. -/
theorem readHeader_writeHeader {h : Header} (hmagic : h.magic.length = 4)
    (hversion : h.version < 2 ^ 32) (rest : Bytes) :
    readHeader (writeHeader h ++ rest) = some (h, rest) := by
  obtain ⟨magic, version, kind, digest⟩ := h
  have hdigest : digest.bytes.toList.length = 16 := Vector.length_toList ..
  have hkind : (writePayloadKind kind).length < 2 ^ 64 := by cases kind <;> decide
  simp only [writeHeader, readHeader, List.append_assoc, Option.bind_eq_bind]
  rw [takeBytes_append hmagic, Option.bind_some, readWord32_writeLength _ hversion,
    Option.bind_some, isCodec_payloadKind.read_write _ _ hkind, Option.bind_some,
    takeBytes_append hdigest, Option.bind_some, digestOfBytes?_toList]
  rfl

/-- The header of a sealed payload. -/
def headerOf (kind : PayloadKind) (payload : Bytes) : Header :=
  ⟨magic, formatVersion, kind, Digest.ofBytes payload⟩

/-- A header has the same length for every payload; this is the length that stands in front of it.
-/
theorem length_writeHeader (kind : PayloadKind) (payload : Bytes) :
    (writeHeader (headerOf kind payload)).length = 22 := by
  have hdigest : (Digest.ofBytes payload).bytes.toList.length = 16 := Vector.length_toList ..
  have hkind : (writePayloadKind kind).length = 1 := by cases kind <;> rfl
  simp only [writeHeader, headerOf, List.length_append, hdigest, hkind]
  rfl

/-! ### Files -/

/-- A sealed file falls into its parts. -/
theorem parts_sealed (kind : PayloadKind) (payload : Bytes) :
    takeLittleEndian 4 (sealed kind payload) =
        some (22, writeHeader (headerOf kind payload) ++ payload) ∧
      takeBytes 22 (writeHeader (headerOf kind payload) ++ payload) =
        some (writeHeader (headerOf kind payload), payload) ∧
      readHeader (writeHeader (headerOf kind payload)) = some (headerOf kind payload, []) := by
  have hlen := length_writeHeader kind payload
  refine ⟨?_, ?_, ?_⟩
  · change takeLittleEndian 4 (littleEndian 4 (writeHeader (headerOf kind payload)).length ++
      writeHeader (headerOf kind payload) ++ payload) = _
    rw [hlen, List.append_assoc]
    exact takeLittleEndian_append 4 22 (by decide) _
  · exact takeBytes_append hlen _
  · have hversion : (headerOf kind payload).version < 2 ^ 32 := by
      change 1 < 2 ^ 32
      decide
    have hread := readHeader_writeHeader rfl hversion []
    rwa [List.append_nil] at hread

/-- A sealed payload is found again where its kind is expected, and nowhere else. -/
theorem payloadOf_sealed (expected kind : PayloadKind) (payload : Bytes) :
    payloadOf expected (sealed kind payload) =
      if kind = expected then .ok payload else .error (.otherKind kind expected) := by
  obtain ⟨hlen, hheader, hread⟩ := parts_sealed kind payload
  have hcheck : checkHeader expected (headerOf kind payload) payload =
      if kind = expected then .ok () else .error (.otherKind kind expected) := by
    unfold checkHeader headerOf
    simp
  unfold payloadOf
  simp only [hlen, hheader, hread, hcheck]
  split <;> rfl

theorem contentOf_sealed {write : β → Bytes} {read : Reader β} (h : IsCodec write read)
    (kind : PayloadKind) {x : β} (hx : (write x).length < 2 ^ 64) :
    contentOf kind read (sealed kind (write x)) = .ok x := by
  have hread := h.read_write x [] hx
  rw [List.append_nil] at hread
  unfold contentOf
  simp only [payloadOf_sealed, if_pos, hread]

/-- A file of the other half is refused. -/
theorem contentOf_sealed_of_ne (read : Reader β) {expected kind : PayloadKind}
    (h : kind ≠ expected) (payload : Bytes) :
    contentOf expected read (sealed kind payload) = .error (.otherKind kind expected) := by
  unfold contentOf
  rw [payloadOf_sealed, if_neg h]

/-- Where a payload was found, a header stands before it. -/
theorem exists_of_payloadOf_eq_ok {kind : PayloadKind} {file payload : Bytes}
    (h : payloadOf kind file = .ok payload) :
    ∃ n rest header, takeLittleEndian 4 file = some (n, rest) ∧
      takeBytes n rest = some (header, payload) := by
  unfold payloadOf at h
  split at h
  · cases h
  · rename_i n rest hlen
    split at h
    · cases h
    · rename_i header found hheader
      split at h
      · cases h
      · rename_i hd _ _
        cases hcheck : checkHeader kind hd found with
        | error d => simp [hcheck, Except.map] at h
        | ok _ =>
            rw [hcheck] at h
            obtain rfl : found = payload := Except.ok.inj h
            exact ⟨n, rest, header, hlen, hheader⟩

/-- A proper beginning of a sealed file has no content, whatever its digest. -/
theorem contentOf_cut {write : β → Bytes} {read : Reader β} (h : IsCodec write read)
    (kind : PayloadKind) {x : β} (hx : (write x).length < 2 ^ 64) {bytes more : Bytes}
    (hcut : sealed kind (write x) = bytes ++ more) (hmore : more ≠ []) :
    ∃ defect, contentOf kind read bytes = .error defect := by
  unfold contentOf
  cases hpayload : payloadOf kind bytes with
  | error d => exact ⟨d, rfl⟩
  | ok payload =>
      -- the payload found is a beginning of the one written
      obtain ⟨n, rest, header, hlen, hheader⟩ := exists_of_payloadOf_eq_ok hpayload
      obtain ⟨hlen', hheader', -⟩ := parts_sealed kind (write x)
      rw [hcut, stable_takeLittleEndian 4 hlen more] at hlen'
      obtain ⟨rfl, hrest⟩ := Prod.mk.inj (Option.some.inj hlen')
      rw [← hrest, stable_takeBytes 22 hheader more] at hheader'
      have hwrite : payload ++ more = write x := congrArg Prod.snd (Option.some.inj hheader')
      dsimp only
      rw [h.read_eq_none_of_append hx hwrite.symm hmore]
      exact ⟨_, rfl⟩

end Presynth.Archive
