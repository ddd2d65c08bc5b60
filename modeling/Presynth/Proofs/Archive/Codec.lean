import Mathlib
import Presynth.Archive.Payload
/-!
# Reading undoes writing

What a reader takes off the front of a byte string depends on no bytes beyond it, and each reader
gives back what was written, whatever follows. Both go through lists, options and records, so they
hold of fanout lists and registries. Together they say that no written value is a beginning of
another: cut anywhere, it cannot be read.

A written value is taken to be shorter than `2 ^ 64` bytes, so that its lengths fit their forms.

Main statements: `isCodec_fanout`, `isCodec_registry` and `IsCodec.read_eq_none_of_append`.
-/

namespace Presynth

/-- Numbers that are known by their bit patterns. -/
class LawfulBitPattern (α : Type) [BitPattern α] : Prop where
  ofBits_toBits : ∀ x : α, BitPattern.ofBits (BitPattern.toBits x) = x

instance : LawfulBitPattern Float := ⟨Float.ofBits_toBits⟩

instance : LawfulBitPattern UInt64 := ⟨fun _ => rfl⟩

namespace Archive

variable {β γ : Type}

/-! ### Readers that look no further -/

/-- What is read does not depend on the bytes after it. -/
def Stable (read : Reader β) : Prop :=
  ∀ ⦃bytes : Bytes⦄ ⦃x : β⦄ ⦃rest : Bytes⦄, read bytes = some (x, rest) →
    ∀ more, read (bytes ++ more) = some (x, rest ++ more)

theorem Stable.pure (x : β) : Stable fun bytes => some (x, bytes) := by
  intro bytes y rest h more
  cases h
  rfl

theorem Stable.none : Stable fun _ => (none : Option (β × Bytes)) := by
  intro bytes y rest h more
  cases h

/-- Reading one thing after another. -/
theorem Stable.bind {read : Reader β} {next : β × Bytes → Option (γ × Bytes)} (h : Stable read)
    (hnext : ∀ x, Stable fun rest => next (x, rest)) : Stable fun bytes => read bytes >>= next := by
  intro bytes y rest hread more
  -- the second reader begins where the first one ended, and that end moves along
  obtain ⟨⟨x, rest'⟩, hx, hy⟩ := Option.bind_eq_some_iff.mp hread
  change (read (bytes ++ more)).bind next = _
  rw [h hx, Option.bind_some]
  exact hnext x hy more

/-- Looking something up in between. -/
theorem Stable.bind_option {o : Option β} {next : β → Reader γ} (hnext : ∀ x, Stable (next x)) :
    Stable fun bytes => o >>= fun x => next x bytes := by
  cases o with
  | none => exact Stable.none
  | some x => exact hnext x

/-- Reading on as the first byte says. -/
theorem Stable.of_first {read : Reader β} (hnil : read [] = Option.none)
    (hcons : ∀ b, Stable fun rest => read (b :: rest)) : Stable read := by
  intro bytes x rest hread more
  cases bytes with
  | nil => exact absurd (hnil.symm.trans hread) nofun
  | cons b bytes => exact hcons b hread more

theorem Stable.ite {p : Prop} {_ : Decidable p} {yes no : Reader β} (hyes : Stable yes)
    (hno : Stable no) : Stable fun bytes => if p then yes bytes else no bytes := by
  by_cases h : p
  · simpa only [if_pos h] using hyes
  · simpa only [if_neg h] using hno

/-- Bytes are taken from the front, so more of them behind do not matter. -/
theorem stable_takeLittleEndian (k : Nat) : Stable (takeLittleEndian k) := by
  induction k with
  | zero => exact .pure 0
  | succ k ih => exact .of_first rfl fun b => ih.bind fun n => .pure (b.toNat + 256 * n)

theorem stable_readLength : Stable readLength :=
  .of_first rfl fun b => .ite (.pure b.toNat) <| .ite (stable_takeLittleEndian 2) <|
    .ite (stable_takeLittleEndian 4) <| .ite (stable_takeLittleEndian 8) .none

theorem stable_readWord32 : Stable readWord32 :=
  .of_first rfl fun _ => .ite .none fun _ _ _ h => stable_readLength h

theorem stable_takeBytes (k : Nat) : Stable (takeBytes k) := by
  intro bytes found rest h more
  simp only [takeBytes, List.length_take] at h ⊢
  split at h
  · cases h
  · rename_i hk
    have hle : k ≤ bytes.length := by omega
    cases h
    rw [List.take_append_of_le_length hle, List.drop_append_of_le_length hle, if_neg]
    rw [List.length_append]
    omega

/-- Items are read one by one, each from where the one before it ended. -/
theorem stable_readItems {read : Reader β} (h : Stable read) (k : Nat) :
    Stable (readItems read k) := by
  induction k with
  | zero => exact .pure []
  | succ k ih => exact h.bind fun x => ih.bind fun items => .pure (x :: items)

/-! ### Readers that give back what was written -/

/-- `read` gives back what `write` has written, whatever follows. -/
structure IsCodec (write : β → Bytes) (read : Reader β) : Prop where
  /-- Every value takes some bytes. -/
  length_pos : ∀ x, 0 < (write x).length
  read_write : ∀ x rest, (write x).length < 2 ^ 64 → read (write x ++ rest) = some (x, rest)
  stable : Stable read

/-- No proper beginning of a written value can be read. -/
theorem IsCodec.read_eq_none_of_append {write : β → Bytes} {read : Reader β}
    (h : IsCodec write read) {x : β} (hx : (write x).length < 2 ^ 64) {bytes more : Bytes}
    (hcut : write x = bytes ++ more) (hmore : more ≠ []) : read bytes = none := by
  cases hread : read bytes with
  | none => rfl
  | some found =>
      obtain ⟨y, rest⟩ := found
      have hall := h.read_write x [] hx
      rw [List.append_nil, hcut, h.stable hread more] at hall
      have hend : rest ++ more = [] := congrArg Prod.snd (Option.some.inj hall)
      exact absurd (List.append_eq_nil_iff.mp hend).2 hmore

theorem length_writeLength_pos (n : Nat) : 0 < (writeLength n).length := by
  unfold writeLength
  split
  · exact Nat.one_pos
  · split
    · exact Nat.succ_pos _
    · split <;> exact Nat.succ_pos _

/-- The digits of a number to base 256, the lowest first, give it back. -/
theorem takeLittleEndian_append (k n : Nat) (h : n < 256 ^ k) (rest : Bytes) :
    takeLittleEndian k (littleEndian k n ++ rest) = some (n, rest) := by
  -- on the number of digits; the lowest one is cut off the number
  induction k generalizing n with
  | zero =>
      rw [Nat.pow_zero, Nat.lt_one_iff] at h
      rw [h]
      rfl
  | succ k ih =>
      have hn : n / 256 < 256 ^ k := Nat.div_lt_of_lt_mul (by rwa [Nat.pow_succ, Nat.mul_comm] at h)
      simp only [littleEndian, List.cons_append, takeLittleEndian, ih _ hn, Option.bind_eq_bind,
        Option.bind_some, UInt8.toNat_ofNat']
      congr 2
      omega

/-- Each of the four forms of a length is told by its first byte, and the shortest one that fits is
written. -/
theorem readLength_writeLength (n : Nat) (h : n < 2 ^ 64) (rest : Bytes) :
    readLength (writeLength n ++ rest) = some (n, rest) := by
  unfold writeLength
  split
  · rename_i h8
    have hb : (UInt8.ofNat n).toNat = n := by
      rw [UInt8.toNat_ofNat']
      omega
    have hlt : UInt8.ofNat n < 251 := by
      rw [UInt8.lt_iff_toNat_lt, hb]
      exact h8
    rw [List.cons_append, readLength, if_pos hlt, hb]
    rfl
  · split
    · exact takeLittleEndian_append 2 n (by omega) rest
    · split
      · exact takeLittleEndian_append 4 n (by omega) rest
      · exact takeLittleEndian_append 8 n (by omega) rest

/-- The form for 64 bits is not used below `2 ^ 32`. -/
theorem readWord32_writeLength (n : Nat) (h : n < 2 ^ 32) (rest : Bytes) :
    readWord32 (writeLength n ++ rest) = some (n, rest) := by
  have hfirst : ∃ b bytes, writeLength n = b :: bytes ∧ b ≠ 253 := by
    unfold writeLength
    split
    · rename_i h8
      refine ⟨_, _, rfl, fun hb => ?_⟩
      have hb' := congrArg UInt8.toNat hb
      rw [UInt8.toNat_ofNat'] at hb'
      change _ = 253 at hb'
      omega
    · split
      · exact ⟨_, _, rfl, by decide⟩
      · rw [if_pos (by omega)]
        exact ⟨_, _, rfl, by decide⟩
  obtain ⟨b, bytes, hwrite, hb⟩ := hfirst
  have hread := readLength_writeLength n (by omega) rest
  rw [hwrite, List.cons_append] at hread ⊢
  rw [readWord32, if_neg hb, hread]

theorem takeBytes_append {bytes : Bytes} {k : Nat} (h : bytes.length = k) (rest : Bytes) :
    takeBytes k (bytes ++ rest) = some (bytes, rest) := by
  simp [takeBytes, ← h]

theorem ofUtf8?_utf8 (text : String) : ofUtf8? (utf8 text) = some text :=
  dif_pos text.isValidUTF8

/-- A text is its length in bytes and these bytes, which are valid UTF-8 and so decode to it. -/
theorem isCodec_text : IsCodec writeText readText where
  length_pos text := by
    rw [writeText, List.length_append]
    exact Nat.add_pos_left (length_writeLength_pos _) _
  read_write text rest h := by
    rw [writeText, List.length_append] at h
    rw [writeText, readText, List.append_assoc, readLength_writeLength _ (by omega)]
    dsimp only [Option.bind_eq_bind, Option.bind_some]
    rw [takeBytes_append rfl, Option.bind_some, ofUtf8?_utf8]
    rfl
  stable := stable_readLength.bind fun n => (stable_takeBytes n).bind fun _ =>
    .bind_option fun text => .pure text

/-! ### Lists and options -/

section Combinators

variable {write : β → Bytes} {read : Reader β}

/-- Since no item is empty, there are no more items than bytes. That is why their number fits
wherever their bytes do. -/
theorem length_le_flatMap (h : ∀ x, 0 < (write x).length) (items : List β) :
    items.length ≤ (items.flatMap write).length := by
  induction items with
  | nil => exact Nat.zero_le _
  | cons x items ih =>
      have := h x
      rw [List.flatMap_cons, List.length_append, List.length_cons]
      omega

/-- Items in sequence are read back, as long as all their bytes have a length that fits. -/
theorem IsCodec.readItems_flatMap (h : IsCodec write read) (items : List β) (rest : Bytes)
    (hlen : (items.flatMap write).length < 2 ^ 64) :
    readItems read items.length (items.flatMap write ++ rest) = some (items, rest) := by
  induction items with
  | nil => rfl
  | cons x items ih =>
      rw [List.flatMap_cons, List.length_append] at hlen
      rw [List.flatMap_cons, List.append_assoc, List.length_cons, readItems,
        h.read_write x _ (by omega)]
      dsimp only [Option.bind_eq_bind, Option.bind_some]
      rw [ih (by omega)]
      rfl

theorem IsCodec.list (h : IsCodec write read) : IsCodec (writeList write) (readList read) where
  length_pos items := by
    rw [writeList, List.length_append]
    exact Nat.add_pos_left (length_writeLength_pos _) _
  read_write items rest hlen := by
    have hle := length_le_flatMap h.length_pos items
    rw [writeList, List.length_append] at hlen
    rw [writeList, readList, List.append_assoc, readLength_writeLength _ (by omega)]
    exact h.readItems_flatMap items rest (by omega)
  stable := stable_readLength.bind fun n => stable_readItems h.stable n

theorem IsCodec.option (h : IsCodec write read) :
    IsCodec (writeOption write) (readOption read) where
  length_pos x := by cases x <;> exact Nat.succ_pos _
  read_write x rest hlen := by
    cases x with
    | none => rfl
    | some x =>
        rw [writeOption, List.length_cons] at hlen
        rw [writeOption, List.cons_append, readOption, if_neg (by decide), if_pos rfl,
          h.read_write x rest (by omega)]
        rfl
  stable := .of_first rfl fun _ => .ite (.pure none) <|
    .ite (h.stable.bind fun x => .pure (some x)) .none

theorem IsCodec.entry (h : IsCodec write read) :
    IsCodec (writeEntry write) (readEntry read) where
  length_pos entry := by
    rw [writeEntry, List.length_append]
    exact Nat.add_pos_left (isCodec_text.length_pos _) _
  read_write entry rest hlen := by
    rw [writeEntry, List.length_append] at hlen
    rw [writeEntry, readEntry, List.append_assoc, isCodec_text.read_write _ _ (by omega)]
    dsimp only [Option.bind_eq_bind, Option.bind_some]
    rw [h.read_write _ _ (by omega)]
    rfl
  stable := isCodec_text.stable.bind fun _ => h.stable.bind fun _ => .pure _

/-- The entries of a map stand in name order, so collecting them gives the map back. -/
theorem IsCodec.map (h : IsCodec write read) : IsCodec (writeMap write) (readMap read) where
  length_pos m := h.entry.list.length_pos m.toList
  read_write m rest hlen := by
    rw [writeMap, readMap, h.entry.list.read_write _ _ hlen]
    dsimp only [Option.bind_eq_bind, Option.bind_some]
    rw [NameMap.ofList_toList]
    rfl
  stable := h.entry.list.stable.bind fun _ => .pure _

end Combinators

/-! ### Netlists -/

theorem isCodec_width : IsCodec writeWidth readWidth where
  length_pos w := length_writeLength_pos _
  read_write w rest _ := by
    rw [writeWidth, readWidth, readWord32_writeLength _ w.toNat_lt]
    dsimp only [Option.bind_eq_bind, Option.bind_some]
    rw [UInt32.ofNat_toNat]
    rfl
  stable := stable_readWord32.bind fun _ => .pure _

theorem isCodec_kind : IsCodec writeKind readKind where
  length_pos kind := length_writeLength_pos _
  read_write kind rest _ := by
    have hkind : NodeKind.all.idxOf kind < 2 ^ 32 ∧
        NodeKind.all[NodeKind.all.idxOf kind]? = some kind := by
      cases kind <;> decide
    rw [writeKind, readKind, readWord32_writeLength _ hkind.1]
    dsimp only [Option.bind_eq_bind, Option.bind_some]
    rw [hkind.2]
    rfl
  stable := stable_readWord32.bind fun _ => .bind_option fun kind => .pure kind

theorem isCodec_fanout : IsCodec writeFanout readFanout := isCodec_text.list.map

section Numbers

variable {α : Type} [BitPattern α] [LawfulBitPattern α]

/-- Numbers are kept as their bits, so that any double is read back, not only one that is equal to
itself. -/
theorem isCodec_number : IsCodec (writeNumber (α := α)) readNumber where
  length_pos x := by
    rw [writeNumber, length_littleEndian]
    exact Nat.succ_pos _
  read_write x rest _ := by
    rw [writeNumber, readNumber, takeLittleEndian_append _ _ (BitPattern.toBits x).toNat_lt]
    dsimp only [Option.bind_eq_bind, Option.bind_some]
    rw [UInt64.ofNat_toNat, LawfulBitPattern.ofBits_toBits]
    rfl
  stable := (stable_takeLittleEndian 8).bind fun _ => .pure _

theorem isCodec_node : IsCodec (writeNode (α := α)) readNode where
  length_pos node := by
    simp only [writeNode, List.length_append]
    have := isCodec_text.length_pos node.name
    omega
  read_write node rest hlen := by
    simp only [writeNode, List.length_append] at hlen
    simp only [writeNode, readNode, List.append_assoc, Option.bind_eq_bind]
    rw [isCodec_text.read_write _ _ (by omega), Option.bind_some,
      isCodec_kind.read_write _ _ (by omega), Option.bind_some,
      isCodec_width.option.read_write _ _ (by omega), Option.bind_some,
      isCodec_text.option.read_write _ _ (by omega), Option.bind_some,
      isCodec_number.option.read_write _ _ (by omega), Option.bind_some,
      isCodec_number.option.read_write _ _ (by omega), Option.bind_some,
      isCodec_number.read_write _ _ (by omega), Option.bind_some]
    rfl
  stable := isCodec_text.stable.bind fun _ => isCodec_kind.stable.bind fun _ =>
    isCodec_width.option.stable.bind fun _ => isCodec_text.option.stable.bind fun _ =>
    isCodec_number.option.stable.bind fun _ => isCodec_number.option.stable.bind fun _ =>
    isCodec_number.stable.bind fun _ => .pure _

theorem isCodec_registry : IsCodec (writeRegistry (α := α)) readRegistry := isCodec_node.map

end Numbers

end Archive

end Presynth
