import Mathlib.Data.List.Forall2
import Mathlib.Data.Nat.Digits.Defs
import Presynth.Archive.Container
import Presynth.Proofs.Archive.Codec
/-!
# The form of stored values

Headers and payloads are values of a general kind in a general form, which is described here as a
relation between values and byte strings. Numbers of several bytes have the low byte first. An
unsigned integer takes one byte if it is below 251, and else a byte that tells its size class and as
many bytes as the class has. Texts, sequences and maps begin with their lengths, options with a byte
that says whether something follows; a double takes eight bytes. Records are their fields in order,
without anything in between.

Main statements: `Encodes.unique` (a value has one form), `encodes_fanout`, `encodes_registry` and
`encodes_header`.
-/

namespace Presynth.Archive

variable {β : Type}

/-! ### Values and their forms -/

/-- A value as its form shows it: what its parts are called is not written. -/
inductive Datum where
  /-- A number of eight bits. -/
  | byte (b : UInt8)
  /-- An unsigned integer of more bits, or the position of a variant. -/
  | word (n : Nat)
  /-- A double, by its bits. -/
  | double (bits : UInt64)
  | text (t : String)
  | absent
  | present (x : Datum)
  /-- A sequence of any length. -/
  | sequence (items : List Datum)
  /-- A record or a sequence of fixed length. -/
  | record (fields : List Datum)

/-- The bytes are the `k` digits of a number to base 256, the low one first. -/
def IsLittleEndian (k n : Nat) (bytes : Bytes) : Prop :=
  bytes.length = k ∧ Nat.ofDigits 256 (bytes.map UInt8.toNat) = n

/-- The form of a value. -/
inductive Encodes : Datum → Bytes → Prop where
  | byte (b : UInt8) : Encodes (.byte b) [b]
  | word8 {b : UInt8} (class8 : b.toNat < 251) : Encodes (.word b.toNat) [b]
  | word16 {n : Nat} {bytes : Bytes} (class16 : 251 ≤ n) (digits : IsLittleEndian 2 n bytes) :
      Encodes (.word n) (251 :: bytes)
  | word32 {n : Nat} {bytes : Bytes} (class32 : 2 ^ 16 ≤ n) (digits : IsLittleEndian 4 n bytes) :
      Encodes (.word n) (252 :: bytes)
  | word64 {n : Nat} {bytes : Bytes} (class64 : 2 ^ 32 ≤ n) (digits : IsLittleEndian 8 n bytes) :
      Encodes (.word n) (253 :: bytes)
  | double {bits : UInt64} {bytes : Bytes} (digits : IsLittleEndian 8 bits.toNat bytes) :
      Encodes (.double bits) bytes
  | text {t : String} {size : Bytes} (length : Encodes (.word t.utf8ByteSize) size) :
      Encodes (.text t) (size ++ utf8 t)
  | absent : Encodes .absent [0]
  | present {x : Datum} {bytes : Bytes} (some : Encodes x bytes) :
      Encodes (.present x) (1 :: bytes)
  | sequence {items : List Datum} {size : Bytes} {forms : List Bytes}
      (length : Encodes (.word items.length) size) (each : List.Forall₂ Encodes items forms) :
      Encodes (.sequence items) (size ++ forms.flatten)
  | record {fields : List Datum} {forms : List Bytes} (each : List.Forall₂ Encodes fields forms) :
      Encodes (.record fields) forms.flatten

/-! ### Numbers and texts -/

theorem ofDigits_lt (bytes : Bytes) :
    Nat.ofDigits 256 (bytes.map UInt8.toNat) < 256 ^ bytes.length := by
  induction bytes with
  | nil => exact Nat.one_pos
  | cons b bytes ih =>
      have hb := b.toNat_lt
      rw [List.map_cons, Nat.ofDigits_cons, List.length_cons, Nat.pow_succ]
      omega

/-- What is written for a number is little endian in the described sense. -/
theorem isLittleEndian_littleEndian {k n : Nat} (h : n < 256 ^ k) :
    IsLittleEndian k n (littleEndian k n) := by
  refine ⟨length_littleEndian k n, ?_⟩
  induction k generalizing n with
  | zero =>
      rw [Nat.pow_zero] at h
      exact (Nat.lt_one_iff.mp h).symm
  | succ k ih =>
      have hn : n / 256 < 256 ^ k := Nat.div_lt_of_lt_mul (by rwa [Nat.pow_succ, Nat.mul_comm] at h)
      rw [littleEndian, List.map_cons, Nat.ofDigits_cons, ih hn, UInt8.toNat_ofNat']
      omega

/-- A length takes the shortest of its four forms. -/
theorem encodes_word {n : Nat} (h : n < 2 ^ 64) : Encodes (.word n) (writeLength n) := by
  unfold writeLength
  split
  · rename_i h8
    have hb : (UInt8.ofNat n).toNat = n := by
      rw [UInt8.toNat_ofNat']
      omega
    have hword := Encodes.word8 (b := UInt8.ofNat n) (hb.symm ▸ h8)
    rwa [hb] at hword
  · rename_i h8
    split
    · rename_i h16
      exact .word16 (by omega) (isLittleEndian_littleEndian h16)
    · rename_i h16
      split
      · rename_i h32
        exact .word32 (by omega) (isLittleEndian_littleEndian h32)
      · rename_i h32
        exact .word64 (by omega) (isLittleEndian_littleEndian h)

/-- There is only one way to write a number in so many bytes. -/
theorem IsLittleEndian.eq {k n : Nat} {bytes : Bytes} (h : IsLittleEndian k n bytes) :
    bytes = littleEndian k n := by
  obtain ⟨rfl, rfl⟩ := h
  induction bytes with
  | nil => rfl
  | cons b bytes ih =>
      have hb := b.toNat_lt
      rw [List.length_cons, littleEndian, List.map_cons, Nat.ofDigits_cons]
      congr 1
      · refine UInt8.toNat_inj.mp ?_
        rw [UInt8.toNat_ofNat']
        omega
      · rw [show (b.toNat + 256 * Nat.ofDigits 256 (bytes.map UInt8.toNat)) / 256 =
          Nat.ofDigits 256 (bytes.map UInt8.toNat) by omega]
        exact ih

theorem IsLittleEndian.lt {k n : Nat} {bytes : Bytes} (h : IsLittleEndian k n bytes) :
    n < 256 ^ k := by
  obtain ⟨rfl, rfl⟩ := h
  exact ofDigits_lt bytes

/-- The size classes do not overlap. -/
theorem Encodes.word_eq {n : Nat} {bytes : Bytes} (h : Encodes (.word n) bytes) :
    bytes = writeLength n := by
  unfold writeLength
  cases h with
  | @word8 b class8 => rw [if_pos class8, UInt8.ofNat_toNat]
  | word16 class16 digits =>
      have hlt := digits.lt
      rw [if_neg (by omega), if_pos (by omega), ← digits.eq]
  | word32 class32 digits =>
      have hlt := digits.lt
      rw [if_neg (by omega), if_neg (by omega), if_pos (by omega), ← digits.eq]
  | word64 class64 digits =>
      rw [if_neg (by omega), if_neg (by omega), if_neg (by omega), ← digits.eq]

/-- Lists that are related item by item to the same list are equal, if related items are. -/
theorem forall₂_unique {γ δ : Type} {R : γ → δ → Prop} {l : List γ} {r₁ r₂ : List δ}
    (h : ∀ x ∈ l, ∀ y₁ y₂, R x y₁ → R x y₂ → y₁ = y₂) (h₁ : List.Forall₂ R l r₁)
    (h₂ : List.Forall₂ R l r₂) : r₁ = r₂ := by
  induction l generalizing r₁ r₂ with
  | nil =>
      cases h₁
      cases h₂
      rfl
  | cons x l ih =>
      cases h₁ with
      | cons hx₁ h₁ =>
          cases h₂ with
          | cons hx₂ h₂ =>
              rw [h x List.mem_cons_self _ _ hx₁ hx₂,
                ih (fun y hy => h y (List.mem_cons_of_mem _ hy)) h₁ h₂]

/-- A value has one form. -/
theorem Encodes.unique {x : Datum} {b₁ b₂ : Bytes} (h₁ : Encodes x b₁) (h₂ : Encodes x b₂) :
    b₁ = b₂ := by
  -- on what is encoded; its length and items follow by induction on the derivation
  cases x with
  | byte b =>
      cases h₁
      cases h₂
      rfl
  | word n => rw [h₁.word_eq, h₂.word_eq]
  | double bits =>
      cases h₁ with
      | double digits₁ =>
          cases h₂ with
          | double digits₂ => rw [digits₁.eq, digits₂.eq]
  | text t =>
      cases h₁ with
      | text length₁ =>
          cases h₂ with
          | text length₂ => rw [length₁.word_eq, length₂.word_eq]
  | absent =>
      cases h₁
      cases h₂
      rfl
  | present x =>
      cases h₁ with
      | present some₁ =>
          cases h₂ with
          | present some₂ => rw [some₁.unique some₂]
  | sequence items =>
      cases h₁ with
      | sequence length₁ each₁ =>
          cases h₂ with
          | sequence length₂ each₂ =>
              rw [length₁.word_eq, length₂.word_eq,
                forall₂_unique (fun item _ _ _ e₁ e₂ => e₁.unique e₂) each₁ each₂]
  | record fields =>
      cases h₁ with
      | record each₁ =>
          cases h₂ with
          | record each₂ =>
              rw [forall₂_unique (fun field _ _ _ e₁ e₂ => e₁.unique e₂) each₁ each₂]
termination_by x

/-! ### Written values -/

/-- A value, absent or present. -/
def Datum.ofOption (datum : β → Datum) : Option β → Datum
  | none => .absent
  | some x => .present (datum x)

/-- A map as the sequence of its entries. -/
def Datum.ofMap (datum : β → Datum) (m : NameMap β) : Datum :=
  .sequence (m.toList.map fun entry => .record [.text entry.1, datum entry.2])

/-- What is written has the form of a datum. -/
def HasForm (write : β → Bytes) (datum : β → Datum) : Prop :=
  ∀ x, (write x).length < 2 ^ 64 → Encodes (datum x) (write x)

theorem hasForm_text : HasForm writeText .text := by
  intro t h
  rw [writeText, List.length_append] at h
  exact .text (encodes_word (n := (utf8 t).length) (by omega))

section Combinators

variable {write : β → Bytes} {datum : β → Datum}

/-- Each of the items has the form of its datum, since their lengths fit together. -/
theorem HasForm.forall₂ (h : HasForm write datum) {items : List β}
    (hlen : (items.flatMap write).length < 2 ^ 64) :
    List.Forall₂ Encodes (items.map datum) (items.map write) := by
  induction items with
  | nil => exact .nil
  | cons x items ih =>
      rw [List.flatMap_cons, List.length_append] at hlen
      exact .cons (h x (by omega)) (ih (by omega))

theorem HasForm.list (h : HasForm write datum) (hpos : ∀ x, 0 < (write x).length) :
    HasForm (writeList write) fun items => .sequence (items.map datum) := by
  intro items hlen
  have hle := length_le_flatMap hpos items
  rw [writeList, List.length_append] at hlen
  have hcount : Encodes (.word (items.map datum).length) (writeLength items.length) := by
    rw [List.length_map]
    exact encodes_word (by omega)
  rw [writeList, List.flatMap_def]
  exact .sequence hcount (h.forall₂ (by omega))

theorem HasForm.option (h : HasForm write datum) :
    HasForm (writeOption write) (.ofOption datum) := by
  intro x hlen
  cases x with
  | none => exact .absent
  | some x =>
      rw [writeOption, List.length_cons] at hlen
      exact .present (h x (by omega))

theorem HasForm.entry (h : HasForm write datum) :
    HasForm (writeEntry write) fun entry => .record [.text entry.1, datum entry.2] := by
  intro entry hlen
  rw [writeEntry, List.length_append] at hlen
  have hfields : List.Forall₂ Encodes [.text entry.1, datum entry.2]
      [writeText entry.1, write entry.2] :=
    .cons (hasForm_text _ (by omega)) (.cons (h _ (by omega)) .nil)
  simpa [writeEntry] using Encodes.record hfields

theorem HasForm.map (h : HasForm write datum) :
    HasForm (writeMap write) (.ofMap datum) := by
  refine fun m hlen => h.entry.list (fun entry => ?_) m.toList hlen
  rw [writeEntry, List.length_append]
  exact Nat.add_pos_left (isCodec_text.length_pos _) _

end Combinators

/-! ### Netlists -/

/-- A kind is the position among all kinds. -/
def kindDatum (kind : NodeKind) : Datum := .word (NodeKind.all.idxOf kind)

theorem hasForm_kind : HasForm writeKind kindDatum := fun kind _ =>
  encodes_word (by cases kind <;> decide)

theorem hasForm_width : HasForm writeWidth fun w => .word w.toNat := fun w _ =>
  encodes_word (w.toNat_lt.trans (by decide))

/-- Fanout lists as a map of sequences. -/
def fanoutDatum (fanout : NameMap (List String)) : Datum :=
  .ofMap (fun names => .sequence (names.map .text)) fanout

theorem hasForm_fanout : HasForm writeFanout fanoutDatum :=
  (hasForm_text.list isCodec_text.length_pos).map

section Numbers

variable {α : Type} [BitPattern α]

/-- A number as a double. -/
def numberDatum (x : α) : Datum := .double (BitPattern.toBits x)

theorem hasForm_number : HasForm (writeNumber (α := α)) numberDatum := fun x _ =>
  .double (isLittleEndian_littleEndian (BitPattern.toBits x).toNat_lt)

/-- The fields of a node. -/
def nodeDatum (node : Node α) : Datum :=
  .record [.text node.name, kindDatum node.kind, .ofOption (fun w => .word w.toNat) node.width,
    .ofOption .text node.father, .ofOption numberDatum node.delay,
    .ofOption numberDatum node.toggleRate, numberDatum node.steadyProbability]

theorem hasForm_node : HasForm (writeNode (α := α)) nodeDatum := by
  intro node hlen
  simp only [writeNode, List.length_append] at hlen
  have hfields := List.Forall₂.cons (hasForm_text node.name (by omega)) <|
    .cons (hasForm_kind node.kind (by omega)) <|
    .cons (hasForm_width.option node.width (by omega)) <|
    .cons (hasForm_text.option node.father (by omega)) <|
    .cons (hasForm_number.option node.delay (by omega)) <|
    .cons (hasForm_number.option node.toggleRate (by omega)) <|
    .cons (hasForm_number node.steadyProbability (by omega)) .nil
  simpa [writeNode, nodeDatum] using Encodes.record hfields

/-- A registry as a map of nodes. -/
def registryDatum (registry : NameMap (Node α)) : Datum := .ofMap nodeDatum registry

theorem hasForm_registry : HasForm (writeRegistry (α := α)) registryDatum := hasForm_node.map

end Numbers

/-! ### Headers -/

/-- The position of a half among both. -/
def payloadKindDatum : PayloadKind → Datum
  | .Adjacency => .word 0
  | .Registry => .word 1

/-- The fields of a header. -/
def headerDatum (h : Header) : Datum :=
  .record [.record (h.magic.map .byte), .word h.version, payloadKindDatum h.kind,
    .record (h.digest.bytes.toList.map .byte)]

theorem encodes_bytes (bytes : Bytes) : Encodes (.record (bytes.map .byte)) bytes := by
  have hfields : List.Forall₂ Encodes (bytes.map .byte) (bytes.map fun b => [b]) := by
    induction bytes with
    | nil => exact .nil
    | cons b bytes ih => exact .cons (.byte b) ih
  have hrecord := Encodes.record hfields
  rwa [← List.flatMap_def, List.flatMap_singleton'] at hrecord

/-- The header of a file has four fields, the digest among them as bytes. -/
theorem encodes_header {h : Header} (hversion : h.version < 2 ^ 32) :
    Encodes (headerDatum h) (writeHeader h) := by
  have hkind : Encodes (payloadKindDatum h.kind) (writePayloadKind h.kind) := by
    cases h.kind <;> exact encodes_word (by decide)
  have hfields := List.Forall₂.cons (encodes_bytes h.magic) <|
    .cons (encodes_word (n := h.version) (by omega)) <|
    .cons hkind <| .cons (encodes_bytes h.digest.bytes.toList) .nil
  simpa [writeHeader, headerDatum] using Encodes.record hfields

end Presynth.Archive
