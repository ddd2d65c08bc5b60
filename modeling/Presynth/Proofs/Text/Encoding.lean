import Mathlib.Data.List.Basic
import Presynth.Archive.Binary
/-!
# Bytes of a text

In UTF-8 an ASCII character is a single byte below 0x80, and any other character has bytes from 0x80
on only. So a byte below 0x80 is a character of its own: what is found byte by byte in such bytes
begins and ends where characters do.

Main statements: `Text.exists_of_bytes_eq` (for one byte), `Text.exists_of_bytes_eq_append` (for a
run of bytes) and `Text.length_le_iff_of_fronts` (positions in bytes and in characters).
-/

namespace Presynth.Text

/-- The bytes of a text. -/
def bytes (text : List Char) : List UInt8 := text.flatMap String.utf8EncodeChar

variable {text : List Char}

@[simp] theorem bytes_nil : bytes [] = [] := rfl

@[simp] theorem bytes_cons (c : Char) (text : List Char) :
    bytes (c :: text) = String.utf8EncodeChar c ++ bytes text := List.flatMap_cons

@[simp] theorem bytes_append (text more : List Char) :
    bytes (text ++ more) = bytes text ++ bytes more := List.flatMap_append

theorem utf8_ofList (text : List Char) : Archive.utf8 (String.ofList text) = bytes text := by
  rw [Archive.utf8, String.toUTF8_eq_toByteArray, String.toByteArray_ofList, List.utf8Encode,
    List.toList_data_toByteArray, bytes]

theorem utf8_eq_bytes (text : String) : Archive.utf8 text = bytes text.toList := by
  rw [← utf8_ofList, String.ofList_toList]

theorem length_bytes (text : List Char) :
    (bytes text).length = (String.ofList text).utf8ByteSize := by
  rw [← utf8_ofList]
  rfl

theorem bytes_injective : Function.Injective bytes := by
  intro text other h
  rw [← utf8_ofList, ← utf8_ofList, Archive.utf8, Archive.utf8, Array.toList_inj] at h
  exact String.ofList_injective (String.toByteArray_inj.mp (ByteArray.ext h))

@[simp] theorem bytes_eq_nil_iff : bytes text = [] ↔ text = [] := by
  cases text with
  | nil => simp
  | cons c text => simp [String.utf8EncodeChar_ne_nil]

/-- Of two pieces from the front of a text, the one of fewer characters has fewer bytes. -/
theorem length_le_iff_of_fronts {piece other : List Char} (h : piece <+: text)
    (h' : other <+: text) :
    (bytes piece).length ≤ (bytes other).length ↔ piece.length ≤ other.length := by
  constructor
  · intro hbytes
    by_contra hlt
    obtain ⟨rest, rfl⟩ := List.prefix_of_prefix_length_le h' h (by omega)
    have hrest : (bytes rest).length = 0 := by
      rw [bytes_append, List.length_append] at hbytes
      omega
    rw [List.length_eq_zero_iff, bytes_eq_nil_iff] at hrest
    simp [hrest] at hlt
  · intro hle
    obtain ⟨rest, rfl⟩ := List.prefix_of_prefix_length_le h h' hle
    rw [bytes_append, List.length_append]
    exact Nat.le_add_right _ _

/-- A text can be cut behind the bytes of some of its first characters. -/
theorem isValid_of_eq_append {text front back : String} (h : text = front ++ back) :
    String.Pos.Raw.IsValid text ⟨front.utf8ByteSize⟩ :=
  String.Pos.Raw.isValid_iff_exists_append.mpr ⟨front, back, h, rfl⟩

/-! ### Small bytes -/

/-- An ASCII character is a single byte, and all bytes of another one are large. -/
theorem utf8EncodeChar_cases (c : Char) :
    (c.toNat < 0x80 ∧ String.utf8EncodeChar c = [c.toUInt8]) ∨
      (0x80 ≤ c.toNat ∧ ∀ b ∈ String.utf8EncodeChar c, 0x80 ≤ b.toNat) := by
  by_cases hsmall : c.toNat < 0x80
  · refine .inl ⟨hsmall, String.utf8EncodeChar_eq_singleton ?_⟩
    rw [Char.utf8Size_eq_one_iff, UInt32.le_iff_toNat_le]
    exact Nat.le_of_lt_succ hsmall
  · refine .inr ⟨Nat.le_of_not_lt hsmall, fun b hb => ?_⟩
    have hlarge : ¬ c.val.toNat ≤ 0x7f := fun h => hsmall (Nat.lt_succ_of_le h)
    rw [String.utf8EncodeChar, if_neg hlarge] at hb
    -- each byte is a remainder below a mark of at least 0x80
    split at hb
    · simp only [List.mem_cons, List.not_mem_nil, or_false] at hb
      rcases hb with rfl | rfl <;> rw [UInt8.toNat_ofNat'] <;> omega
    · split at hb
      · simp only [List.mem_cons, List.not_mem_nil, or_false] at hb
        rcases hb with rfl | rfl | rfl <;> rw [UInt8.toNat_ofNat'] <;> omega
      · simp only [List.mem_cons, List.not_mem_nil, or_false] at hb
        rcases hb with rfl | rfl | rfl | rfl <;> rw [UInt8.toNat_ofNat'] <;> omega

theorem toNat_toUInt8 {c : Char} (h : c.toNat < 0x80) : c.toUInt8.toNat = c.toNat := by
  change c.toNat % 256 = c.toNat
  omega

/-- A character with a small byte has no other. -/
theorem utf8EncodeChar_of_small {c : Char} {b : UInt8} (hb : b.toNat < 0x80)
    (hmem : b ∈ String.utf8EncodeChar c) :
    String.utf8EncodeChar c = [b] ∧ c.toNat = b.toNat := by
  rcases utf8EncodeChar_cases c with ⟨hsmall, hsingle⟩ | ⟨-, hlarge⟩
  · rw [hsingle, List.mem_singleton] at hmem
    subst hmem
    exact ⟨hsingle, (toNat_toUInt8 hsmall).symm⟩
  · exact absurd (hlarge b hmem) (Nat.not_le_of_lt hb)

/-- A small byte is a character. -/
theorem exists_of_bytes_eq {front back : List UInt8} {b : UInt8} (hb : b.toNat < 0x80)
    (h : bytes text = front ++ b :: back) :
    ∃ before c after, text = before ++ c :: after ∧ bytes before = front ∧
      (String.utf8EncodeChar c = [b] ∧ c.toNat = b.toNat) ∧ bytes after = back := by
  induction text generalizing front with
  | nil => simp at h
  | cons c text ih =>
      rw [bytes_cons] at h
      rcases List.append_eq_append_iff.mp h with ⟨rest, rfl, hrest⟩ | ⟨rest, hc, hrest⟩
      · -- the byte comes after the first character
        obtain ⟨before, d, after, rfl, rfl, hd, hafter⟩ := ih hrest
        exact ⟨c :: before, d, after, rfl, bytes_cons c before, hd, hafter⟩
      · cases rest with
        | nil =>
            obtain ⟨before, d, after, rfl, hbefore, hd, hafter⟩ :=
              ih (hrest.symm.trans (List.nil_append _).symm)
            obtain rfl := bytes_eq_nil_iff.mp hbefore
            refine ⟨[c], d, after, rfl, ?_, hd, hafter⟩
            rw [bytes_cons, hc, bytes_nil, List.append_nil, List.append_nil]
        | cons b' rest =>
            -- the byte is one of the first character, so it is the only one
            obtain ⟨rfl, rfl⟩ := List.cons_eq_cons.mp hrest
            have hmem : b ∈ String.utf8EncodeChar c := by simp [hc]
            have hsmall := utf8EncodeChar_of_small hb hmem
            rw [hsmall.1, List.singleton_eq_append_iff] at hc
            obtain ⟨rfl, hrest⟩ | ⟨-, hrest⟩ := hc
            · obtain ⟨-, rfl⟩ := List.cons_eq_cons.mp hrest
              exact ⟨[], c, text, rfl, rfl, hsmall, rfl⟩
            · cases hrest

/-- A run of small bytes is a run of characters. -/
theorem exists_of_bytes_eq_append {front run back : List UInt8} (hne : run ≠ [])
    (hrun : ∀ b ∈ run, b.toNat < 0x80) (h : bytes text = front ++ (run ++ back)) :
    ∃ before mid after, text = before ++ (mid ++ after) ∧ bytes before = front ∧
      bytes mid = run ∧ bytes after = back := by
  induction run generalizing front text with
  | nil => exact absurd rfl hne
  | cons b run ih =>
      rw [List.forall_mem_cons] at hrun
      obtain ⟨before, c, after, rfl, hbefore, ⟨hc, -⟩, hafter⟩ := exists_of_bytes_eq hrun.1 h
      by_cases hnil : run = []
      · subst hnil
        exact ⟨before, [c], after, rfl, hbefore, by simp [hc], hafter⟩
      · -- nothing stands between the first byte of the run and the others
        obtain ⟨between, mid, after', rfl, hbetween, hmid, hafter'⟩ :=
          ih hnil hrun.2 (hafter.trans (List.nil_append _).symm)
        obtain rfl := bytes_eq_nil_iff.mp hbetween
        refine ⟨before, c :: mid, after', rfl, hbefore, ?_, hafter'⟩
        rw [bytes_cons, hc, hmid, List.singleton_append]

/-- A run of small bytes at some byte of a text is a run of characters there. -/
theorem exists_of_bytes_drop {run back : List UInt8} {k : ℕ} (hne : run ≠ [])
    (hrun : ∀ b ∈ run, b.toNat < 0x80) (h : run ++ back = (bytes text).drop k) :
    ∃ before mid after, text = before ++ (mid ++ after) ∧ (bytes before).length = k ∧
      bytes mid = run ∧ bytes after = back := by
  have hsplit : bytes text = (bytes text).take k ++ (run ++ back) := by
    rw [h, List.take_append_drop]
  obtain ⟨before, mid, after, htext, hbefore, hmid, hafter⟩ :=
    exists_of_bytes_eq_append hne hrun hsplit
  refine ⟨before, mid, after, htext, ?_, hmid, hafter⟩
  rw [hbefore, List.length_take, Nat.min_eq_left]
  by_contra hlt
  rw [List.drop_eq_nil_of_le (by omega)] at h
  simp [hne] at h

/-- All bytes have a property of small numbers if all characters have it. -/
theorem forall_mem_bytes_iff {p : ℕ → Prop} (hp : ∀ n, p n → n < 0x80) :
    (∀ b ∈ bytes text, p b.toNat) ↔ ∀ c ∈ text, p c.toNat := by
  induction text with
  | nil => simp
  | cons c text ih =>
      rw [bytes_cons, List.forall_mem_append, List.forall_mem_cons, ih]
      refine and_congr_left fun _ => ?_
      rcases utf8EncodeChar_cases c with ⟨hsmall, hsingle⟩ | ⟨hlarge, hbytes⟩
      · rw [hsingle, List.forall_mem_singleton, toNat_toUInt8 hsmall]
      · refine iff_of_false (fun h => ?_) fun h => absurd (hp _ h) (Nat.not_lt_of_le hlarge)
        obtain ⟨b, hb⟩ := List.exists_mem_of_ne_nil _ (String.utf8EncodeChar_ne_nil)
        exact absurd (hp _ (h b hb)) (Nat.not_lt_of_le (hbytes b hb))

end Presynth.Text
