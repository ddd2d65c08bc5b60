import Mathlib
/-!
# Canonical forms of doubles

A finite double is held as `m * 2 ^ e` in a form of its own, with 53 bits or at the least exponent.
What a double is unpacked to has this form, and a number of this form is packed without loss, unless
it is too large and becomes an infinity.

Main statements: `canonical_of_unpack` and `unpack_pack`.
-/

namespace Presynth.Double

open Float.Model Float.Model.UnpackedFloat

/-- What the fields of a double say. -/
theorem unpack_packComponents (s : Sign) (e : BitVec 11) (m : BitVec 52) :
    UnpackedFloat.unpack .binary64 (packComponents .binary64 s e m) =
      if e = -1#11 then if m = 0#52 then .infinity s else .notANumber
      else if e = 0#11 then
        if h : m = 0#52 then .zero s
        else .finite s m.toNat (-1074) (Nat.pos_of_ne_zero fun hm => h (BitVec.eq_of_toNat_eq hm))
      else .finite s (2 ^ 52 + m.toNat) (e.toNat - 1075) (by omega) := by
  have happ : (1#1 ++ m).toNat = 2 ^ 52 + m.toNat := by
    rw [BitVec.toNat_append, ← Nat.shiftLeft_add_eq_or_of_lt m.isLt]
    rfl
  unfold UnpackedFloat.unpack
  simp only [unpackMantissa_packComponents, unpackExponent_packComponents,
    unpackSign_packComponents, Sign.ofBitVec_toBitVec]
  split
  · rfl
  · split
    · rename_i h
      subst h
      rfl
    · congr 1

/-- `m * 2 ^ e` in the form that doubles hold it in: with 53 bits, or with fewer at the least
exponent. -/
structure Canonical (m : Nat) (e : Int) : Prop where
  bits : m < 2 ^ 53
  least : -1074 ≤ e
  full : 2 ^ 52 ≤ m ∨ e = -1074

/-- What is unpacked is canonical: a mantissa of 53 bits, or fewer with the least exponent. -/
theorem canonical_of_unpack {x : Float.Model} {s : Sign} {m : Nat} {e : Int} {hm : 0 < m}
    (h : x.unpack = .finite s m e hm) : Canonical m e ∧ e ≤ 971 := by
  unfold Float.Model.unpack at h
  rw [← @packComponents_unpackSign_unpackExponent_unpackMantissa Format.binary64
    x.toBits.toBitVec] at h
  -- the cases are those of the exponent field: all ones, zero, or a normal number
  generalize Sign.ofBitVec _ = s', unpackExponent _ = e', unpackMantissa _ = m' at h
  rw [unpack_packComponents] at h
  have hm' : m'.toNat < 2 ^ 52 := m'.isLt
  have he' : e'.toNat < 2 ^ 11 := e'.isLt
  split at h
  · split at h <;> cases h
  · rename_i hne
    have hmax : e'.toNat ≠ 2047 := fun h => hne (BitVec.eq_of_toNat_eq h)
    split at h
    · split at h
      · cases h
      · cases h
        exact ⟨⟨by omega, le_rfl, .inr rfl⟩, by omega⟩
    · rename_i hzero
      have hpos : e'.toNat ≠ 0 := fun h => hzero (BitVec.eq_of_toNat_eq h)
      cases h
      exact ⟨⟨by omega, by omega, .inl (by omega)⟩, by omega⟩

/-- The pattern of a canonical form, by its size. -/
theorem pack_finite {s : Sign} {m : Nat} {e : Int} {hm : 0 < m} (h : Canonical m e) :
    UnpackedFloat.pack .binary64 (.finite s m e hm) =
      if 971 < e then packedInfinity .binary64 s
      else packComponents .binary64 s
        (if 2 ^ 52 ≤ m then BitVec.ofNat 11 (e + 1075).toNat else 0#11) (BitVec.ofNat 52 m) := by
  obtain ⟨hbits, hleast, -⟩ := h
  have hbias : (e + Format.binary64.exponentBias +
      Format.binary64.mantissaBitsWithoutImplicit).toNat = (e + 1075).toNat := by
    congr 1
    exact Int.add_assoc e 1023 52
  have hlog : m.log2 + 1 = Format.binary64.mantissaBits ↔ 2 ^ 52 ≤ m := by
    have hlt := (Nat.log2_lt hm.ne').mpr hbits
    rw [← Nat.le_log2 hm.ne']
    change m.log2 + 1 = 53 ↔ _
    omega
  have hexp : 2 ^ Format.binary64.exponentBits ≤ (e + 1075).toNat + 1 ↔ 971 < e := by
    change 2 ^ 11 ≤ _ ↔ _
    omega
  unfold UnpackedFloat.pack
  simp only [hbias, hlog, hexp]
  split
  · rfl
  · split <;> rfl

/-- A canonical form is packed without loss, unless it is too large. -/
theorem unpack_pack {s : Sign} {m : Nat} {e : Int} {hm : 0 < m} (h : Canonical m e) :
    (Float.Model.pack (.finite s m e hm)).unpack =
      if 971 < e then .infinity s else .finite s m e hm := by
  have key : (Float.Model.pack (.finite s m e hm)).unpack =
      UnpackedFloat.unpack .binary64 (UnpackedFloat.pack .binary64 (.finite s m e hm)) := rfl
  rw [key, pack_finite h]
  obtain ⟨hbits, hleast, hfull⟩ := h
  split
  · rw [packedInfinity, unpack_packComponents, if_pos rfl]
    exact if_pos rfl
  · have hmod : (BitVec.ofNat 52 m).toNat = m % 2 ^ 52 := BitVec.toNat_ofNat ..
    have hexp : (BitVec.ofNat 11 (e + 1075).toNat).toNat = (e + 1075).toNat % 2 ^ 11 :=
      BitVec.toNat_ofNat ..
    -- the biased exponent is that of a normal number, neither all ones nor zero
    have hinf : BitVec.ofNat 11 (e + 1075).toNat ≠ -1#11 := by
      rw [Ne, ← BitVec.toNat_inj, hexp]
      change ¬ _ = 2047
      omega
    have hzero : BitVec.ofNat 11 (e + 1075).toNat ≠ 0#11 := by
      rw [Ne, ← BitVec.toNat_inj, hexp]
      change ¬ _ = 0
      omega
    rw [unpack_packComponents]
    -- the leading bit is not stored, and a mantissa without one has the exponent zero
    by_cases hm52 : 2 ^ 52 ≤ m
    · rw [if_pos hm52, if_neg hinf, if_neg hzero]
      simp only [UnpackedFloat.finite.injEq, true_and]
      omega
    · have hne : BitVec.ofNat 52 m ≠ 0#52 := by
        rw [Ne, ← BitVec.toNat_inj, hmod]
        change ¬ _ = 0
        omega
      rw [if_neg hm52, if_neg (by decide), if_pos rfl, dif_neg hne]
      simp only [UnpackedFloat.finite.injEq, true_and]
      omega

end Presynth.Double
