import Mathlib
import Presynth.Proofs.Numbers.Finite
import Presynth.Quantity
/-!
# Bit patterns of doubles

A double has a sign, an exponent field and a fraction. What it is unpacked to and what is read of it
both follow from these three. Behind the sign, the pattern as a number grows with the size of the
double, so the ranks of patterns are a total order in which finite doubles stand as their numbers
do, a negative zero just below zero.

Main statements: `reading_of_unpack`, `rankOfBits_inj` and `le_of_rank_le`.
-/

namespace Presynth.Double

open Float.Model Float.Model.UnpackedFloat

variable {m : ℕ} {e : ℤ}

/-! ### Fields -/

/-- The sign bit. -/
def negativeOf (bits : UInt64) : Bool := bits >>> 63 == 1

/-- The exponent field. -/
def fieldOf (bits : UInt64) : ℕ := ((bits >>> 52) &&& 0x7ff).toNat

/-- The bits behind the exponent field. -/
def fractionOf (bits : UInt64) : ℕ := (bits &&& 0xfffffffffffff).toNat

/-- The sign that the sign bit stands for. -/
def signOf (negative : Bool) : Sign := if negative then .negative else .positive

theorem negativeOf_iff (bits : UInt64) : negativeOf bits = true ↔ 2 ^ 63 ≤ bits.toNat := by
  rw [negativeOf, beq_iff_eq, ← UInt64.toNat_inj]
  change bits.toNat >>> 63 = 1 ↔ _
  have hbits := bits.toNat_lt
  rw [Nat.shiftRight_eq_div_pow]
  omega

theorem toNat_unpackMantissa (bits : UInt64) :
    (@unpackMantissa .binary64 bits.toBitVec).toNat = fractionOf bits := by
  change (bits.toNat >>> 0) % 2 ^ 52 = bits.toNat &&& (2 ^ 52 - 1)
  rw [Nat.and_two_pow_sub_one_eq_mod, Nat.shiftRight_zero]

theorem ofBitVec_unpackSign (bits : UInt64) :
    Sign.ofBitVec (@unpackSign .binary64 bits.toBitVec) = signOf (negativeOf bits) := by
  have hsign : @unpackSign .binary64 bits.toBitVec = 0#1 ↔ ¬ negativeOf bits = true := by
    rw [negativeOf_iff, ← BitVec.toNat_inj]
    change (bits.toNat >>> 63) % 2 = 0 ↔ _
    have hbits := bits.toNat_lt
    rw [Nat.shiftRight_eq_div_pow]
    omega
  unfold Sign.ofBitVec signOf
  by_cases h : negativeOf bits = true
  · rw [if_pos h, if_neg (hsign.not_left.mpr h)]
  · rw [if_neg h, if_pos (hsign.mpr h)]

theorem fractionOf_lt (bits : UInt64) : fractionOf bits < 2 ^ 52 := by
  rw [← toNat_unpackMantissa]
  exact BitVec.isLt _

/-- What a double is unpacked to, by its fields. -/
theorem unpack_eq (x : Float) :
    x.toModel.unpack =
      if fieldOf x.toBits = 2047 then
        if fractionOf x.toBits = 0 then .infinity (signOf (negativeOf x.toBits)) else .notANumber
      else if fieldOf x.toBits = 0 then
        if h : fractionOf x.toBits = 0 then .zero (signOf (negativeOf x.toBits))
        else .finite (signOf (negativeOf x.toBits)) (fractionOf x.toBits) (-1074)
          (Nat.pos_of_ne_zero h)
      else .finite (signOf (negativeOf x.toBits)) (2 ^ 52 + fractionOf x.toBits)
        (fieldOf x.toBits - 1075) (by omega) := by
  have hgreatest :
      @unpackExponent .binary64 x.toBits.toBitVec = -1#11 ↔ fieldOf x.toBits = 2047 := by
    rw [fieldOf, ← toNat_unpackExponent, ← BitVec.toNat_inj]
    rfl
  have hleast : @unpackExponent .binary64 x.toBits.toBitVec = 0#11 ↔ fieldOf x.toBits = 0 := by
    rw [fieldOf, ← toNat_unpackExponent, ← BitVec.toNat_inj]
    rfl
  have hnone : @unpackMantissa .binary64 x.toBits.toBitVec = 0#52 ↔ fractionOf x.toBits = 0 := by
    rw [← toNat_unpackMantissa, ← BitVec.toNat_inj]
    rfl
  -- unpacking is known for packed fields, so the double is put together from its own
  have hfields : x.toModel.unpack = UnpackedFloat.unpack .binary64 (packComponents .binary64
      (Sign.ofBitVec (@unpackSign .binary64 x.toBits.toBitVec))
      (@unpackExponent .binary64 x.toBits.toBitVec)
      (@unpackMantissa .binary64 x.toBits.toBitVec)) := by
    rw [packComponents_unpackSign_unpackExponent_unpackMantissa]
    rfl
  rw [hfields, unpack_packComponents]
  simp only [hgreatest, hleast, hnone, toNat_unpackMantissa, toNat_unpackExponent,
    ofBitVec_unpackSign]
  rfl

/-- The four cases of a double, by its exponent field: all ones stand for infinities and for what is
no number, and zero for numbers without the leading bit. -/
theorem reading_eq (x : Float) :
    Decimal.reading x =
      if fieldOf x.toBits = 2047 then
        if fractionOf x.toBits = 0 then .infinite (negativeOf x.toBits) else .nan
      else if fieldOf x.toBits = 0 then
        .finite ⟨negativeOf x.toBits, fractionOf x.toBits, -1074⟩
      else
        .finite ⟨negativeOf x.toBits, 2 ^ 52 + fractionOf x.toBits, fieldOf x.toBits - 1075⟩ := by
  rw [Nat.add_comm (2 ^ 52)]
  rfl

/-- What a finite double is unpacked to is what is read of it. -/
theorem reading_of_unpack {x : Float} {s : Sign} {hm : 0 < m}
    (h : x.toModel.unpack = .finite s m e hm) :
    s = signOf (negativeOf x.toBits) ∧
      Decimal.reading x = .finite ⟨negativeOf x.toBits, m, e⟩ := by
  rw [unpack_eq] at h
  rw [reading_eq]
  split at h
  · split at h <;> cases h
  · rename_i hfield
    rw [if_neg hfield]
    split at h
    · rename_i hzero
      rw [if_pos hzero]
      split at h
      · cases h
      · cases h
        exact ⟨rfl, rfl⟩
    · rename_i hzero
      rw [if_neg hzero]
      cases h
      exact ⟨rfl, rfl⟩

theorem reading_of_unpack_zero {x : Float} {s : Sign} (h : x.toModel.unpack = .zero s) :
    Decimal.reading x = .finite ⟨negativeOf x.toBits, 0, -1074⟩ := by
  rw [unpack_eq] at h
  rw [reading_eq]
  split at h
  · split at h <;> cases h
  · rename_i hfield
    rw [if_neg hfield]
    split at h
    · rename_i hzero
      rw [if_pos hzero]
      split at h
      · rename_i hfraction
        rw [hfraction]
      · cases h
    · cases h

/-! ### Patterns as numbers -/

/-- A pattern as a number, without its sign bit. -/
def lowOf (bits : UInt64) : ℕ := fieldOf bits * 2 ^ 52 + fractionOf bits

theorem toNat_and_low (bits : UInt64) : (bits &&& 0x7fffffffffffffff).toNat = lowOf bits := by
  change bits.toNat &&& (2 ^ 63 - 1) =
    ((bits.toNat >>> 52) &&& (2 ^ 11 - 1)) * 2 ^ 52 + (bits.toNat &&& (2 ^ 52 - 1))
  simp only [Nat.and_two_pow_sub_one_eq_mod, Nat.shiftRight_eq_div_pow]
  omega

theorem toNat_eq (bits : UInt64) :
    bits.toNat = (if negativeOf bits then 2 ^ 63 else 0) + lowOf bits := by
  have hlow : bits.toNat % 2 ^ 63 = lowOf bits := by
    rw [← toNat_and_low, ← Nat.and_two_pow_sub_one_eq_mod]
    rfl
  have hbits := bits.toNat_lt
  rw [← hlow]
  split
  · rename_i h
    have := (negativeOf_iff bits).mp h
    omega
  · rename_i h
    have := (negativeOf_iff bits).not.mp h
    omega

/-- Below zero the order of the patterns is turned around, and the negative zero comes before the
other one. -/
theorem rankOfBits_eq (bits : UInt64) :
    Decimal.rankOfBits bits = if negativeOf bits then -(lowOf bits : ℤ) - 1 else lowOf bits := by
  have hbits := toNat_eq bits
  unfold Decimal.rankOfBits
  rw [toNat_and_low]
  change (if negativeOf bits then _ else _) = _
  split
  · rfl
  · rename_i h
    rw [if_neg h, Nat.zero_add] at hbits
    rw [hbits]

/-- No two patterns have the same rank. -/
theorem rankOfBits_inj {a b : UInt64} (h : Decimal.rankOfBits a = Decimal.rankOfBits b) :
    a = b := by
  rw [rankOfBits_eq, rankOfBits_eq] at h
  rw [← UInt64.toNat_inj, toNat_eq, toNat_eq]
  cases ha : negativeOf a <;> cases hb : negativeOf b <;> simp only [ha, hb] at h ⊢ <;>
    simp at h ⊢ <;> omega

theorem toBits_inj {x y : Float} (h : x.toBits = y.toBits) : x = y := by
  obtain ⟨⟨bits, valid⟩⟩ := x
  obtain ⟨⟨bits', valid'⟩⟩ := y
  obtain rfl : bits = bits' := h
  rfl

/-! ### Order -/

/-- The size of a finite double with these fields, in units. -/
def unitsOfFields (field fraction : ℕ) : ℕ :=
  if field = 0 then fraction else (2 ^ 52 + fraction) * 2 ^ (field - 1)

/-- For numbers without a sign the order of the patterns is that of the values. At the next exponent
the smallest mantissa stands for more than the greatest one before. -/
theorem unitsOfFields_le {E E' M M' : ℕ} (hM : M < 2 ^ 52) (hM' : M' < 2 ^ 52)
    (h : E * 2 ^ 52 + M ≤ E' * 2 ^ 52 + M') : unitsOfFields E M ≤ unitsOfFields E' M' := by
  unfold unitsOfFields
  rcases Nat.lt_trichotomy E E' with hlt | rfl | hgt
  · rw [if_neg (by omega : E' ≠ 0)]
    have hpow : 2 ^ 52 * 2 ^ (E' - 1) ≤ (2 ^ 52 + M') * 2 ^ (E' - 1) :=
      Nat.mul_le_mul_right _ (Nat.le_add_right _ _)
    refine le_trans ?_ hpow
    split
    · exact hM.le.trans (Nat.le_mul_of_pos_right _ (Nat.two_pow_pos _))
    · calc (2 ^ 52 + M) * 2 ^ (E - 1) ≤ 2 ^ 53 * 2 ^ (E - 1) := Nat.mul_le_mul_right _ (by omega)
        _ = 2 ^ (53 + (E - 1)) := (Nat.pow_add ..).symm
        _ ≤ 2 ^ (52 + (E' - 1)) := Nat.pow_le_pow_right (by decide) (by omega)
        _ = 2 ^ 52 * 2 ^ (E' - 1) := Nat.pow_add ..
  · split
    · omega
    · exact Nat.mul_le_mul_right _ (by omega)
  · omega

/-- A finite double in units of the least positive one. -/
def unitsOf : UnpackedFloat → ℤ
  | .finite .positive m e _ => units m e
  | .finite .negative m e _ => -(units m e : ℤ)
  | _ => 0

/-- Finite numbers compare as their units do. -/
theorem le_iff_unitsOf {u v : UnpackedFloat} (hu : u.isFinite = true) (hv : v.isFinite = true)
    (cu : IsCanonical u) (cv : IsCanonical v) : u.le v = true ↔ unitsOf u ≤ unitsOf v := by
  rcases cases_of_isFinite hu with ⟨s, rfl⟩ | ⟨s, m, e, hm, rfl⟩ <;>
    rcases cases_of_isFinite hv with ⟨s', rfl⟩ | ⟨s', m', e', hm', rfl⟩
  case inl.inl => simp [UnpackedFloat.le, UnpackedFloat.compare, unitsOf]
  case inl.inr =>
    have hpos := units_pos hm' e'
    cases s' <;> simp [UnpackedFloat.le, UnpackedFloat.compare, unitsOf]
    omega
  case inr.inl =>
    have hpos := units_pos hm e
    cases s <;> simp [UnpackedFloat.le, UnpackedFloat.compare, unitsOf]
    omega
  case inr.inr =>
    have hpos := units_pos hm e
    have hpos' := units_pos hm' e'
    cases s <;> cases s'
    case negative.negative =>
      rw [UnpackedFloat.le, UnpackedFloat.compare, Canonical.compare_eq cu cv,
        Nat.compare_swap]
      simp [Nat.isLE_compare, unitsOf]
    case positive.positive =>
      rw [UnpackedFloat.le, UnpackedFloat.compare, Canonical.compare_eq cu cv]
      simp [Nat.isLE_compare, unitsOf]
    all_goals simp [UnpackedFloat.le, UnpackedFloat.compare, unitsOf]
    all_goals omega

/-- The value of a finite double in units of the smallest one, computed from its fields. -/
theorem unitsOf_unpack {x : Float} (fx : x.isFinite = true) :
    unitsOf x.toModel.unpack =
      (if negativeOf x.toBits then -1 else 1) *
        (unitsOfFields (fieldOf x.toBits) (fractionOf x.toBits) : ℤ) := by
  have hfinite : x.toModel.unpack.isFinite = true := fx
  unfold unitsOfFields
  rw [unpack_eq] at hfinite ⊢
  split
  · rename_i hgreatest
    rw [if_pos hgreatest] at hfinite
    split at hfinite <;> cases hfinite
  · split
    · split
      · rename_i hnone
        simp [hnone, unitsOf]
      · cases negativeOf x.toBits <;> simp [unitsOf, units, signOf]
    · have hexp : ((fieldOf x.toBits : ℤ) - 1075 + 1074).toNat = fieldOf x.toBits - 1 := by omega
      cases negativeOf x.toBits <;> simp [unitsOf, units, signOf, hexp]

theorem le_iff_of_isFinite {x y : Float} (fx : x.isFinite = true) (fy : y.isFinite = true) :
    x ≤ y ↔ unitsOf x.toModel.unpack ≤ unitsOf y.toModel.unpack := by
  rw [le_iff]
  exact le_iff_unitsOf fx fy (isCanonical_unpack _) (isCanonical_unpack _)

/-- Finite doubles stand in the order of their ranks. -/
theorem le_of_rank_le {x y : Float} (fx : x.isFinite = true) (fy : y.isFinite = true)
    (h : Decimal.rankOfBits x.toBits ≤ Decimal.rankOfBits y.toBits) : x ≤ y := by
  rw [rankOfBits_eq, rankOfBits_eq] at h
  rw [le_iff_of_isFinite fx fy, unitsOf_unpack fx, unitsOf_unpack fy]
  have hlow := fractionOf_lt x.toBits
  have hlow' := fractionOf_lt y.toBits
  cases hx : negativeOf x.toBits <;> cases hy : negativeOf y.toBits <;> rw [hx, hy] at h <;>
    simp only [Bool.false_eq_true, ↓reduceIte] at h ⊢
  case false.false =>
    have hle := unitsOfFields_le hlow hlow' (by exact_mod_cast h)
    omega
  case false.true => omega
  case true.false => omega
  case true.true =>
    have hle : unitsOfFields (fieldOf y.toBits) (fractionOf y.toBits) ≤
        unitsOfFields (fieldOf x.toBits) (fractionOf x.toBits) :=
      unitsOfFields_le hlow' hlow (by unfold lowOf at h; omega)
    omega

end Presynth.Double
