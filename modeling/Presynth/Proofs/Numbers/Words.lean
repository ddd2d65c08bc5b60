import Mathlib
import Presynth.Proofs.Numbers.BitPattern
import Presynth.Proofs.Numbers.MonotoneArithmetic
/-!
# Doubles as words

The word of a double that is not below zero is its integer part, and the greatest word if that is
too large. A double that was rounded to an integer is that integer itself, so its word is the
nearest even integer.

Main statements: `toWord_eq`, `toWord_roundEven`, `toWord_roundEven_le` and `toWord_ofNat`.
-/

namespace Presynth.Double

open Float.Model Float.Model.UnpackedFloat

variable {m : ℕ} {e : ℤ}

/-! ### Integer parts -/

theorem toNat_ofNatClamp (n : ℕ) : (UInt64.ofNatClamp n).toNat = min n maxWord := by
  unfold UInt64.ofNatClamp
  split
  · rename_i h
    rw [UInt64.toNat_ofNatLT]
    simp [maxWord, UInt64.size] at h ⊢
    omega
  · rename_i h
    simp [maxWord, UInt64.size] at h ⊢
    omega

/-- The integer part of `m * 2 ^ e`. -/
theorem roundToInt_eq (m : ℕ) (e : ℤ) :
    roundToInt .positive m e = (⌊(m : ℚ) * 2 ^ e⌋₊ : ℤ) := by
  have hshift (k l : ℕ) :
      ((ExtendedMantissa.mk (m <<< l) false false >>> k).mantissa : ℤ) =
        (m * 2 ^ l / 2 ^ k : ℕ) := by
    rw [mantissa_shiftRight, Nat.shiftLeft_eq]
  refine (hshift _ _).trans ?_
  rcases le_total 0 e with he | he
  · obtain ⟨k, rfl⟩ := Int.eq_ofNat_of_zero_le he
    have hzero : (0 - ((k : ℤ) - ((k : ℤ) - 0).toNat)).toNat = 0 := by omega
    have hk : ((k : ℤ) - 0).toNat = k := by omega
    have hwhole : (m : ℚ) * 2 ^ k = (m * 2 ^ k : ℕ) := by push_cast; rfl
    rw [hzero, hk, pow_zero, Nat.div_one, zpow_natCast, hwhole, Nat.floor_natCast]
  · obtain ⟨k, hk⟩ := Int.eq_ofNat_of_zero_le (Int.neg_nonneg_of_nonpos he)
    obtain rfl : e = -(k : ℤ) := by omega
    have hzero : (-(k : ℤ) - 0).toNat = 0 := by omega
    have hk : (0 - (-(k : ℤ) - ((0 : ℕ) : ℤ))).toNat = k := by omega
    have hquotient : (m : ℚ) / 2 ^ k = (m : ℚ) / (2 ^ k : ℕ) := by push_cast; rfl
    rw [hzero, hk, pow_zero, Nat.mul_one, zpow_neg, zpow_natCast, ← div_eq_mul_inv, hquotient,
      Nat.floor_div_eq_div]

/-- The word of a double that is not below zero is its integer part, or the greatest word. -/
theorem toWord_eq {x : Float} (hx : 0 ≤ x) (fx : x.isFinite = true) :
    Quantity.toWord x = min ⌊size x⌋₊ maxWord := by
  show (UInt64.ofNatClamp (x.toModel.unpack.toInt 0 (UInt64.size - 1)).toNat).toNat = _
  rw [toNat_ofNatClamp, size]
  rcases cases_of_nonneg hx fx with ⟨s, hu⟩ | ⟨m, e, hm, hu⟩
  · simp [hu, absolute, UnpackedFloat.toInt]
  · rw [hu, UnpackedFloat.toInt, roundToInt_eq, absolute, Int.toNat_natCast]

theorem toWord_infinity {x : Float} (hx : x.toModel.unpack = .infinity .positive) :
    Quantity.toWord x = maxWord := by
  show (UInt64.ofNatClamp (x.toModel.unpack.toInt 0 (UInt64.size - 1)).toNat).toNat = _
  rw [hx]
  rfl

theorem toWord_le (x : Float) : Quantity.toWord x ≤ maxWord := by
  have hlt := x.toUInt64.toNat_lt
  show x.toUInt64.toNat ≤ _
  unfold maxWord
  omega

/-- A whole number of 53 bits times a power of two is its own double. -/
theorem size_ofNat_shift {k : ℕ} (hm : m < 2 ^ 53) (hk : k ≤ 971) :
    (Float.ofNat (m * 2 ^ k)).isFinite = true ∧ size (Float.ofNat (m * 2 ^ k)) = m * 2 ^ k := by
  have hdouble : IsDoubleOf (m * 2 ^ (k : ℤ)) (Float.ofNat (m * 2 ^ k)) := by
    rw [zpow_natCast]
    exact_mod_cast isDoubleOf_ofNat (m * 2 ^ k)
  have hlt : (m : ℚ) * 2 ^ (k : ℤ) < 2 ^ 1024 := by
    rw [zpow_natCast]
    calc (m : ℚ) * 2 ^ k < 2 ^ 53 * 2 ^ k := by gcongr; exact_mod_cast hm
      _ = 2 ^ (53 + k) := (pow_add ..).symm
      _ ≤ 2 ^ 1024 := pow_le_pow_right₀ one_le_two (by omega)
  obtain ⟨hfinite, hsize⟩ := hdouble.size_eq hm (by omega) hlt
  exact ⟨hfinite, by rw [hsize, zpow_natCast]⟩

/-- Counts of up to 53 bits are doubles without rounding. -/
theorem size_ofNat {n : ℕ} (hn : n ≤ 2 ^ 53) :
    (Float.ofNat n).isFinite = true ∧ size (Float.ofNat n) = n := by
  rcases hn.lt_or_eq with hlt | rfl
  · simpa using size_ofNat_shift (k := 0) hlt (by decide)
  · have hhalf := size_ofNat_shift (m := 2 ^ 52) (k := 1) (by decide) (by decide)
    exact ⟨hhalf.1, hhalf.2.trans (by norm_num)⟩

theorem toWord_ofNat {n : ℕ} (hn : n ≤ 2 ^ 53) : Quantity.toWord (Float.ofNat n) = n := by
  obtain ⟨hfinite, hsize⟩ := size_ofNat hn
  rw [toWord_eq (isDoubleOf_ofNat n).nonneg hfinite, hsize, Nat.floor_natCast]
  unfold maxWord
  omega

/-! ### Nearest integers -/

/-- The quotient with its remainder compared to half of the divisor is the nearest integer, the even
one at a tie. -/
theorem isNearestEven_roundQuotient (n : ℕ) {d : ℕ} (hd : 0 < d) :
    IsNearestEven (n / d) (Decimal.roundQuotient n d) := by
  have hrounded : (ExtendedMantissa.ofMantissaAndAccuracy (n / d)
      (accuracyOfFraction (n % d) d)).roundedMantissa = Decimal.roundQuotient n d := by
    unfold Decimal.roundQuotient accuracyOfFraction
    generalize n / d = q, n % d = r
    rcases lt_trichotomy (2 * r) d with hlt | heq | hgt
    · rw [compare_lt_iff_lt.mpr hlt, if_pos hlt]
      split <;> rfl
    · rw [compare_eq_iff_eq.mpr heq, if_neg (by omega), if_neg (by omega), if_neg (by omega)]
      show q + q % 2 = _
      split <;> omega
    · rw [compare_gt_iff_gt.mpr hgt, if_neg (by omega), if_neg (by omega), if_pos hgt]
      rfl
  rw [← hrounded]
  exact (denotes_fraction n hd).isNearestEven

theorem roundQuotient_le (n d : ℕ) : Decimal.roundQuotient n d ≤ n / d + 1 := by
  unfold Decimal.roundQuotient
  dsimp only
  split
  · omega
  · split
    · omega
    · split <;> omega

/-- The integer that a double is rounded to. -/
theorem isNearestEven_binary (negative : Bool) (m : ℕ) (e : ℤ) :
    IsNearestEven (m * 2 ^ e) (Decimal.Binary.roundEven ⟨negative, m, e⟩) := by
  unfold Decimal.Binary.roundEven
  split
  · rename_i he
    obtain ⟨k, hk⟩ := Int.eq_ofNat_of_zero_le (a := -e) (by simp at he; omega)
    obtain rfl : e = -(k : ℤ) := by omega
    have hnearest := isNearestEven_roundQuotient m (d := 1 <<< k) (by simp [Nat.shiftLeft_eq])
    rw [zpow_neg, zpow_natCast, ← div_eq_mul_inv]
    simpa [Nat.shiftLeft_eq] using hnearest
  · rename_i he
    obtain ⟨k, hk⟩ := Int.eq_ofNat_of_zero_le (a := e) (by simpa using he)
    subst hk
    have hwhole : (m : ℚ) * 2 ^ (k : ℤ) = ((m <<< k : ℕ) : ℤ) := by
      rw [Nat.shiftLeft_eq]
      push_cast
      rfl
    rw [hwhole]
    exact isNearestEven_intCast _

/-- What a double is rounded to is its own double. -/
theorem exists_binary_roundEven (negative : Bool) (h : Canonical m e) (he : e ≤ 971) :
    ∃ m' k, Decimal.Binary.roundEven ⟨negative, m, e⟩ = m' * 2 ^ k ∧ m' < 2 ^ 53 ∧ k ≤ 971 := by
  have hbits := h.bits
  unfold Decimal.Binary.roundEven
  split
  · rename_i hneg
    refine ⟨_, 0, (Nat.mul_one _).symm, (roundQuotient_le _ _).trans_lt ?_, by decide⟩
    have htwo : 2 ≤ 1 <<< (-e).toNat := by
      rw [Nat.shiftLeft_eq, Nat.one_mul]
      exact Nat.le_self_pow (n := (-e).toNat) (by simp at hneg; omega) 2
    calc m / 1 <<< (-e).toNat + 1 ≤ m / 2 + 1 :=
          Nat.add_le_add_right (Nat.div_le_div_left htwo two_pos) 1
      _ < 2 ^ 53 := by omega
  · rename_i hnonneg
    exact ⟨m, e.toNat, Nat.shiftLeft_eq _ _, hbits, by omega⟩

/-- Rounding a double that is not below zero to an integer and taking the word gives the nearest
integer, or the greatest word. -/
theorem toWord_roundEven {x : Float} (hx : 0 ≤ x) (fx : x.isFinite = true) :
    ∃ k : ℕ, IsNearestEven (size x) k ∧
      Quantity.toWord (Quantity.roundEven x : Float) = min k maxWord := by
  show ∃ k : ℕ, _ ∧ Quantity.toWord (Decimal.roundEven x) = _
  unfold Decimal.roundEven
  rcases cases_of_nonneg hx fx with ⟨s, hu⟩ | ⟨m, e, hm, hu⟩
  · refine ⟨0, ?_, ?_⟩
    · rw [size, hu]
      exact_mod_cast isNearestEven_intCast 0
    · rw [reading_of_unpack_zero hu]
      cases negativeOf x.toBits with
      | false => exact (by decide +kernel : Quantity.toWord (Float.ofNat 0) = 0)
      | true => exact (by decide +kernel : Quantity.toWord (-Float.ofNat 0) = 0)
  · obtain ⟨hsign, hreading⟩ := reading_of_unpack hu
    obtain ⟨hcanon, hexp⟩ := canonical_of_unpack hu
    have hnegative : negativeOf x.toBits = false := by
      cases hx : negativeOf x.toBits with
      | false => rfl
      | true =>
          rw [hx] at hsign
          cases hsign
    -- the rounded integer may have more than 53 bits, but then it is a shifted mantissa
    have hnearest := isNearestEven_binary false m e
    obtain ⟨m', k, hwhole, hbits, hk⟩ := exists_binary_roundEven false hcanon hexp
    obtain ⟨hfinite, hsize⟩ := size_ofNat_shift hbits hk
    refine ⟨m' * 2 ^ k, ?_, ?_⟩
    · rw [size, hu, ← hwhole]
      exact hnearest
    · rw [hreading, hnegative]
      simp only [Bool.false_eq_true, if_false, hwhole]
      have hnat : (m' : ℚ) * 2 ^ k = (m' * 2 ^ k : ℕ) := by push_cast; rfl
      rw [toWord_eq (isDoubleOf_ofNat _).nonneg hfinite, hsize, hnat, Nat.floor_natCast]

theorem roundEven_of_not_isFinite {x : Float} (fx : ¬ x.isFinite = true) :
    (Quantity.roundEven x : Float) = x := by
  show Decimal.roundEven x = x
  unfold Decimal.roundEven
  split
  · rename_i b hb
    exact absurd (isFinite_iff_reading.mpr ⟨b, hb⟩) fx
  · rfl

theorem toWord_roundEven_infinity {x : Float} (hx : x.toModel.unpack = .infinity .positive) :
    Quantity.toWord (Quantity.roundEven x : Float) = maxWord := by
  rw [roundEven_of_not_isFinite (not_isFinite_of_infinity hx), toWord_infinity hx]

/-- Greater doubles are not rounded to lesser words. -/
theorem toWord_roundEven_le {x y : Float} (hx : 0 ≤ x) (hxy : x ≤ y) :
    Quantity.toWord (Quantity.roundEven x : Float) ≤ Quantity.toWord (Quantity.roundEven y) := by
  have hy := ((le_iff_of_nonneg hx).mp hxy).1
  rcases isFinite_or_infinity hy with fy | hinf
  · have fx := isFinite_of_le hx hxy fy
    obtain ⟨k, hk, hword⟩ := toWord_roundEven hx fx
    obtain ⟨l, hl, hword'⟩ := toWord_roundEven hy fy
    rw [hword, hword']
    have hkl := hk.mono hl ((size_le_iff hx hy fx fy).mp hxy)
    omega
  · rw [toWord_roundEven_infinity hinf]
    exact toWord_le _

end Presynth.Double
