import Mathlib
import Presynth.Proofs.Numbers.Words
import Presynth.Slack.Calibration
/-!
# Where percentiles stand

The index of a percentile is the fraction of the numbers before it, rounded to the nearest integer,
but not beyond the last number. In doubles neither a tenth nor nine tenths is exact, and their
products are rounded. For less than `2 ^ 49` numbers that does not show: the index is that of the
exact fraction.

Main statements: `isIndexOf_percentileIndex` (exact fractions), `Double.isIndexOf_percentileIndex`
(doubles), and `percentileIndex_le` and `Double.percentileIndex_le` (order).
-/

namespace Presynth

/-- The part of the numbers before a percentile, exactly. -/
def Percentile.part : Percentile → ℚ
  | P10 => 1 / 10
  | P50 => 1 / 2
  | P90 => 9 / 10

/-- The index of a part of `n` numbers: the nearest integer to so many of them, but not beyond the
last number. -/
def IsIndexOf (part : ℚ) (n i : ℕ) : Prop :=
  ∃ k : ℕ, IsNearestEven (part * n) k ∧ i = min k (n - 1)

theorem Percentile.fraction_eq_part (p : Percentile) : (p.fraction : ℚ) = p.part := by
  cases p <;> norm_num [Percentile.fraction, Percentile.part]

theorem Percentile.fraction_mul_nonneg (p : Percentile) (n : ℕ) :
    0 ≤ (p.fraction : ℚ) * n := by
  rw [p.fraction_eq_part]
  cases p <;> norm_num [Percentile.part]

/-! ### Exact fractions -/

/-- An exact product is rounded to the nearest integer, and cut off only beyond the greatest word.
-/
theorem toWord_roundEven_rat {x : ℚ} (hx : 0 ≤ x) :
    ∃ k : ℕ, IsNearestEven x k ∧ Quantity.toWord (Quantity.roundEven x : ℚ) = min k maxWord := by
  have hnearest := isNearestEven_roundRat x
  have hnonneg : 0 ≤ roundRat x := (isNearestEven_intCast 0).mono hnearest (by exact_mod_cast hx)
  obtain ⟨k, hk⟩ := Int.eq_ofNat_of_zero_le hnonneg
  refine ⟨k, hk ▸ hnearest, ?_⟩
  show min (Rat.floor (roundRat x)).toNat maxWord = _
  rw [hk, Rat.floor_intCast, Int.toNat_natCast]

theorem isIndexOf_percentileIndex (p : Percentile) {n : ℕ} (hn : n ≤ maxWord) :
    IsIndexOf p.part n (percentileIndex n (p.fraction : ℚ)) := by
  obtain ⟨k, hk, hword⟩ := toWord_roundEven_rat (p.fraction_mul_nonneg n)
  refine ⟨k, p.fraction_eq_part ▸ hk, ?_⟩
  rw [percentileIndex, hword]
  omega

/-! ### Doubles -/

namespace Double

/-- The fractions are hardly greater in doubles. -/
theorem fraction_spec (p : Percentile) :
    0 < (p.fraction : Float) ∧ (p.fraction : Float).isFinite = true ∧
      p.part ≤ size p.fraction ∧ size p.fraction ≤ p.part * (1 + 1 / 2 ^ 54) := by
  cases p with
  | P10 =>
      have hunpack : (Percentile.P10.fraction : Float).toModel.unpack =
          .finite .positive 7205759403792794 (-56) (by decide) := rfl
      refine ⟨by decide +kernel, by decide +kernel, ?_⟩
      rw [size, hunpack]
      norm_num [absolute, Percentile.part]
  | P50 =>
      have hunpack : (Percentile.P50.fraction : Float).toModel.unpack =
          .finite .positive 4503599627370496 (-53) (by decide) := rfl
      refine ⟨by decide +kernel, by decide +kernel, ?_⟩
      rw [size, hunpack]
      norm_num [absolute, Percentile.part]
  | P90 =>
      have hunpack : (Percentile.P90.fraction : Float).toModel.unpack =
          .finite .positive 8106479329266893 (-53) (by decide) := rfl
      refine ⟨by decide +kernel, by decide +kernel, ?_⟩
      rw [size, hunpack]
      norm_num [absolute, Percentile.part]

variable {v q : ℚ} {t k l : ℤ}

/-- Tenths that are no halves are a tenth away from a half. -/
theorem abs_sub_lt_half {n : ℤ} (hv : 10 * v = n) (hhalf : ¬ ∃ w : ℤ, 2 * v = w)
    (hnear : |v - l| < 6 / 10) : |v - l| < 1 / 2 := by
  obtain ⟨d, rfl⟩ : ∃ d, n = 10 * l + d := ⟨n - 10 * l, by omega⟩
  push_cast at hv
  have hdistance : |v - l| = |(d : ℚ)| / 10 := by
    have hd : v - l = d / 10 := by linarith
    rw [hd, abs_div, abs_of_pos (by norm_num : (0 : ℚ) < 10)]
  have hsix : |d| < 6 := by
    have : |(d : ℚ)| < 6 := by linarith
    exact_mod_cast this
  have hfive : |d| < 5 := by
    have habove : d ≠ 5 := by
      rintro rfl
      exact hhalf ⟨2 * l + 1, by push_cast at hv ⊢; linarith⟩
    have hbelow : d ≠ -5 := by
      rintro rfl
      exact hhalf ⟨2 * l - 1, by push_cast at hv ⊢; linarith⟩
    rw [abs_lt] at hsix ⊢
    omega
  have : |(d : ℚ)| < 5 := by exact_mod_cast hfive
  linarith

/-- Halves are kept where rounding keeps more than a bit behind the point. -/
theorem eq_of_half {n : ℤ} (hv : 2 * v = n) (hlt : q < 2 ^ 52) (hq : v ≤ q)
    (hq' : q ≤ v * (1 + 1 / 2 ^ 54)) (ht : IsTarget q t) (hk : IsNearestEven (q / 2 ^ t) k) :
    k * 2 ^ t = v := by
  have hpow : (0 : ℚ) < 2 ^ t := zpow_pos two_pos t
  -- a half is a multiple of the last bit that is kept
  have ht1 : t ≤ -1 := ht.le_of_lt (by decide) (hlt.trans_eq (by norm_num))
  obtain ⟨d, hd⟩ : ∃ d : ℕ, t = -1 - d := ⟨(-1 - t).toNat, by omega⟩
  have hwhole : v / 2 ^ t = ((n * 2 ^ d : ℤ) : ℚ) := by
    rw [hd, zpow_sub₀ two_ne_zero, zpow_natCast]
    push_cast
    rw [← hv]
    field_simp
  have hnear : |q / 2 ^ t - ((n * 2 ^ d : ℤ) : ℚ)| < 1 / 2 := by
    rw [← hwhole, ← sub_div, abs_of_nonneg (div_nonneg (sub_nonneg.mpr hq) hpow.le),
      div_lt_iff₀ hpow]
    have hbits := ht.lt
    rw [zpow_add₀ two_ne_zero] at hbits
    norm_num at hbits hq' ⊢
    linarith
  have hk' := (isNearestEven_of_abs_lt hnear).unique hk
  rw [← hk', ← hwhole, div_mul_cancel₀ _ hpow.ne']

/-- What is nearly so many tenths, and is rounded, is so many tenths to the nearest integer. -/
theorem isNearestEven_of_tenths {n : ℤ} (hv : 10 * v = n) (hlt : v < 2 ^ 49)
    (hq : v ≤ q) (hq' : q ≤ v * (1 + 1 / 2 ^ 54)) (ht : IsTarget q t)
    (hk : IsNearestEven (q / 2 ^ t) k) (hl : IsNearestEven (k * 2 ^ t) l) : IsNearestEven v l := by
  by_cases hhalf : ∃ w : ℤ, 2 * v = w
  · obtain ⟨w, hw⟩ := hhalf
    have hq52 : q < 2 ^ 52 := by
      norm_num at hlt hq' ⊢
      linarith
    rwa [eq_of_half hw hq52 hq hq' ht hk] at hl
  · have hlast : (2 : ℚ) ^ t ≤ 1 / 8 := by
      have ht3 : t ≤ -3 := by
        refine ht.le_of_lt (by decide) ?_
        norm_num at hlt hq' ⊢
        linarith
      exact (zpow_le_zpow_right₀ one_le_two ht3).trans_eq (by norm_num)
    have hclose : |v - q| ≤ 1 / 32 := by
      rw [abs_sub_comm, abs_of_nonneg (sub_nonneg.mpr hq)]
      norm_num at hlt hq' ⊢
      linarith
    -- with both roundings less than a tenth is lost beside a half
    have hlost : |v - l| < 6 / 10 :=
      calc |v - l| ≤ |v - q| + |q - l| := abs_sub_le ..
        _ ≤ |v - q| + (|q - k * 2 ^ t| + |(k : ℚ) * 2 ^ t - l|) := by gcongr; exact abs_sub_le ..
        _ ≤ 1 / 32 + (1 / 8 / 2 + 1 / 2) := by
            gcongr
            · exact (hk.abs_sub_mul_le (zpow_pos two_pos t)).trans (by gcongr)
            · exact hl.within_half
        _ < 6 / 10 := by norm_num
    exact isNearestEven_of_abs_lt (abs_sub_lt_half hv hhalf hlost)

theorem nonneg_fraction_mul (p : Percentile) (n : ℕ) :
    0 ≤ (p.fraction : Float) * (n : Float) :=
  nonneg_mul (fraction_spec p).1 (fraction_spec p).2.1 (nonneg_natCast n)

/-- The index in doubles is that of the exact fraction. -/
theorem isIndexOf_percentileIndex (p : Percentile) {n : ℕ} (hn : n ≤ 2 ^ 49) :
    IsIndexOf p.part n (percentileIndex n (p.fraction : Float)) := by
  obtain ⟨hpos, hfinite, hpart, hpart'⟩ := fraction_spec p
  obtain ⟨hnfinite, hnsize⟩ := size_ofNat (n := n) (by omega)
  have hnn : (0 : ℚ) ≤ n := Nat.cast_nonneg n
  have hn' : (n : ℚ) ≤ 2 ^ 49 := by exact_mod_cast hn
  have htenth : ∃ k : ℤ, 10 * (p.part * n) = k := by
    cases p with
    | P10 => exact ⟨n, by rw [Percentile.part]; push_cast; ring⟩
    | P50 => exact ⟨5 * n, by rw [Percentile.part]; push_cast; ring⟩
    | P90 => exact ⟨9 * n, by rw [Percentile.part]; push_cast; ring⟩
  have hone : p.part ≤ 9 / 10 := by cases p <;> norm_num [Percentile.part]
  have hlt : p.part * n < 2 ^ 49 :=
    (mul_le_mul hone hn' hnn (by norm_num)).trans_lt (by norm_num)
  obtain ⟨tenths, htenths⟩ := htenth
  have hproduct : IsDoubleOf (size p.fraction * n) ((p.fraction : Float) * (n : Float)) := by
    rw [← hnsize]
    exact isDoubleOf_mul (nonneg_of_pos hpos hfinite) (nonneg_natCast n) hfinite hnfinite
  have hlower : p.part * n ≤ size p.fraction * n := mul_le_mul_of_nonneg_right hpart hnn
  have hupper : size p.fraction * n ≤ p.part * n * (1 + 1 / 2 ^ 54) := by
    rw [mul_right_comm]
    exact mul_le_mul_of_nonneg_right hpart' hnn
  have hlarge : size p.fraction * n ≤ 2 ^ 1023 := by
    refine le_trans (b := 2 ^ 50) ?_ (pow_le_pow_right₀ one_le_two (by decide))
    norm_num at hlt hupper ⊢
    linarith
  obtain ⟨hxfinite, t, k, ht, hk, hsize⟩ := hproduct.nearest hlarge
  obtain ⟨l, hl, hword⟩ := toWord_roundEven (nonneg_fraction_mul p n) hxfinite
  refine ⟨l, ?_, ?_⟩
  · rw [hsize] at hl
    exact isNearestEven_of_tenths htenths hlt hlower hupper ht hk hl
  · rw [percentileIndex, hword]
    unfold maxWord
    omega

end Double

/-! ### Order -/

/-- Percentiles in the order in which they are met from the greatest number on. -/
def Percentile.place : Percentile → ℕ
  | P10 => 0
  | P50 => 1
  | P90 => 2

theorem Double.percentileIndex_le {p p' : Percentile} (h : p.place ≤ p'.place) (n : ℕ) :
    percentileIndex n (p.fraction : Float) ≤ percentileIndex n (p'.fraction : Float) := by
  have hle : (p.fraction : Float) ≤ p'.fraction := by
    cases p <;> cases p' <;> first | decide +kernel | exact absurd h (by decide)
  obtain ⟨hpos, hfinite, -⟩ := fraction_spec p
  obtain ⟨hpos', hfinite', -⟩ := fraction_spec p'
  refine min_le_min_right _ (toWord_roundEven_le (nonneg_fraction_mul p n) ?_)
  exact mul_le_mul_of_le hpos hfinite hpos' hfinite' hle (nonneg_natCast n)

theorem percentileIndex_le {p p' : Percentile} (h : p.place ≤ p'.place) (n : ℕ) :
    percentileIndex n (p.fraction : ℚ) ≤ percentileIndex n (p'.fraction : ℚ) := by
  have hle : (p.fraction : ℚ) ≤ p'.fraction := by
    rw [p.fraction_eq_part, p'.fraction_eq_part]
    cases p <;> cases p' <;> first | exact absurd h (by decide) | norm_num [Percentile.part]
  have hmul : (p.fraction : ℚ) * n ≤ p'.fraction * n := mul_le_mul_of_nonneg_right hle n.cast_nonneg
  obtain ⟨k, hk, hword⟩ := toWord_roundEven_rat (p.fraction_mul_nonneg n)
  obtain ⟨k', hk', hword'⟩ := toWord_roundEven_rat (p'.fraction_mul_nonneg n)
  have hkk := hk.mono hk' hmul
  unfold percentileIndex
  rw [hword, hword']
  omega

end Presynth
