import Mathlib
import Presynth.Proofs.Numbers.Finite
import Presynth.Proofs.Numbers.NearestEven
/-!
# Rounding to the nearest double

An operation on doubles first finds a mantissa that is cut off, with two residual bits that say how
the rest compares with a half. The mantissa is then shifted to 53 bits, or to the least exponent,
and rounded by the residual bits. That rounds the exact number to the nearest multiple of the last
bit, a half going to the even neighbour, and so greater numbers are not rounded to lesser ones.

Main statements: `Denotes.isNearestEven` (rounding by residual bits), `roundsTo_roundWithAccuracy`
(rounding a mantissa), `RoundsTo.absolute_le` and `IsDoubleOf.le` (order).
-/

namespace Presynth.Double

open Float.Model Float.Model.UnpackedFloat

/-! ### Residual bits -/

/-- The numbers that a mantissa with its residual bits stands for. The round bit is worth a half,
and the sticky bit anything less. -/
def Denotes (em : ExtendedMantissa) (x : ℚ) : Prop :=
  let least : ℚ := em.mantissa + if em.roundBit then 1 / 2 else 0
  if em.stickyBit then least < x ∧ x < least + 1 / 2 else x = least

/-- One step of a shift halves the value. The bit that falls out goes to the round bit, and that one
to the sticky bit. -/
theorem Denotes.shiftRightOne {em : ExtendedMantissa} {x : ℚ} (h : Denotes em x) :
    Denotes em.shiftRightOne (x / 2) := by
  obtain ⟨m, round, sticky⟩ := em
  obtain ⟨k, rfl | rfl⟩ := Nat.even_or_odd' m
  · cases round <;> cases sticky <;>
      simp only [Denotes, ExtendedMantissa.shiftRightOne] at h ⊢ <;> simp at h ⊢ <;> grind
  · have hhalf : (2 * k + 1) / 2 = k := by omega
    cases round <;> cases sticky <;>
      simp only [Denotes, ExtendedMantissa.shiftRightOne, hhalf] at h ⊢ <;> simp at h ⊢ <;> grind

theorem Denotes.shiftRight {em : ExtendedMantissa} {x : ℚ} (h : Denotes em x) (k : ℕ) :
    Denotes (em >>> k) (x / 2 ^ k) := by
  induction k with
  | zero =>
      rw [pow_zero, div_one]
      exact h
  | succ k ih =>
      rw [pow_succ, ← div_div]
      exact ih.shiftRightOne

theorem Denotes.bounds {em : ExtendedMantissa} {x : ℚ} (h : Denotes em x) :
    (em.mantissa : ℚ) ≤ x ∧ x < em.mantissa + 1 := by
  obtain ⟨m, round, sticky⟩ := em
  cases round <;> cases sticky <;> simp [Denotes] at h ⊢ <;> constructor <;> linarith

/-- Rounding a mantissa by its residual bits is rounding to the nearest integer. -/
theorem Denotes.isNearestEven {em : ExtendedMantissa} {x : ℚ} (h : Denotes em x) :
    IsNearestEven x em.roundedMantissa := by
  obtain ⟨m, round, sticky⟩ := em
  -- only a half, where the sticky bit is not set, leaves a choice between two neighbours
  cases round <;> cases sticky <;> simp [Denotes] at h
  case false.false =>
    rw [h]
    exact isNearestEven_intCast m
  case false.true =>
    have hnear : |x - (m : ℤ)| < 1 / 2 := by
      rw [abs_lt, Int.cast_natCast]
      constructor <;> linarith
    exact isNearestEven_of_abs_lt hnear
  case true.false =>
    have heven : (m + m % 2) % 2 = 0 := by omega
    have hnear : |x - ((m + m % 2 : ℕ) : ℤ)| ≤ 1 / 2 := by
      rw [abs_le, h]
      rcases Nat.mod_two_eq_zero_or_one m with hm | hm <;> rw [hm] <;> push_cast <;>
        constructor <;> linarith
    exact isNearestEven_of_abs_le hnear fun _ => by exact_mod_cast heven
  case true.true =>
    have hnear : |x - ((m + 1 : ℕ) : ℤ)| < 1 / 2 := by
      rw [abs_lt]
      push_cast
      constructor <;> linarith
    exact isNearestEven_of_abs_lt hnear

theorem denotes_exact (m : ℕ) : Denotes (.ofMantissaAndAccuracy m .exact) m := by
  simp [Denotes, ExtendedMantissa.ofMantissaAndAccuracy]

/-- The residual bits of a quotient say how its remainder compares with half of the divisor. -/
theorem denotes_fraction (m : ℕ) {d : ℕ} (hd : 0 < d) :
    Denotes (.ofMantissaAndAccuracy (m / d) (accuracyOfFraction (m % d) d)) (m / d) := by
  have hpos : (0 : ℚ) < d := by exact_mod_cast hd
  have hsplit : (m : ℚ) / d = (m / d : ℕ) + ((m % d : ℕ) : ℚ) / d := by
    have hdivmod : (d : ℚ) * (m / d : ℕ) + (m % d : ℕ) = m := by exact_mod_cast Nat.div_add_mod m d
    field_simp
    linarith
  have hlt : ((m % d : ℕ) : ℚ) < d := by exact_mod_cast Nat.mod_lt m hd
  rw [hsplit]
  generalize m / d = q, m % d = r at hlt
  unfold accuracyOfFraction
  split
  · rename_i hr
    simp [hr, Denotes, ExtendedMantissa.ofMantissaAndAccuracy]
  · rename_i hr
    have hrpos : (0 : ℚ) < r := by exact_mod_cast Nat.pos_of_ne_zero hr
    -- the two bits tell apart what lies below, at and above one half
    rcases lt_trichotomy (2 * r) d with hhalf | hhalf | hhalf
    · have hhalf' : (2 : ℚ) * r < d := by exact_mod_cast hhalf
      rw [compare_lt_iff_lt.mpr hhalf]
      have hfrac : (r : ℚ) / d < 1 / 2 := by rw [div_lt_div_iff₀ hpos two_pos]; linarith
      have hfrac' : (0 : ℚ) < r / d := div_pos hrpos hpos
      simp [Denotes, ExtendedMantissa.ofMantissaAndAccuracy]
      constructor <;> linarith
    · have hhalf' : (2 : ℚ) * r = d := by exact_mod_cast hhalf
      rw [compare_eq_iff_eq.mpr hhalf]
      have hfrac : (r : ℚ) / d = 1 / 2 := by rw [div_eq_div_iff hpos.ne' two_ne_zero]; linarith
      simp [Denotes, ExtendedMantissa.ofMantissaAndAccuracy, hfrac]
    · have hhalf' : (d : ℚ) < 2 * r := by exact_mod_cast hhalf
      rw [compare_gt_iff_gt.mpr hhalf]
      have hfrac : 1 / 2 < (r : ℚ) / d := by rw [div_lt_div_iff₀ two_pos hpos]; linarith
      have hfrac' : (r : ℚ) / d < 1 := (div_lt_one hpos).mpr hlt
      simp [Denotes, ExtendedMantissa.ofMantissaAndAccuracy]
      constructor <;> linarith

/-! ### Exponents -/

/-- The exponent at which a number keeps 53 bits, or fewer if it is the least exponent. -/
structure IsTarget (q : ℚ) (t : ℤ) : Prop where
  least : -1074 ≤ t
  lt : q < 2 ^ (t + 53)
  full : 2 ^ (t + 52) ≤ q ∨ t = -1074

variable {q r : ℚ} {s t : ℤ} {m : ℕ} {e : ℤ}

/-- A number has no greater target exponent than one at which it takes no more than 53 bits. -/
theorem IsTarget.le_of_lt (ht : IsTarget q t) (hs : -1074 ≤ s) (hq : q < 2 ^ (s + 53)) :
    t ≤ s := by
  rcases ht.full with hfull | hleast
  · have hlt := (zpow_lt_zpow_iff_right₀ one_lt_two).mp (hfull.trans_lt hq)
    omega
  · omega

theorem IsTarget.mono (hq : IsTarget q s) (hr : IsTarget r t) (h : q ≤ r) : s ≤ t :=
  hq.le_of_lt hr.least (h.trans_lt hr.lt)

/-- What a mantissa stands for has the target exponent of the mantissa. -/
theorem isTarget_target (hle : m * 2 ^ e ≤ q) (hlt : q < (m + 1) * 2 ^ e) (ht : e ≤ target m e) :
    IsTarget q (target m e) := by
  have hbits : (m : ℚ) + 1 ≤ 2 ^ ((m.log2 : ℤ) + 1) := by exact_mod_cast Nat.lt_log2_self
  have hpow : (0 : ℚ) < 2 ^ e := zpow_pos two_pos e
  have hupper : q < 2 ^ ((m.log2 : ℤ) + 1 + e) := by
    rw [zpow_add₀ two_ne_zero]
    exact hlt.trans_le (mul_le_mul_of_nonneg_right hbits hpow.le)
  refine ⟨le_max_right _ _, hupper.trans_le (zpow_le_zpow_right₀ one_le_two ?_), ?_⟩
  · unfold target
    omega
  · -- below the normal numbers the exponent is the least one, and then no bit has to be in front
    rcases le_total (m.log2 + e - 52) (-1074) with hsmall | hlarge
    · exact .inr (max_eq_right hsmall)
    · left
      have hm : m ≠ 0 := by
        rintro rfl
        rw [Nat.log2_zero] at hlarge
        unfold target at ht
        rw [Nat.log2_zero] at ht
        omega
      have hself : (2 : ℚ) ^ (m.log2 : ℤ) ≤ m := by exact_mod_cast Nat.log2_self_le hm
      have hexp : target m e + 52 = m.log2 + e := by
        rw [target, max_eq_left hlarge]
        omega
      rw [hexp, zpow_add₀ two_ne_zero]
      exact (mul_le_mul_of_nonneg_right hself hpow.le).trans hle

/-- At its target exponent a number is rounded to no more than 53 bits, or to the least number of
54, and to less than 53 bits only at the least exponent. -/
theorem IsTarget.nearest_bounds (ht : IsTarget q t) {k : ℤ} (hk : IsNearestEven (q / 2 ^ t) k) :
    k ≤ 2 ^ 53 ∧ (2 ^ 52 ≤ k ∨ t = -1074) := by
  have hpow : (0 : ℚ) < 2 ^ t := zpow_pos two_pos t
  constructor
  · refine hk.mono (isNearestEven_intCast _) ?_
    rw [div_le_iff₀ hpow]
    refine ht.lt.le.trans_eq ?_
    rw [zpow_add₀ two_ne_zero, mul_comm]
    norm_num
  · refine ht.full.imp_left fun hfull => (isNearestEven_intCast _).mono hk ?_
    rw [le_div_iff₀ hpow]
    refine Eq.trans_le ?_ hfull
    rw [zpow_add₀ two_ne_zero, mul_comm]
    norm_num

/-! ### Rounded numbers -/

/-- The size of a finite number. -/
def absolute : UnpackedFloat → ℚ
  | .finite _ m e _ => m * 2 ^ e
  | _ => 0

/-- What a number not below zero is rounded to, before it is looked at whether it is too large. -/
structure RoundsTo (q : ℚ) (u : UnpackedFloat) : Prop where
  isFinite : u.isFinite = true
  isNonneg : IsNonneg u
  isCanonical : IsCanonical u
  nearest : ∃ t k, IsTarget q t ∧ IsNearestEven (q / 2 ^ t) k ∧ absolute u = k * 2 ^ t

variable {u v : UnpackedFloat}

/-- Greater numbers are not rounded to lesser ones. -/
theorem RoundsTo.absolute_le (hu : RoundsTo q u) (hv : RoundsTo r v) (h : q ≤ r) :
    absolute u ≤ absolute v := by
  obtain ⟨s, k, hs, hk, hu⟩ := hu.nearest
  obtain ⟨t, l, ht, hl, hv⟩ := hv.nearest
  rw [hu, hv]
  rcases (hs.mono ht h).eq_or_lt with rfl | hlt
  · have hpow : (0 : ℚ) < 2 ^ s := zpow_pos two_pos s
    have hkl : k ≤ l := hk.mono hl (div_le_div_of_nonneg_right h hpow.le)
    exact mul_le_mul_of_nonneg_right (by exact_mod_cast hkl) hpow.le
  · -- the first is at most the least number of 54 bits, which the second keeps below its 53
    have hfirst : k ≤ 2 ^ 53 := (hs.nearest_bounds hk).1
    have hsecond : 2 ^ 52 ≤ l := by
      have hleast := hs.least
      exact (ht.nearest_bounds hl).2.resolve_right (by omega)
    calc (k : ℚ) * 2 ^ s ≤ 2 ^ 53 * 2 ^ s :=
          mul_le_mul_of_nonneg_right (by exact_mod_cast hfirst) (zpow_pos two_pos s).le
      _ = 2 ^ 52 * 2 ^ (s + 1) := by rw [zpow_add₀ two_ne_zero]; ring
      _ ≤ 2 ^ 52 * 2 ^ t :=
          mul_le_mul_of_nonneg_left (zpow_le_zpow_right₀ one_le_two (by omega)) (by positivity)
      _ ≤ l * 2 ^ t :=
          mul_le_mul_of_nonneg_right (by exact_mod_cast hsecond) (zpow_pos two_pos t).le

/-- A number that takes no more than 53 bits is rounded to itself. -/
theorem RoundsTo.absolute_eq (h : RoundsTo (m * 2 ^ e) u) (hm : m < 2 ^ 53) (he : -1074 ≤ e) :
    absolute u = m * 2 ^ e := by
  obtain ⟨t, k, ht, hk, hu⟩ := h.nearest
  have hte : t ≤ e := by
    refine ht.le_of_lt he ?_
    rw [add_comm, zpow_add₀ two_ne_zero]
    exact mul_lt_mul_of_pos_right (by exact_mod_cast hm) (zpow_pos two_pos e)
  obtain ⟨n, rfl⟩ : ∃ n : ℕ, e = t + n := ⟨(e - t).toNat, by omega⟩
  have hwhole : (m : ℚ) * 2 ^ (t + (n : ℤ)) / 2 ^ t = ((m * 2 ^ n : ℕ) : ℤ) := by
    rw [zpow_add₀ two_ne_zero]
    have hpow : (2 : ℚ) ^ t ≠ 0 := (zpow_pos two_pos t).ne'
    field_simp
    push_cast
    simp
  have hk' : k = ((m * 2 ^ n : ℕ) : ℤ) := hk.unique (hwhole ▸ isNearestEven_intCast _)
  rw [hu, hk', ← hwhole, div_mul_cancel₀ _ (zpow_pos two_pos t).ne']

/-- Shifting to the target exponent keeps what a mantissa stands for. -/
theorem shiftToTargetExponent_denotes {acc : Accuracy}
    (h : Denotes (.ofMantissaAndAccuracy m acc) (q / 2 ^ e)) (ht : e ≤ target m e) :
    ∃ em, shiftToTargetExponent .binary64 m e acc = (em, target m e) ∧
      Denotes em (q / 2 ^ target m e) := by
  obtain ⟨k, hk⟩ : ∃ k : ℕ, target m e = e + k := ⟨(target m e - e).toNat, by omega⟩
  have hshift : (e + (k : ℤ) - e).toNat = k := by omega
  refine ⟨ExtendedMantissa.ofMantissaAndAccuracy m acc >>> k, ?_, ?_⟩
  · unfold shiftToTargetExponent shiftToExponent
    simp only [targetExponent_totalExponent, hk, hshift]
  · rw [hk, zpow_add₀ two_ne_zero, ← div_div]
    exact h.shiftRight k

/-- Rounding a mantissa with residual bits rounds what it stands for. -/
theorem roundsTo_roundWithAccuracy {acc : Accuracy}
    (h : Denotes (.ofMantissaAndAccuracy m acc) (q / 2 ^ e)) (ht : e ≤ target m e) :
    RoundsTo q (roundWithAccuracy .binary64 .positive m e acc) := by
  have hpow : (0 : ℚ) < 2 ^ e := zpow_pos two_pos e
  have hmantissa : (ExtendedMantissa.ofMantissaAndAccuracy m acc).mantissa = m := by
    unfold ExtendedMantissa.ofMantissaAndAccuracy
    split <;> rfl
  have hbounds := h.bounds
  rw [hmantissa, le_div_iff₀ hpow, div_lt_iff₀ hpow] at hbounds
  have htarget := isTarget_target hbounds.1 hbounds.2 ht
  obtain ⟨em, hshift, hem⟩ := shiftToTargetExponent_denotes h ht
  have hnearest := hem.isNearestEven
  obtain ⟨hle, hfull⟩ := htarget.nearest_bounds hnearest
  obtain ⟨t, ht'⟩ : ∃ t, target m e = t := ⟨_, rfl⟩
  obtain ⟨r, hr⟩ : ∃ r, em.roundedMantissa = r := ⟨_, rfl⟩
  rw [ht'] at htarget hnearest hfull hshift
  rw [hr] at hnearest hle hfull
  have hleast := htarget.least
  unfold roundWithAccuracy
  simp only [hshift, hr]
  -- rounding up may carry into a bit too many, and then the mantissa is shifted once more
  rcases (show r ≤ 2 ^ 53 by exact_mod_cast hle).lt_or_eq with hlt | hover
  · have hcanon : Canonical r t := ⟨hlt, hleast, by exact_mod_cast hfull⟩
    simp only [shiftToTargetExponent_of_canonical hcanon]
    split
    · rename_i hzero
      exact ⟨rfl, trivial, trivial, t, r, htarget, hnearest, by simp [absolute, hzero]⟩
    · exact ⟨rfl, rfl, hcanon, t, r, htarget, hnearest, rfl⟩
  · obtain ⟨em', hem', hshift'⟩ := shiftToTargetExponent_overflow hleast
    simp only [hover, hshift', hem']
    rw [dif_neg (by decide)]
    refine ⟨rfl, rfl, ⟨by decide, by omega, .inl le_rfl⟩, t, r, htarget, hnearest, ?_⟩
    rw [absolute, zpow_add₀ two_ne_zero, hover]
    norm_num
    ring

theorem roundsTo_zero (s : Sign) : RoundsTo 0 (.zero s) := by
  refine ⟨rfl, trivial, trivial, -1074, 0, ⟨le_rfl, by positivity, .inr rfl⟩, ?_, ?_⟩
  · rw [zero_div]
    exact isNearestEven_intCast 0
  · simp [absolute]

theorem roundsTo_exact (ht : e ≤ target m e) :
    RoundsTo (m * 2 ^ e) (roundWithAccuracy .binary64 .positive m e .exact) := by
  refine roundsTo_roundWithAccuracy ?_ ht
  rw [mul_div_cancel_right₀ _ (zpow_pos two_pos e).ne']
  exact denotes_exact m

/-- Rounding rounds what it is given, however many bits that has. -/
theorem roundsTo_round (hm : 0 < m) :
    RoundsTo (m * 2 ^ e) (UnpackedFloat.round .binary64 .positive m e) := by
  unfold UnpackedFloat.round
  simp only [targetExponent_totalExponent, decreaseExponent]
  generalize hk : (e - target m e).toNat = k
  have htarget : target (m <<< k) (e - k) = target m e := by
    have hlog : (m <<< k).log2 = m.log2 + k := log2_shiftLeft hm k
    unfold target
    rw [hlog]
    omega
  have hvalue : (m : ℚ) * 2 ^ e = (m <<< k : ℕ) * 2 ^ (e - k) := by
    rw [Nat.shiftLeft_eq, zpow_sub₀ two_ne_zero]
    have : (2 : ℚ) ^ k ≠ 0 := by positivity
    push_cast
    simp
    field_simp
  rw [hvalue]
  exact roundsTo_exact (by omega)

/-! ### Doubles -/

/-- The double that a number not below zero is rounded to, infinite if the number is too large. -/
def IsDoubleOf (q : ℚ) (x : Float) : Prop :=
  ∃ u, RoundsTo q u ∧ x.toModel.unpack = (Float.Model.pack u).unpack

/-- The units of a number as a rational: its value, scaled to make the smallest double one. -/
theorem cast_units (m : ℕ) (he : -1074 ≤ e) : (units m e : ℚ) = m * 2 ^ e * 2 ^ 1074 := by
  have hexp : ((e + 1074).toNat : ℤ) = e + 1074 := by omega
  have hpow : ((2 ^ (e + 1074).toNat : ℕ) : ℚ) = 2 ^ e * 2 ^ 1074 := by
    rw [Nat.cast_pow, Nat.cast_ofNat, ← zpow_natCast, hexp, zpow_add₀ two_ne_zero]
    norm_cast
  rw [units, Nat.cast_mul, hpow, mul_assoc]

theorem exists_magnitude (hu : u.isFinite = true) (hc : IsCanonical u) :
    ∃ n : ℕ, magnitude u = n ∧ (n : ℚ) = absolute u * 2 ^ 1074 := by
  rcases cases_of_isFinite hu with ⟨s, rfl⟩ | ⟨s, m, e, hm, rfl⟩
  · exact ⟨0, rfl, by simp [absolute]⟩
  · exact ⟨units m e, rfl, cast_units m (Canonical.least hc)⟩

/-- Finite numbers compare as their sizes in units do. -/
theorem magnitude_le_iff (hu : u.isFinite = true) (hv : v.isFinite = true) (cu : IsCanonical u)
    (cv : IsCanonical v) : magnitude u ≤ magnitude v ↔ absolute u ≤ absolute v := by
  obtain ⟨m, hm, hmu⟩ := exists_magnitude hu cu
  obtain ⟨n, hn, hnv⟩ := exists_magnitude hv cv
  have hpow : (0 : ℚ) < 2 ^ 1074 := by positivity
  rw [hm, hn, Nat.cast_le, ← Nat.cast_le (α := ℚ), hmu, hnv, mul_le_mul_iff_left₀ hpow]

/-- Packing keeps the order, also where what is too large becomes an infinity. -/
theorem magnitude_pack_le (hu : u.isFinite = true) (hv : v.isFinite = true) (cu : IsCanonical u)
    (cv : IsCanonical v) (h : magnitude u ≤ magnitude v) :
    magnitude (Float.Model.pack u).unpack ≤ magnitude (Float.Model.pack v).unpack := by
  rcases cases_of_isFinite hu with ⟨s, rfl⟩ | ⟨s, m, e, hm, rfl⟩
  · have hzero : (Float.Model.pack (.zero s)).unpack = .zero s := by cases s <;> rfl
    rw [hzero]
    exact zero_le
  rcases cases_of_isFinite hv with ⟨s', rfl⟩ | ⟨s', m', e', hm', rfl⟩
  · have hpos := units_pos hm e
    simp [hpos.ne'] at h
  rw [unpack_pack cu, unpack_pack cv]
  by_cases he' : 971 < e'
  · rw [if_pos he']
    exact le_top
  · have he : ¬ 971 < e := fun he => by
      have hlt := Canonical.units_lt cv cu (by omega)
      exact absurd (Nat.cast_le.mp h) (not_le.mpr hlt)
    rw [if_neg he', if_neg he]
    exact h

theorem IsDoubleOf.nonneg {x : Float} (hx : IsDoubleOf q x) : 0 ≤ x := by
  obtain ⟨u, hu, hunpack⟩ := hx
  rw [zero_le_iff, hunpack]
  exact (le_magnitude_unpack_pack hu.isCanonical hu.isNonneg).1

/-- Greater numbers have no lesser doubles. -/
theorem IsDoubleOf.le {x y : Float} (hx : IsDoubleOf q x) (hy : IsDoubleOf r y) (h : q ≤ r) :
    x ≤ y := by
  rw [le_iff_of_nonneg hx.nonneg]
  refine ⟨hy.nonneg, ?_⟩
  obtain ⟨u, hu, hunpack⟩ := hx
  obtain ⟨v, hv, hunpack'⟩ := hy
  rw [hunpack, hunpack']
  exact magnitude_pack_le hu.isFinite hv.isFinite hu.isCanonical hv.isCanonical
    ((magnitude_le_iff hu.isFinite hv.isFinite hu.isCanonical hv.isCanonical).mpr
      (hu.absolute_le hv h))

end Presynth.Double
