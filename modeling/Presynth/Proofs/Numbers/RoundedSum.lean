import Mathlib
import Presynth.Proofs.Numbers.CanonicalForm
import Presynth.Quantity
/-!
# Sums that are rounded

A sum of doubles is the double nearest to the exact sum. It need not be exact, but as both summands
are doubles themselves, rounding does not go below either: a sum of numbers that are not below zero
is not less than any of them. The class `RoundedSum` says what sums of times need of the numbers;
doubles have it, with infinities and overflow, and so have exact fractions.

Doubles that are not below zero are compared by their size in units of the least positive double,
an infinity being the largest size.

Main statements: `Double.isRounded_round` (rounding stays above all doubles below the number),
`Double.le_iff_of_nonneg`, `Double.le_add` and `RoundedSum.le_foldl_add`.
-/

namespace Presynth

namespace Double

open Float.Model Float.Model.UnpackedFloat

/-! ### Units -/

/-- `m * 2 ^ e` counted in the least positive double. -/
def units (m : Nat) (e : Int) : Nat := m * 2 ^ (e + 1074).toNat

theorem units_le_units {m₁ m₂ : Nat} {e : Int} : units m₁ e ≤ units m₂ e ↔ m₁ ≤ m₂ :=
  Nat.mul_le_mul_right_iff (Nat.two_pow_pos _)

theorem units_lt_units {m₁ m₂ : Nat} {e : Int} : units m₁ e < units m₂ e ↔ m₁ < m₂ := by
  rw [← Nat.not_le, units_le_units, Nat.not_le]

/-- A smaller exponent takes a greater mantissa. -/
theorem units_mul_two_pow (m k : Nat) {e : Int} (he : -1074 ≤ e) :
    units (m * 2 ^ k) e = units m (e + k) := by
  have hk : (e + k + 1074).toNat = k + (e + 1074).toNat := by omega
  rw [units, units, hk, Nat.pow_add, Nat.mul_assoc]

/-- Of two canonical forms, the one of the greater exponent is the greater. -/
theorem Canonical.units_lt {m₁ m₂ : Nat} {e₁ e₂ : Int} (h₁ : Canonical m₁ e₁)
    (h₂ : Canonical m₂ e₂) (he : e₁ < e₂) : units m₁ e₁ < units m₂ e₂ := by
  have hleast := h₁.least
  have hfull : 2 ^ 52 ≤ m₂ := h₂.full.resolve_right (by omega)
  obtain ⟨k, rfl⟩ : ∃ k : Nat, e₂ = e₁ + (k + 1 : Nat) := ⟨(e₂ - e₁ - 1).toNat, by omega⟩
  rw [← units_mul_two_pow _ _ hleast, units_lt_units]
  calc m₁ < 2 ^ 52 * 2 ^ 1 := h₁.bits
    _ ≤ m₂ * 2 ^ (k + 1) := Nat.mul_le_mul hfull (Nat.pow_le_pow_right (by decide) (by omega))

/-- Canonical forms are compared by their exponents first, then by their mantissas. -/
theorem Canonical.compare_eq {m₁ m₂ : Nat} {e₁ e₂ : Int} (h₁ : Canonical m₁ e₁)
    (h₂ : Canonical m₂ e₂) :
    (compare e₁ e₂).then (compare m₁ m₂) = compare (units m₁ e₁) (units m₂ e₂) := by
  rcases lt_trichotomy e₁ e₂ with he | rfl | he
  · rw [compare_lt_iff_lt.mpr he, compare_lt_iff_lt.mpr (h₁.units_lt h₂ he)]
    rfl
  · rw [compare_eq_iff_eq.mpr rfl, Ordering.eq_then]
    rcases lt_trichotomy m₁ m₂ with hm | rfl | hm
    · rw [compare_lt_iff_lt.mpr hm, compare_lt_iff_lt.mpr (units_lt_units.mpr hm)]
    · rw [compare_eq_iff_eq.mpr rfl, compare_eq_iff_eq.mpr rfl]
    · rw [compare_gt_iff_gt.mpr hm, compare_gt_iff_gt.mpr (units_lt_units.mpr hm)]
  · rw [compare_gt_iff_gt.mpr he, compare_gt_iff_gt.mpr (h₂.units_lt h₁ he)]
    rfl

/-- There is no canonical form between neighbours. -/
theorem Canonical.units_le_of_lt_succ {m q : Nat} {e t : Int} (h : Canonical m e)
    (hq : Canonical q t) (hlt : units m e < units (q + 1) t) : units m e ≤ units q t := by
  rcases lt_or_ge e t with he | he
  · exact (h.units_lt hq he).le
  · obtain ⟨k, rfl⟩ : ∃ k : Nat, e = t + k := ⟨(e - t).toNat, by omega⟩
    rw [← units_mul_two_pow _ _ hq.least] at hlt ⊢
    exact units_le_units.mpr (Nat.lt_succ_iff.mp (units_lt_units.mp hlt))

/-! ### Rounding -/

/-- A shift drops the lowest digits of the mantissa, and remembers if there were any. -/
theorem mantissa_shiftRight (em : ExtendedMantissa) (k : Nat) :
    (em >>> k).mantissa = em.mantissa / 2 ^ k := by
  induction k with
  | zero =>
      rw [Nat.pow_zero, Nat.div_one]
      rfl
  | succ k ih =>
      change (em >>> k).mantissa / 2 = _
      rw [ih, Nat.div_div_eq_div_mul, Nat.pow_succ]

/-- Rounding goes up by one at most. -/
theorem roundedMantissa_bounds (em : ExtendedMantissa) :
    em.mantissa ≤ em.roundedMantissa ∧ em.roundedMantissa ≤ em.mantissa + 1 := by
  obtain ⟨m, round, sticky⟩ := em
  cases round <;> cases sticky <;>
    simp [ExtendedMantissa.roundedMantissa, ExtendedMantissa.accuracy,
      Accuracy.roundToNearestEven]
  omega

/-- The exponent with which a double holds `m * 2 ^ e`. -/
def target (m : Nat) (e : Int) : Int := max (m.log2 + e - 52) (-1074)

theorem targetExponent_totalExponent (m : Nat) (e : Int) :
    Format.binary64.targetExponent (totalExponent m e) = target m e := by
  change max ((m.log2 : Int) + 1 + e - 53) (-1074) = max ((m.log2 : Int) + e - 52) (-1074)
  omega

/-- Cut off at its target exponent, a number is in canonical form. -/
theorem canonical_div {m : Nat} {e : Int} (hm : 0 < m) (he : -1074 ≤ e) (ht : e ≤ target m e) :
    0 < m / 2 ^ (target m e - e).toNat ∧
      Canonical (m / 2 ^ (target m e - e).toNat) (target m e) := by
  have hlt : m < 2 ^ (m.log2 + 1) := Nat.lt_log2_self
  have hle : 2 ^ m.log2 ≤ m := Nat.log2_self_le hm.ne'
  unfold target at ht ⊢
  generalize hk : (max ((m.log2 : Int) + e - 52) (-1074) - e).toNat = k
  have hbits : m / 2 ^ k < 2 ^ 53 := by
    rw [Nat.div_lt_iff_lt_mul (Nat.two_pow_pos k), ← Nat.pow_add]
    exact hlt.trans_le (Nat.pow_le_pow_right (by decide) (by omega))
  by_cases hleast : (m.log2 : Int) + e - 52 ≤ -1074
  · obtain rfl : k = 0 := by omega
    rw [Nat.pow_zero, Nat.div_one] at hbits ⊢
    exact ⟨hm, hbits, by omega, .inr (by omega)⟩
  · have hfull : 2 ^ 52 ≤ m / 2 ^ k := by
      rw [Nat.le_div_iff_mul_le (Nat.two_pow_pos k), ← Nat.pow_add]
      exact (Nat.pow_le_pow_right (by decide) (by omega)).trans hle
    exact ⟨(Nat.two_pow_pos 52).trans_le hfull, hbits, by omega, .inl hfull⟩

/-- No canonical form lies between a number and what is left of it at its target exponent. -/
theorem Canonical.units_le_div {m m' : Nat} {e e' : Int} (h : Canonical m' e') (hm : 0 < m)
    (he : -1074 ≤ e) (ht : e ≤ target m e) (hle : units m' e' ≤ units m e) :
    units m' e' ≤ units (m / 2 ^ (target m e - e).toNat) (target m e) := by
  refine h.units_le_of_lt_succ (canonical_div hm he ht).2 (hle.trans_lt ?_)
  obtain ⟨k, hk⟩ : ∃ k : Nat, target m e = e + k := ⟨(target m e - e).toNat, by omega⟩
  have hshift : (e + (k : Int) - e).toNat = k := by omega
  rw [hk, ← units_mul_two_pow _ _ he, units_lt_units, hshift]
  exact Nat.lt_mul_of_div_lt (Nat.lt_succ_self _) (Nat.two_pow_pos k)

/-- A mantissa rounded up has one bit too many at most. -/
theorem canonical_succ {q r : Nat} {t : Int} (h : Canonical q t) (hqr : q ≤ r) (hr : r ≤ q + 1) :
    Canonical r t ∨ r = 2 ^ 53 := by
  obtain ⟨hbits, hleast, hfull⟩ := h
  rcases Nat.lt_or_ge r (2 ^ 53) with hlt | hge
  · exact .inl ⟨hlt, hleast, by omega⟩
  · exact .inr (by omega)

theorem target_of_canonical {m : Nat} {e : Int} (h : Canonical m e) : target m e ≤ e := by
  have hlog : m.log2 ≤ 52 := by
    rcases Nat.eq_zero_or_pos m with rfl | hm
    · simp
    · have := (Nat.log2_lt hm.ne').mpr h.bits
      omega
  have hleast := h.least
  unfold target
  omega

/-- Shifting to the target exponent cuts a number off there. -/
theorem shiftToTargetExponent_eq {m : Nat} {e : Int} (ht : e ≤ target m e) :
    ∃ em : ExtendedMantissa, em.mantissa = m / 2 ^ (target m e - e).toNat ∧
      shiftToTargetExponent .binary64 m e .exact = (em, target m e) := by
  refine ⟨_, mantissa_shiftRight ⟨m, false, false⟩ _, ?_⟩
  unfold shiftToTargetExponent shiftToExponent
  simp only [targetExponent_totalExponent]
  congr 1
  omega

/-- What has its target exponent already stays as it is. -/
theorem shiftToTargetExponent_of_canonical {m : Nat} {e : Int} (h : Canonical m e) :
    shiftToTargetExponent .binary64 m e .exact = (⟨m, false, false⟩, e) := by
  have ht := target_of_canonical h
  have hzero : (target m e - e).toNat = 0 := by omega
  unfold shiftToTargetExponent shiftToExponent
  simp only [targetExponent_totalExponent, hzero]
  rw [Nat.cast_zero, add_zero]
  rfl

/-- One bit too many is shifted out. -/
theorem shiftToTargetExponent_overflow {t : Int} (ht : -1074 ≤ t) :
    ∃ em : ExtendedMantissa, em.mantissa = 2 ^ 52 ∧
      shiftToTargetExponent .binary64 (2 ^ 53) t .exact = (em, t + 1) := by
  have htarget : target (2 ^ 53) t = t + 1 := by
    change max (53 + t - 52) (-1074) = _
    omega
  obtain ⟨em, hem, hshift⟩ := shiftToTargetExponent_eq (m := 2 ^ 53) (e := t) (by omega)
  have hone : (t + 1 - t).toNat = 1 := by omega
  rw [htarget, hone] at hem
  rw [htarget] at hshift
  exact ⟨em, hem, hshift⟩

/-- A canonical number of a sign that is not below any canonical form up to `m * 2 ^ e`. -/
def IsRounded (s : Sign) (m : Nat) (e : Int) (u : UnpackedFloat) : Prop :=
  ∃ r t hr, u = .finite s r t hr ∧ Canonical r t ∧
    ∀ m' e', Canonical m' e' → units m' e' ≤ units m e → units m' e' ≤ units r t

/-- Shifting to the target and rounding there yields a neighbour of the exact value, also where the
carry makes the mantissa too long. -/
theorem isRounded_roundWithAccuracy (s : Sign) {m : Nat} {e : Int} (hm : 0 < m)
    (he : -1074 ≤ e) (ht : e ≤ target m e) :
    IsRounded s m e (roundWithAccuracy .binary64 s m e .exact) := by
  obtain ⟨hq, hcanon⟩ := canonical_div hm he ht
  obtain ⟨em, hem, hshift⟩ := shiftToTargetExponent_eq ht
  obtain ⟨hle, hle'⟩ := roundedMantissa_bounds em
  rw [hem] at hle hle'
  -- nothing canonical lies between the mantissa that is cut off and the exact value
  have hbound : ∀ m' e', Canonical m' e' → units m' e' ≤ units m e →
      units m' e' ≤ units em.roundedMantissa (target m e) := fun m' e' h' hunits =>
    (h'.units_le_div hm he ht hunits).trans (units_le_units.mpr hle)
  unfold roundWithAccuracy
  simp only [hshift]
  rcases canonical_succ hcanon hle hle' with hcanon' | hover
  · simp only [shiftToTargetExponent_of_canonical hcanon']
    rw [dif_neg (by omega)]
    exact ⟨_, _, by omega, rfl, hcanon', hbound⟩
  · -- the carry left a power of two, so the second shift drops a zero
    obtain ⟨em', hem', hshift'⟩ := shiftToTargetExponent_overflow hcanon.least
    simp only [hover, hshift', hem']
    rw [dif_neg (by decide)]
    have hunits : units (2 ^ 52) (target m e + 1) = units em.roundedMantissa (target m e) := by
      rw [hover]
      exact (units_mul_two_pow (2 ^ 52) 1 hcanon.least).symm
    have hleast := hcanon.least
    refine ⟨_, _, by decide, rfl, ⟨by decide, by omega, .inl le_rfl⟩, ?_⟩
    rw [hunits]
    exact hbound

theorem log2_shiftLeft {m : Nat} (hm : 0 < m) (k : Nat) : (m <<< k).log2 = m.log2 + k := by
  induction k with
  | zero => rfl
  | succ k ih =>
      have hpos : m <<< k ≠ 0 := (Nat.shiftLeft_pos_iff.mpr hm).ne'
      rw [Nat.shiftLeft_succ, Nat.log2_two_mul hpos, ih, Nat.add_assoc]

/-- Rounding stays above all canonical forms below the number. -/
theorem isRounded_round (s : Sign) {m : Nat} {e : Int} (hm : 0 < m) (he : -1074 ≤ e) :
    IsRounded s m e (UnpackedFloat.round .binary64 s m e) := by
  unfold UnpackedFloat.round
  simp only [targetExponent_totalExponent, decreaseExponent]
  generalize hk : (e - target m e).toNat = k
  have htarget : target (m <<< k) (e - k) = target m e := by
    have hlog : (m <<< k).log2 = m.log2 + k := log2_shiftLeft hm k
    unfold target
    rw [hlog]
    omega
  have hleast : -1074 ≤ target m e := le_max_right _ _
  have hunits : units (m <<< k) (e - k) = units m e := by
    rw [Nat.shiftLeft_eq, units_mul_two_pow _ _ (by omega), Int.sub_add_cancel]
  rw [IsRounded, ← hunits]
  exact isRounded_roundWithAccuracy s (Nat.shiftLeft_pos_iff.mpr hm) (by omega) (by omega)

/-! ### Magnitudes -/

/-- The size of what is not below zero, in units; the sign of a zero counts for nothing. -/
@[simp]
def magnitude : UnpackedFloat → ℕ∞
  | .infinity _ => ⊤
  | .finite _ m e _ => units m e
  | .zero _ | .notANumber => 0

/-- A number, and not below zero. -/
@[simp]
def IsNonneg : UnpackedFloat → Prop
  | .infinity s | .finite s .. => s = .positive
  | .zero _ => True
  | .notANumber => False

/-- In canonical form, if it is finite. -/
def IsCanonical : UnpackedFloat → Prop
  | .finite _ m e _ => Canonical m e
  | _ => True

theorem isCanonical_unpack (x : Float.Model) : IsCanonical x.unpack := by
  cases h : x.unpack with
  | finite s m e hm => exact (canonical_of_unpack h).1
  | _ => trivial

theorem units_pos {m : Nat} (hm : 0 < m) (e : Int) : 0 < units m e :=
  Nat.mul_pos hm (Nat.two_pow_pos _)

/-- What is not below zero is compared by size. -/
theorem le_iff_magnitude {u v : UnpackedFloat} (hu : IsCanonical u) (hv : IsCanonical v)
    (hn : IsNonneg u) : u.le v = true ↔ IsNonneg v ∧ magnitude u ≤ magnitude v := by
  cases u with
  | notANumber => exact absurd hn id
  | infinity s =>
      obtain rfl : s = .positive := hn
      cases v with
      | infinity s' => cases s' <;> simp [UnpackedFloat.le, UnpackedFloat.compare] <;> decide
      | finite s' m e _ => cases s' <;> simp [UnpackedFloat.le, UnpackedFloat.compare]
      | _ => simp [UnpackedFloat.le, UnpackedFloat.compare]
  | zero s =>
      cases v with
      | infinity s' => cases s' <;> simp [UnpackedFloat.le, UnpackedFloat.compare]
      | finite s' m e _ => cases s' <;> simp [UnpackedFloat.le, UnpackedFloat.compare]
      | _ => simp [UnpackedFloat.le, UnpackedFloat.compare]
  | finite s m e hm =>
      obtain rfl : s = .positive := hn
      have hpos := units_pos hm e
      cases v with
      | infinity s' => cases s' <;> simp [UnpackedFloat.le, UnpackedFloat.compare]
      | finite s' m' e' hm' =>
          cases s' with
          | negative => simp [UnpackedFloat.le, UnpackedFloat.compare]
          | positive =>
              rw [UnpackedFloat.le, UnpackedFloat.compare, Canonical.compare_eq hu hv]
              simp [Nat.isLE_compare]
      | zero s' => simp [UnpackedFloat.le, UnpackedFloat.compare, hpos.ne']
      | notANumber => simp [UnpackedFloat.le, UnpackedFloat.compare]

/-- Packing makes nothing smaller: what is too large becomes an infinity. -/
theorem le_magnitude_unpack_pack {u : UnpackedFloat} (hu : IsCanonical u) (hn : IsNonneg u) :
    IsNonneg (Float.Model.pack u).unpack ∧
      magnitude u ≤ magnitude (Float.Model.pack u).unpack := by
  cases u with
  | notANumber => exact absurd hn id
  | infinity s =>
      have hkeep : (Float.Model.pack (.infinity s)).unpack = .infinity s := by cases s <;> rfl
      rw [hkeep]
      exact ⟨hn, le_rfl⟩
  | zero s =>
      have hkeep : (Float.Model.pack (.zero s)).unpack = .zero s := by cases s <;> rfl
      rw [hkeep]
      exact ⟨hn, le_rfl⟩
  | finite s m e hm =>
      rw [unpack_pack hu]
      split
      · exact ⟨hn, le_top⟩
      · exact ⟨hn, le_rfl⟩

/-- A sum of two finite numbers is the rounded one. -/
theorem add_finite {m₁ m₂ : Nat} {e₁ e₂ : Int} (h₁ : 0 < m₁) (h₂ : 0 < m₂) :
    UnpackedFloat.add .binary64 (.finite .positive m₁ e₁ h₁) (.finite .positive m₂ e₂ h₂) =
      UnpackedFloat.round .binary64 .positive
        (m₁ <<< (e₁ - min e₁ e₂).toNat + m₂ <<< (e₂ - min e₁ e₂).toNat) (min e₁ e₂) := by
  have hpos : 0 < m₁ <<< (e₁ - min e₁ e₂).toNat := Nat.shiftLeft_pos_iff.mpr h₁
  unfold UnpackedFloat.add decreaseExponent UnpackedFloat.normalize
  simp only [Sign.apply, ← Int.natCast_add, Int.toNat_natCast]
  rw [compare_gt_iff_gt.mpr (Int.natCast_pos.mpr (Nat.add_pos_left hpos _))]

/-- No sum of numbers that are not below zero is less than either. -/
theorem magnitude_le_add {u v : UnpackedFloat} (hu : IsCanonical u) (hv : IsCanonical v)
    (nu : IsNonneg u) (nv : IsNonneg v) :
    IsCanonical (UnpackedFloat.add .binary64 u v) ∧ IsNonneg (UnpackedFloat.add .binary64 u v) ∧
      magnitude u ≤ magnitude (UnpackedFloat.add .binary64 u v) ∧
      magnitude v ≤ magnitude (UnpackedFloat.add .binary64 u v) := by
  cases u with
  | notANumber => exact absurd nu id
  | infinity s =>
      obtain rfl : s = .positive := nu
      cases v with
      | notANumber => exact absurd nv id
      | infinity s' =>
          obtain rfl : s' = .positive := nv
          exact ⟨trivial, rfl, le_rfl, le_rfl⟩
      | _ => exact ⟨trivial, rfl, le_rfl, le_top⟩
  | zero s =>
      cases v with
      | notANumber => exact absurd nv id
      | infinity s' => exact ⟨trivial, nv, zero_le, le_rfl⟩
      | zero s' => cases s <;> cases s' <;> exact ⟨trivial, trivial, le_rfl, le_rfl⟩
      | finite s' m' e' hm' => exact ⟨hv, nv, zero_le, le_rfl⟩
  | finite s m e hm =>
      obtain rfl : s = .positive := nu
      cases v with
      | notANumber => exact absurd nv id
      | infinity s' => exact ⟨trivial, nv, le_top, le_rfl⟩
      | zero s' => exact ⟨hu, rfl, le_rfl, zero_le⟩
      | finite s' m' e' hm' =>
          obtain rfl : s' = .positive := nv
          have hle : -1074 ≤ min e e' := le_min hu.least hv.least
          -- both are shifted to the lesser exponent, which loses no bit; only the sum is rounded
          have hexact : ∀ {m : Nat} {f : Int}, min e e' ≤ f →
              units (m <<< (f - min e e').toNat) (min e e') = units m f := by
            intro m f hf
            rw [Nat.shiftLeft_eq, units_mul_two_pow _ _ hle]
            congr 1
            omega
          obtain ⟨r, t, hr, heq, hcanon, hbound⟩ := isRounded_round .positive
            (Nat.add_pos_left (Nat.shiftLeft_pos_iff.mpr hm) (m' <<< (e' - min e e').toNat)) hle
          rw [add_finite, heq]
          refine ⟨hcanon, rfl, Nat.cast_le.mpr (hbound m e hu ?_),
            Nat.cast_le.mpr (hbound m' e' hv ?_)⟩
          · rw [← hexact (min_le_left e e')]
            exact units_le_units.mpr (Nat.le_add_right _ _)
          · rw [← hexact (min_le_right e e')]
            exact units_le_units.mpr (Nat.le_add_left _ _)

/-! ### Comparing and adding -/

theorem le_iff {x y : Float} :
    x ≤ y ↔ x.toModel.unpack.le y.toModel.unpack = true := by
  change decide (x.toModel ≤ y.toModel) = true ↔ _
  rw [decide_eq_true_iff]
  rfl

theorem zero_le_iff {x : Float} : 0 ≤ x ↔ IsNonneg x.toModel.unpack := by
  have hzero : (0 : Float).toModel.unpack = .zero .positive := by rfl
  rw [le_iff, hzero, le_iff_magnitude (u := .zero .positive) trivial (isCanonical_unpack _) trivial]
  exact and_iff_left zero_le

theorem le_iff_of_nonneg {x y : Float} (hx : 0 ≤ x) :
    x ≤ y ↔ 0 ≤ y ∧ magnitude x.toModel.unpack ≤ magnitude y.toModel.unpack := by
  rw [le_iff, zero_le_iff,
    le_iff_magnitude (isCanonical_unpack _) (isCanonical_unpack _) (zero_le_iff.mp hx)]

/-- A finite number that is not below zero is at least zero, for it is not undefined. -/
theorem nonneg_of_finite {x : Float} (hfinite : x.isFinite = true) (h : ¬ x < 0) : 0 ≤ x := by
  have hlt : ¬ x.toModel.unpack.lt (.zero .positive) = true := by
    refine fun hlt => h ?_
    change decide (x.toModel < _) = true
    exact decide_eq_true hlt
  have hfin : x.toModel.unpack.isFinite = true := hfinite
  rw [zero_le_iff]
  cases hu : x.toModel.unpack with
  | notANumber => simp [hu, UnpackedFloat.isFinite] at hfin
  | infinity s => simp [hu, UnpackedFloat.isFinite] at hfin
  | zero s => trivial
  | finite s m e hm =>
      cases s with
      | positive => rfl
      | negative => simp [hu, UnpackedFloat.lt, UnpackedFloat.compare] at hlt

/-- A sum of doubles that are not below zero is not less than either. -/
theorem le_add {x y : Float} (hx : 0 ≤ x) (hy : 0 ≤ y) : x ≤ x + y ∧ y ≤ x + y := by
  have nx := zero_le_iff.mp hx
  have ny := zero_le_iff.mp hy
  obtain ⟨hcanon, hn, hle, hle'⟩ :=
    magnitude_le_add (isCanonical_unpack x.toModel) (isCanonical_unpack y.toModel) nx ny
  obtain ⟨hsum, hpack⟩ := le_magnitude_unpack_pack hcanon hn
  have hadd : (x + y).toModel.unpack = (Float.Model.pack
      (UnpackedFloat.add .binary64 x.toModel.unpack y.toModel.unpack)).unpack := rfl
  rw [le_iff_of_nonneg hx, le_iff_of_nonneg hy, zero_le_iff, hadd]
  exact ⟨⟨hsum, hle.trans hpack⟩, hsum, hle'.trans hpack⟩

end Double

/-! ### What sums need -/

/-- Numbers whose sums, rounded or not, are not less than their summands, if these are not below
zero. -/
class RoundedSum (α : Type) [Zero α] [Add α] [LT α] [LE α] [Quantity α] : Prop where
  zero_le_zero : (0 : α) ≤ 0
  /-- An actual number is below zero or not. -/
  nonneg_of_finite {x : α} : Quantity.isFinite x = true → ¬ x < 0 → 0 ≤ x
  le_trans_of_nonneg {x y z : α} : 0 ≤ x → x ≤ y → y ≤ z → x ≤ z
  le_add {x y : α} : 0 ≤ x → 0 ≤ y → x ≤ x + y ∧ y ≤ x + y

instance : RoundedSum Float where
  zero_le_zero := Double.zero_le_iff.mpr trivial
  nonneg_of_finite := Double.nonneg_of_finite
  le_trans_of_nonneg := fun hx hxy hyz => by
    obtain ⟨hy, hle⟩ := (Double.le_iff_of_nonneg hx).mp hxy
    obtain ⟨hz, hle'⟩ := (Double.le_iff_of_nonneg hy).mp hyz
    exact (Double.le_iff_of_nonneg hx).mpr ⟨hz, hle.trans hle'⟩
  le_add := Double.le_add

instance : RoundedSum Rat where
  zero_le_zero := le_rfl
  nonneg_of_finite := fun _ h => not_lt.mp h
  le_trans_of_nonneg := fun _ => le_trans
  le_add := fun hx hy => ⟨le_add_of_nonneg_right hy, le_add_of_nonneg_left hx⟩

/-- A sum from left to right of numbers that are not below zero is neither, and it is not less than
any of them. -/
theorem RoundedSum.le_foldl_add {α : Type} [Zero α] [Add α] [LT α] [LE α] [Quantity α]
    [RoundedSum α] {xs : List α} (h : ∀ x ∈ xs, 0 ≤ x) :
    0 ≤ xs.foldl (· + ·) 0 ∧ ∀ x ∈ xs, x ≤ xs.foldl (· + ·) 0 := by
  induction xs using List.reverseRecOn with
  | nil => exact ⟨zero_le_zero, by simp⟩
  | append_singleton xs y ih =>
      obtain ⟨hsum, hle⟩ := ih fun x hx => h x (List.mem_append_left _ hx)
      obtain ⟨hxs, hy⟩ := le_add hsum (h y (by simp))
      rw [List.foldl_append]
      refine ⟨le_trans_of_nonneg zero_le_zero hsum hxs, fun x hx => ?_⟩
      rcases List.mem_append.mp hx with hx | hx
      · exact le_trans_of_nonneg (h x (by simp [hx])) (hle x hx) hxs
      · rw [List.mem_singleton.mp hx]
        exact hy

end Presynth
