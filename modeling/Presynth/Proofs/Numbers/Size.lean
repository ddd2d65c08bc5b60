import Mathlib
import Presynth.Proofs.Numbers.Rounding
import Presynth.Proofs.Numbers.Undefined
/-!
# Sizes of doubles

A finite double that is not below zero is as large as a fraction, and such doubles compare as these
do. The double of a number that is not too large is finite and nearest to it, and it is the number
itself where that takes no more than 53 bits.

Main statements: `IsDoubleOf.nearest`, `IsDoubleOf.size_eq`, `size_le_iff` and `lt_iff_not_le`.
-/

namespace Presynth.Double

open Float.Model Float.Model.UnpackedFloat

variable {q : ℚ} {m : ℕ} {e : ℤ}

/-! ### Sizes -/

/-- The size of a double, if it is finite. -/
def size (x : Float) : ℚ := absolute x.toModel.unpack

theorem size_nonneg (x : Float) : 0 ≤ size x := by
  unfold size
  cases x.toModel.unpack with
  | finite s m e hm => exact mul_nonneg (Nat.cast_nonneg m) (zpow_pos two_pos e).le
  | _ => exact le_rfl

/-- Packing keeps what is not too large. -/
theorem RoundsTo.unpack_pack {u : UnpackedFloat} (hu : RoundsTo q u) (h : absolute u < 2 ^ 1024) :
    (Float.Model.pack u).unpack = u := by
  rcases cases_of_isFinite hu.isFinite with ⟨s, rfl⟩ | ⟨s, m, e, hm, rfl⟩
  · cases s <;> rfl
  · rw [Double.unpack_pack hu.isCanonical, if_neg]
    intro hlarge
    have hcanon : Canonical m e := hu.isCanonical
    have hfull : 2 ^ 52 ≤ m := hcanon.full.resolve_right (by omega)
    refine absurd h (not_lt.mpr ?_)
    have hpow : (2 : ℚ) ^ (972 : ℤ) ≤ 2 ^ e := zpow_le_zpow_right₀ one_le_two (by omega)
    have hbits : (2 : ℚ) ^ 52 ≤ m := by exact_mod_cast hfull
    calc (2 : ℚ) ^ 1024 = 2 ^ 52 * 2 ^ (972 : ℤ) := by
          rw [zpow_ofNat, ← pow_add]
      _ ≤ (m : ℚ) * 2 ^ e := mul_le_mul hbits hpow (by positivity) (Nat.cast_nonneg _)

/-- A rounding within the range is kept exactly when it is packed. -/
theorem IsDoubleOf.eq_absolute {x : Float} {u : UnpackedFloat} (hu : RoundsTo q u)
    (hunpack : x.toModel.unpack = (Float.Model.pack u).unpack) (h : absolute u < 2 ^ 1024) :
    x.isFinite = true ∧ size x = absolute u := by
  rw [hu.unpack_pack h] at hunpack
  constructor
  · change x.toModel.unpack.isFinite = true
    rw [hunpack]
    exact hu.isFinite
  · rw [size, hunpack]

/-- A number that is not too large and takes no more than 53 bits has a double of its own. -/
theorem IsDoubleOf.size_eq {x : Float} (h : IsDoubleOf (m * 2 ^ e) x) (hm : m < 2 ^ 53)
    (he : -1074 ≤ e) (hlt : (m : ℚ) * 2 ^ e < 2 ^ 1024) :
    x.isFinite = true ∧ size x = m * 2 ^ e := by
  obtain ⟨u, hu, hunpack⟩ := h
  have habsolute := hu.absolute_eq hm he
  rw [← habsolute] at hlt ⊢
  exact eq_absolute hu hunpack hlt

/-- The double of a number that is not too large is nearest to it. -/
theorem IsDoubleOf.nearest {x : Float} (h : IsDoubleOf q x) (hle : q ≤ 2 ^ 1023) :
    x.isFinite = true ∧
      ∃ t k, IsTarget q t ∧ IsNearestEven (q / 2 ^ t) k ∧ size x = k * 2 ^ t := by
  obtain ⟨u, hu, hunpack⟩ := h
  have hlarge : RoundsTo ((1 : ℕ) * 2 ^ (1023 : ℤ))
      (UnpackedFloat.round .binary64 .positive 1 1023) := roundsTo_round one_pos
  have hlt : absolute u < 2 ^ 1024 := by
    refine (hu.absolute_le hlarge (hle.trans_eq (by norm_num))).trans_lt ?_
    rw [hlarge.absolute_eq (by decide) (by decide), Nat.cast_one, one_mul, zpow_ofNat]
    exact pow_lt_pow_right₀ one_lt_two (by decide)
  obtain ⟨hfinite, hsize⟩ := eq_absolute hu hunpack hlt
  obtain ⟨t, k, ht, hk, habsolute⟩ := hu.nearest
  exact ⟨hfinite, t, k, ht, hk, hsize.trans habsolute⟩

theorem size_le_iff {x y : Float} (hx : 0 ≤ x) (hy : 0 ≤ y) (fx : x.isFinite = true)
    (fy : y.isFinite = true) : x ≤ y ↔ size x ≤ size y := by
  rw [le_iff_of_nonneg hx, and_iff_right hy]
  exact magnitude_le_iff fx fy (isCanonical_unpack _) (isCanonical_unpack _)

/-! ### Signs -/

theorem le_of_infinity {x y : Float} (hx : 0 ≤ x)
    (hy : y.toModel.unpack = .infinity .positive) : x ≤ y := by
  rw [le_iff_of_nonneg hx, zero_le_iff, hy]
  exact ⟨rfl, le_top⟩

/-- What is not below zero is finite, or the infinity. -/
theorem isFinite_or_infinity {x : Float} (hx : 0 ≤ x) :
    x.isFinite = true ∨ x.toModel.unpack = .infinity .positive := by
  have nx := zero_le_iff.mp hx
  change x.toModel.unpack.isFinite = true ∨ _
  cases hu : x.toModel.unpack with
  | zero | finite => exact .inl rfl
  | notANumber =>
      rw [hu] at nx
      exact nx.elim
  | infinity s =>
      rw [hu] at nx
      obtain rfl : s = .positive := nx
      exact .inr rfl

theorem not_isFinite_of_infinity {x : Float} (hx : x.toModel.unpack = .infinity .positive) :
    ¬ x.isFinite = true := by
  change ¬ x.toModel.unpack.isFinite = true
  rw [hx]
  exact Bool.false_ne_true

/-- What is finite and not below zero is a zero, or has a positive sign and a mantissa. -/
theorem cases_of_nonneg {x : Float} (hx : 0 ≤ x) (fx : x.isFinite = true) :
    (∃ s, x.toModel.unpack = .zero s) ∨
      ∃ m e hm, x.toModel.unpack = .finite .positive m e hm := by
  have nx := zero_le_iff.mp hx
  rcases cases_of_isFinite (u := x.toModel.unpack) fx with ⟨s, hu⟩ | ⟨s, m, e, hm, hu⟩
  · exact .inl ⟨s, hu⟩
  · rw [hu] at nx
    obtain rfl : s = .positive := nx
    exact .inr ⟨m, e, hm, hu⟩

/-- A double above zero has a positive sign and a mantissa. -/
theorem exists_unpack_of_pos {x : Float} (hx : 0 < x) (fx : x.isFinite = true) :
    ∃ m e hm, x.toModel.unpack = .finite .positive m e hm := by
  have hpos : (UnpackedFloat.zero .positive).lt x.toModel.unpack = true := lt_iff.mp hx
  rcases cases_of_isFinite (u := x.toModel.unpack) fx with ⟨s, hu⟩ | ⟨s, m, e, hm, hu⟩
  · rw [hu] at hpos
    cases hpos
  · cases s with
    | positive => exact ⟨m, e, hm, hu⟩
    | negative =>
        rw [hu] at hpos
        cases hpos

theorem nonneg_of_pos {x : Float} (hx : 0 < x) (fx : x.isFinite = true) : 0 ≤ x := by
  obtain ⟨m, e, hm, hu⟩ := exists_unpack_of_pos hx fx
  rw [zero_le_iff, hu]
  rfl

/-- What is not below zero is compared by size, also if equal sizes do not count. -/
theorem lt_iff_magnitude {u v : UnpackedFloat} (hu : IsCanonical u) (hv : IsCanonical v)
    (nu : IsNonneg u) (nv : IsNonneg v) : u.lt v = true ↔ magnitude u < magnitude v := by
  cases u with
  | notANumber => exact absurd nu id
  | infinity s =>
      obtain rfl : s = .positive := nu
      cases v with
      | notANumber => exact absurd nv id
      | infinity s' =>
          obtain rfl : s' = .positive := nv
          simp [UnpackedFloat.lt, UnpackedFloat.compare]
      | _ => simp [UnpackedFloat.lt, UnpackedFloat.compare]
  | zero s =>
      cases v with
      | notANumber => exact absurd nv id
      | infinity s' =>
          obtain rfl : s' = .positive := nv
          simp [UnpackedFloat.lt, UnpackedFloat.compare]
      | zero s' => simp [UnpackedFloat.lt, UnpackedFloat.compare]
      | finite s' m e hm =>
          obtain rfl : s' = .positive := nv
          simp [UnpackedFloat.lt, UnpackedFloat.compare, units_pos hm e]
  | finite s m e hm =>
      obtain rfl : s = .positive := nu
      cases v with
      | notANumber => exact absurd nv id
      | infinity s' =>
          obtain rfl : s' = .positive := nv
          simp [UnpackedFloat.lt, UnpackedFloat.compare]
      | zero s' => simp [UnpackedFloat.lt, UnpackedFloat.compare]
      | finite s' m' e' hm' =>
          obtain rfl : s' = .positive := nv
          rw [UnpackedFloat.lt, UnpackedFloat.compare, Canonical.compare_eq hu hv]
          simp [compare_lt_iff_lt]

theorem lt_iff_not_le {x y : Float} (hx : 0 ≤ x) (hy : 0 ≤ y) : x < y ↔ ¬ y ≤ x := by
  rw [lt_iff, le_iff_of_nonneg hy, and_iff_right hx, not_le,
    lt_iff_magnitude (isCanonical_unpack _) (isCanonical_unpack _) (zero_le_iff.mp hx)
      (zero_le_iff.mp hy)]

/-- What is above a number is one. -/
theorem nonneg_of_lt {x y : Float} (hx : 0 ≤ x) (h : x < y) : 0 ≤ y := by
  rw [zero_le_iff] at hx ⊢
  rw [lt_iff] at h
  generalize x.toModel.unpack = u, y.toModel.unpack = v at hx h
  cases v with
  | zero s => trivial
  | notANumber => cases u <;> simp [UnpackedFloat.lt, UnpackedFloat.compare] at h
  | infinity s =>
      cases s with
      | positive => rfl
      | negative => cases u <;> simp_all [UnpackedFloat.lt, UnpackedFloat.compare]
  | finite s m e hm =>
      cases s with
      | positive => rfl
      | negative => cases u <;> simp_all [UnpackedFloat.lt, UnpackedFloat.compare]

theorem isFinite_of_le {x y : Float} (hx : 0 ≤ x) (hxy : x ≤ y) (fy : y.isFinite = true) :
    x.isFinite = true := by
  refine (isFinite_or_infinity hx).resolve_right fun hinf => ?_
  have hle := ((le_iff_of_nonneg hx).mp hxy).2
  obtain ⟨n, hn, -⟩ := exists_magnitude (u := y.toModel.unpack) fy (isCanonical_unpack _)
  rw [hinf, hn] at hle
  exact absurd hle (by simp)

end Presynth.Double
