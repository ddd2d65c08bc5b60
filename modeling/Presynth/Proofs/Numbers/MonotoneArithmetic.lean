import Mathlib
import Presynth.Proofs.Numbers.Size
/-!
# Products, quotients and whole numbers as doubles

A product or a quotient of doubles that are not below zero is the double nearest to the exact one,
and a whole number becomes the double nearest to it. Rounding keeps the order of numbers, so
products and quotients grow with their arguments, into the infinity too.

Main statements: `isDoubleOf_ofNat`, `isDoubleOf_mul`, `isDoubleOf_div`, `div_le_div` and
`mul_le_mul_of_le`.
-/

namespace Presynth.Double

open Float.Model Float.Model.UnpackedFloat

variable {s t : ℤ} {m : ℕ} {e : ℤ}

/-! ### Whole numbers -/

/-- A word of no more than 53 bits has a double of its own. -/
theorem unpack_toFloat_of_lt {n : ℕ} (hpos : 0 < n) (hn : n < 2 ^ 53) :
    ∃ m e hm, n.toUInt64.toFloat.toModel.unpack = .finite .positive m e hm ∧
      (m : ℚ) * 2 ^ e = n := by
  have hword : n.toUInt64.toNat = n := UInt64.toNat_ofNat_of_lt' (by simp [UInt64.size]; omega)
  -- the conversion rounds, so that nothing is lost has to be read off the size
  have hnormal : UnpackedFloat.ofUInt64 .binary64 n.toUInt64 =
      UnpackedFloat.round .binary64 .positive n 0 := by
    show UnpackedFloat.normalize .binary64 (n.toUInt64.toNat : Int) 0 .positive = _
    have hgt : compare (n : Int) 0 = .gt := compare_gt_iff_gt.mpr (by omega)
    rw [hword]
    unfold UnpackedFloat.normalize
    rw [hgt]
    rfl
  have hround : RoundsTo (n * 2 ^ (0 : ℤ)) (UnpackedFloat.round .binary64 .positive n 0) :=
    roundsTo_round hpos
  have hdouble : IsDoubleOf (n * 2 ^ (0 : ℤ)) n.toUInt64.toFloat := by
    refine ⟨_, hround, ?_⟩
    rw [← hnormal]
    rfl
  have hlt : (n : ℚ) * 2 ^ (0 : ℤ) < 2 ^ 1024 := by
    rw [zpow_zero, mul_one]
    have : (n : ℚ) < 2 ^ 53 := by exact_mod_cast hn
    exact this.trans (pow_lt_pow_right₀ one_lt_two (by decide))
  obtain ⟨hfinite, hsize⟩ := hdouble.size_eq hn (by decide) hlt
  rw [zpow_zero, mul_one, size] at hsize
  rcases cases_of_nonneg hdouble.nonneg hfinite with ⟨s, hu⟩ | ⟨m, e, hm, hu⟩
  · have hzero : (0 : ℚ) = n := by rw [← hsize, hu]; rfl
    exact absurd hzero (by exact_mod_cast hpos.ne)
  · rw [hu] at hsize
    exact ⟨m, e, hm, hu, hsize⟩

/-- A word is multiplied by one, which keeps it. -/
theorem roundsTo_mul_one (hm : 0 < m) :
    RoundsTo (m * 2 ^ e) (roundWithAccuracy .binary64 .positive (m * 2 ^ 52) (e + -52) .exact) := by
  have hvalue : (m : ℚ) * 2 ^ e = (m * 2 ^ 52 : ℕ) * 2 ^ (e + -52) := by
    rw [zpow_add₀ two_ne_zero]
    push_cast
    norm_num
    ring
  have hlog : (m * 2 ^ 52).log2 = m.log2 + 52 := by
    rw [← Nat.shiftLeft_eq, log2_shiftLeft hm]
  rw [hvalue]
  refine roundsTo_exact ?_
  unfold target
  rw [hlog]
  omega

/-- A greater number is given 53 more bits, so that it is rounded from all of its own. -/
theorem roundsTo_shift {n : ℕ} (hpos : 0 < n) :
    RoundsTo n (roundWithAccuracy .binary64 .positive (n <<< 53 * 1) (-53) .exact) := by
  have hvalue : (n : ℚ) = (n <<< 53 * 1 : ℕ) * 2 ^ (-53 : ℤ) := by
    rw [Nat.mul_one, Nat.shiftLeft_eq]
    push_cast
    norm_num
    ring
  rw [hvalue]
  refine roundsTo_exact ?_
  unfold target
  rw [Nat.mul_one, log2_shiftLeft hpos]
  omega

/-- A whole number becomes the nearest double. -/
theorem isDoubleOf_ofNat (n : ℕ) : IsDoubleOf n (Float.ofNat n) := by
  rcases Nat.eq_zero_or_pos n with rfl | hpos
  · exact ⟨.zero .positive, by exact_mod_cast roundsTo_zero .positive, rfl⟩
  show IsDoubleOf n (Float.ofScientific n false 0)
  unfold Float.ofScientific
  split
  · -- what fits a word is converted exactly and multiplied by one
    rename_i hsmall
    obtain ⟨m, e, hm, hunpack, hvalue⟩ := unpack_toFloat_of_lt hpos hsmall.1
    have hone : (Float.ofBits 0x3FF0000000000000).toModel.unpack =
        .finite .positive (2 ^ 52) (-52) (by decide) := rfl
    refine ⟨_, hvalue ▸ roundsTo_mul_one hm, ?_⟩
    show (Float.Model.pack (UnpackedFloat.mul .binary64 n.toUInt64.toFloat.toModel.unpack
      (Float.ofBits 0x3FF0000000000000).toModel.unpack)).unpack = _
    rw [hunpack, hone]
    rfl
  · have hshift : UnpackedFloat.ofScientific .binary64 n 0 =
        roundWithAccuracy .binary64 .positive (n <<< 53 * 1) (-53) .exact := by
      unfold UnpackedFloat.ofScientific
      rw [dif_neg hpos.ne', if_neg (by decide), if_neg (by grind), if_pos (by decide)]
      rfl
    refine ⟨UnpackedFloat.ofScientific .binary64 n 0, ?_, rfl⟩
    rw [hshift]
    exact roundsTo_shift hpos

theorem nonneg_natCast (n : ℕ) : (0 : Float) ≤ (n : Float) := (isDoubleOf_ofNat n).nonneg

/-- Counts are rounded when they become doubles, but their order is kept. -/
theorem natCast_le_natCast {a b : ℕ} (h : a ≤ b) : (a : Float) ≤ (b : Float) :=
  (isDoubleOf_ofNat a).le (isDoubleOf_ofNat b) (by exact_mod_cast h)

/-! ### Products and quotients -/

theorem mul_comm (x y : Float) : x * y = y * x := by
  have hsign (s t : Sign) : s * t = t * s := by cases s <;> cases t <;> rfl
  have hunpacked (u v : UnpackedFloat) :
      UnpackedFloat.mul .binary64 u v = UnpackedFloat.mul .binary64 v u := by
    cases u <;> cases v <;>
      simp only [UnpackedFloat.mul, hsign, Nat.mul_comm, Int.add_comm]
  exact congrArg (fun u => Float.ofModel (Float.Model.pack u)) (hunpacked _ _)

/-- A product of mantissas has 53 bits or an exponent below the least one. -/
theorem exponent_mul_le {m' : ℕ} {e' : ℤ} (h : Canonical m e) (h' : Canonical m' e') (hm : 0 < m)
    (hm' : 0 < m') : e + e' ≤ target (m * m') (e + e') := by
  unfold target
  rcases h.full with hfull | hleast
  · have hle : 2 ^ 52 ≤ m * m' := hfull.trans (Nat.le_mul_of_pos_right m hm')
    have hlog := (Nat.le_log2 (Nat.mul_pos hm hm').ne').mpr hle
    omega
  · rcases h'.full with hfull | hleast'
    · have hle : 2 ^ 52 ≤ m * m' := hfull.trans (Nat.le_mul_of_pos_left m' hm)
      have hlog := (Nat.le_log2 (Nat.mul_pos hm hm').ne').mpr hle
      omega
    · omega

/-- A product of finite doubles is the double nearest to the exact one. -/
theorem isDoubleOf_mul {x y : Float} (hx : 0 ≤ x) (hy : 0 ≤ y) (fx : x.isFinite = true)
    (fy : y.isFinite = true) : IsDoubleOf (size x * size y) (x * y) := by
  refine ⟨UnpackedFloat.mul .binary64 x.toModel.unpack y.toModel.unpack, ?_, rfl⟩
  unfold size
  rcases cases_of_nonneg hx fx with ⟨s, hu⟩ | ⟨m, e, hm, hu⟩
  · rw [hu]
    rcases cases_of_nonneg hy fy with ⟨s', hv⟩ | ⟨m', e', hm', hv⟩ <;>
      rw [hv] <;> simpa [absolute, UnpackedFloat.mul] using roundsTo_zero _
  rcases cases_of_nonneg hy fy with ⟨s', hv⟩ | ⟨m', e', hm', hv⟩
  · rw [hu, hv]
    simpa [absolute, UnpackedFloat.mul] using roundsTo_zero _
  have hc := (canonical_of_unpack hu).1
  have hc' := (canonical_of_unpack hv).1
  rw [hu, hv]
  have hvalue : (m : ℚ) * 2 ^ e * (m' * 2 ^ e') = (m * m' : ℕ) * 2 ^ (e + e') := by
    rw [zpow_add₀ two_ne_zero]
    push_cast
    ring
  rw [absolute, absolute, hvalue]
  exact roundsTo_exact (exponent_mul_le hc hc' hm hm')

/-- The quotient of two mantissas, cut off, has 53 bits or the least exponent. -/
theorem exponent_div_le {m' : ℕ} {t : ℤ} {k : ℕ} (hm : 0 < m) (hm' : 0 < m')
    (ht : t ≤ max ((m.log2 : ℤ) + 1 + e - (m'.log2 + 1 + s) - 53) (-1074))
    (hk : (k : ℤ) = e - s - t) : t ≤ target ((m <<< k) / m') t := by
  unfold target
  rcases le_or_gt t (-1074) with hsmall | hlarge
  · exact hsmall.trans (le_max_right _ _)
  · have hquotient : 2 ^ 52 ≤ (m <<< k) / m' := by
      rw [Nat.le_div_iff_mul_le hm', Nat.shiftLeft_eq]
      calc 2 ^ 52 * m' ≤ 2 ^ 52 * 2 ^ (m'.log2 + 1) := Nat.mul_le_mul_left _ Nat.lt_log2_self.le
        _ = 2 ^ (m'.log2 + 53) := by rw [← Nat.pow_add]; congr 1; omega
        _ ≤ 2 ^ (m.log2 + k) := Nat.pow_le_pow_right (by decide) (by omega)
        _ = 2 ^ m.log2 * 2 ^ k := Nat.pow_add ..
        _ ≤ m * 2 ^ k := Nat.mul_le_mul_right _ (Nat.log2_self_le hm.ne')
    have hlog := (Nat.le_log2 (Nat.pos_of_ne_zero (by omega)).ne').mpr hquotient
    omega

/-- A quotient of finite doubles is the double nearest to the exact one. -/
theorem isDoubleOf_div {x y : Float} (hx : 0 ≤ x) (hy : 0 < y) (fx : x.isFinite = true)
    (fy : y.isFinite = true) : IsDoubleOf (size x / size y) (x / y) := by
  refine ⟨UnpackedFloat.div .binary64 x.toModel.unpack y.toModel.unpack, ?_, rfl⟩
  obtain ⟨m', e', hm', hv⟩ := exists_unpack_of_pos hy fy
  unfold size
  rw [hv]
  rcases cases_of_nonneg hx fx with ⟨s, hu⟩ | ⟨m, e, hm, hu⟩
  · rw [hu]
    simpa [absolute, UnpackedFloat.div] using roundsTo_zero _
  rw [hu]
  obtain ⟨bound, hbound⟩ : ∃ bound : ℤ,
      max ((m.log2 : ℤ) + 1 + e - (m'.log2 + 1 + e') - 53) (-1074) = bound := ⟨_, rfl⟩
  have htarget : Format.binary64.targetExponent (totalExponent m e - totalExponent m' e') =
      bound := hbound
  rw [absolute, absolute, UnpackedFloat.div, divCore]
  simp only [htarget]
  have hmin := min_le_left (e - e') bound
  have hmin' := min_le_right (e - e') bound
  -- of the exponent of the quotient only the two bounds matter
  generalize min (e - e') bound = t at hmin hmin'
  obtain ⟨k, hk⟩ : ∃ k : ℕ, e - e' - t = k := ⟨(e - e' - t).toNat, by omega⟩
  rw [hk, Int.toNat_natCast]
  refine roundsTo_roundWithAccuracy ?_ (exponent_div_le hm hm' (hmin'.trans_eq hbound.symm) hk.symm)
  have hvalue : (m : ℚ) * 2 ^ e / (m' * 2 ^ e') / 2 ^ t = (m <<< k : ℕ) / m' := by
    have he : e = k + e' + t := by omega
    have h2 : (2 : ℚ) ^ e' ≠ 0 := (zpow_pos two_pos _).ne'
    have h3 : (2 : ℚ) ^ t ≠ 0 := (zpow_pos two_pos _).ne'
    rw [he, zpow_add₀ two_ne_zero, zpow_add₀ two_ne_zero, Nat.shiftLeft_eq]
    push_cast
    simp
    field_simp
  rw [hvalue]
  exact denotes_fraction _ hm'

/-! ### Order -/

theorem unpack_infinity_div {x d : Float} (hx : x.toModel.unpack = .infinity .positive) (hd : 0 < d)
    (fd : d.isFinite = true) : (x / d).toModel.unpack = .infinity .positive := by
  obtain ⟨m, e, hm, hu⟩ := exists_unpack_of_pos hd fd
  show (Float.Model.pack (UnpackedFloat.div .binary64 x.toModel.unpack d.toModel.unpack)).unpack = _
  rw [hx, hu, UnpackedFloat.div]
  rfl

theorem unpack_mul_infinity {x y : Float} (hx : 0 < x) (fx : x.isFinite = true)
    (hy : y.toModel.unpack = .infinity .positive) :
    (x * y).toModel.unpack = .infinity .positive := by
  obtain ⟨m, e, hm, hu⟩ := exists_unpack_of_pos hx fx
  show (Float.Model.pack (UnpackedFloat.mul .binary64 x.toModel.unpack y.toModel.unpack)).unpack = _
  rw [hy, hu, UnpackedFloat.mul]
  rfl

theorem nonneg_div {x d : Float} (hx : 0 ≤ x) (hd : 0 < d) (fd : d.isFinite = true) :
    0 ≤ x / d := by
  rcases isFinite_or_infinity hx with fx | hinf
  · exact (isDoubleOf_div hx hd fx fd).nonneg
  · rw [zero_le_iff, unpack_infinity_div hinf hd fd]
    rfl

/-- A greater dividend has no lesser quotient. -/
theorem div_le_div {x y d : Float} (hx : 0 ≤ x) (hxy : x ≤ y) (hd : 0 < d)
    (fd : d.isFinite = true) : x / d ≤ y / d := by
  have hy := ((le_iff_of_nonneg hx).mp hxy).1
  rcases isFinite_or_infinity hy with fy | hinf
  · have fx := isFinite_of_le hx hxy fy
    refine (isDoubleOf_div hx hd fx fd).le (isDoubleOf_div hy hd fy fd) ?_
    exact div_le_div_of_nonneg_right ((size_le_iff hx hy fx fy).mp hxy) (size_nonneg _)
  · exact le_of_infinity (nonneg_div hx hd fd) (unpack_infinity_div hinf hd fd)

theorem nonneg_mul {x z : Float} (hx : 0 < x) (fx : x.isFinite = true) (hz : 0 ≤ z) :
    0 ≤ x * z := by
  rcases isFinite_or_infinity hz with fz | hinf
  · exact (isDoubleOf_mul (nonneg_of_pos hx fx) hz fx fz).nonneg
  · rw [zero_le_iff, unpack_mul_infinity hx fx hinf]
    rfl

/-- A greater factor has no lesser product. -/
theorem mul_le_mul_of_le {x y z : Float} (hx : 0 < x) (fx : x.isFinite = true) (hy : 0 < y)
    (fy : y.isFinite = true) (hxy : x ≤ y) (hz : 0 ≤ z) : x * z ≤ y * z := by
  rcases isFinite_or_infinity hz with fz | hinf
  · have nx := nonneg_of_pos hx fx
    have ny := nonneg_of_pos hy fy
    refine (isDoubleOf_mul nx hz fx fz).le (isDoubleOf_mul ny hz fy fz) ?_
    exact mul_le_mul_of_nonneg_right ((size_le_iff nx ny fx fy).mp hxy) (size_nonneg _)
  · exact le_of_infinity (nonneg_mul hx fx hz) (unpack_mul_infinity hy fy hinf)

end Presynth.Double
