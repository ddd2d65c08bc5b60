import Presynth.Decimal.Binary
import Presynth.Proofs.Numbers.Undefined
/-!
# Finite doubles

A double is finite if its exponent field is not the greatest. Rounding raises an exponent by one at
most, so what is far from the largest doubles stays finite when it is rounded; a quotient is, whose
divisor is at least four, and a product is unless it is an infinity.

Main statements: `isFinite_iff_reading`, `isFinite_div` and `isFinite_mul`.
-/

namespace Presynth.Double

open Float.Model Float.Model.UnpackedFloat

/-! ### Patterns -/

/-- A pattern is that of a finite number unless all bits of its exponent are set. -/
theorem isFinite_unpack (b : BitVec 64) :
    (UnpackedFloat.unpack .binary64 b).isFinite = true ↔
      @unpackExponent .binary64 b ≠ -1#11 := by
  unfold UnpackedFloat.unpack
  dsimp only
  split
  · rename_i hgreatest
    refine iff_of_false ?_ (not_not.mpr hgreatest)
    split <;> exact Bool.false_ne_true
  · rename_i hless
    refine iff_of_true ?_ hless
    split
    · split <;> rfl
    · rfl

theorem toNat_unpackExponent (bits : UInt64) :
    (@unpackExponent .binary64 bits.toBitVec).toNat = ((bits >>> 52) &&& 0x7ff).toNat := by
  change (bits.toNat >>> 52) % 2 ^ 11 = (bits.toNat >>> 52) &&& (2 ^ 11 - 1)
  rw [Nat.and_two_pow_sub_one_eq_mod]

/-- The finite doubles are those that can be taken apart. -/
theorem isFinite_iff_reading {x : Float} :
    x.isFinite = true ↔ ∃ b, Decimal.reading x = .finite b := by
  have hfield : @unpackExponent .binary64 x.toBits.toBitVec = -1#11 ↔
      ((x.toBits >>> 52) &&& 0x7ff).toNat = 2047 := by
    rw [← toNat_unpackExponent, ← BitVec.toNat_inj]
    rfl
  have hfinite : x.isFinite = true ↔
      @unpackExponent .binary64 x.toBits.toBitVec ≠ -1#11 := isFinite_unpack _
  rw [hfinite, Ne, hfield]
  unfold Decimal.reading Decimal.readingOfBits
  dsimp only
  split
  · rename_i hgreatest
    refine iff_of_false (not_not.mpr hgreatest) ?_
    split
    · rintro ⟨b, ⟨⟩⟩
    · rintro ⟨b, ⟨⟩⟩
  · rename_i hless
    refine iff_of_true hless ?_
    split
    · exact ⟨_, rfl⟩
    · exact ⟨_, rfl⟩

/-- What has a small exponent is not too large to be packed. -/
theorem isFinite_pack {s : Sign} {m : Nat} {e : Int} {hm : 0 < m} (he : e ≤ 971) :
    (Float.Model.pack (.finite s m e hm)).unpack.isFinite = true := by
  show (UnpackedFloat.unpack .binary64
    (UnpackedFloat.pack .binary64 (.finite s m e hm))).isFinite = true
  rw [isFinite_unpack]
  have hbias : (e + Format.binary64.exponentBias +
      Format.binary64.mantissaBitsWithoutImplicit).toNat = (e + 1075).toNat := by
    congr 1
    exact Int.add_assoc e 1023 52
  unfold UnpackedFloat.pack
  dsimp only
  rw [hbias]
  split
  · -- the exponent would need a twelfth bit
    rename_i hlarge
    change 2 ^ 11 ≤ _ at hlarge
    omega
  · split
    · rw [unpackExponent_packComponents, Ne, ← BitVec.toNat_inj, BitVec.toNat_ofNat]
      change ¬ _ % 2 ^ 11 = 2047
      omega
    · rw [unpackExponent_packComponents]
      decide

/-! ### Rounding -/

/-- Shifting cuts a number off at its target exponent, or leaves it if it is beyond. -/
theorem exists_shiftToTargetExponent (m : Nat) (e : Int) (acc : Accuracy) :
    ∃ em : ExtendedMantissa, em.mantissa = m / 2 ^ (target m e - e).toNat ∧
      shiftToTargetExponent .binary64 m e acc = (em, max e (target m e)) := by
  have hmantissa : (ExtendedMantissa.ofMantissaAndAccuracy m acc).mantissa = m := by
    unfold ExtendedMantissa.ofMantissaAndAccuracy
    split <;> rfl
  refine ⟨_, (mantissa_shiftRight (.ofMantissaAndAccuracy m acc) _).trans (by rw [hmantissa]), ?_⟩
  unfold shiftToTargetExponent shiftToExponent
  simp only [targetExponent_totalExponent]
  congr 1
  omega

/-- A number that is cut off and rounded up has one bit more than was left at most. -/
theorem log2_le_of_le_div_succ {m k r : Nat} (hr : r ≤ m / 2 ^ k + 1) :
    r.log2 ≤ m.log2 + 1 - k := by
  have hlt : m / 2 ^ k < 2 ^ (m.log2 + 1 - k) := by
    rcases Nat.le_total k (m.log2 + 1) with hk | hk
    · rw [Nat.div_lt_iff_lt_mul (Nat.two_pow_pos k), ← Nat.pow_add, Nat.sub_add_cancel hk]
      exact Nat.lt_log2_self
    · have hm : m < 2 ^ k := Nat.lt_log2_self.trans_le (Nat.pow_le_pow_right (by decide) hk)
      rw [Nat.div_eq_of_lt hm]
      exact Nat.two_pow_pos _
  rcases Nat.eq_zero_or_pos r with rfl | hpos
  · simp
  · refine Nat.lt_succ_iff.mp ((Nat.log2_lt hpos.ne').mpr ?_)
    rw [Nat.pow_succ]
    have hone := Nat.two_pow_pos (m.log2 + 1 - k)
    omega

/-- Rounding leaves a number far below the largest doubles there. -/
theorem exponent_roundWithAccuracy (s : Sign) {m : Nat} {e bound : Int} (acc : Accuracy)
    (he : e ≤ bound) (hm : m.log2 + e ≤ bound + 51) (hbound : -1074 ≤ bound) :
    roundWithAccuracy .binary64 s m e acc = .zero s ∨
      ∃ m' e' hm', roundWithAccuracy .binary64 s m e acc = .finite s m' e' hm' ∧ e' ≤ bound := by
  obtain ⟨em, hem, hshift⟩ := exists_shiftToTargetExponent m e acc
  obtain ⟨em', -, hshift'⟩ :=
    exists_shiftToTargetExponent em.roundedMantissa (max e (target m e)) .exact
  have hfirst : max e (target m e) ≤ bound := by
    unfold target
    omega
  have hlast :
      max (max e (target m e)) (target em.roundedMantissa (max e (target m e))) ≤ bound := by
    have hbits := log2_le_of_le_div_succ ((roundedMantissa_bounds em).2.trans (by rw [hem]))
    unfold target at hbits ⊢
    omega
  unfold roundWithAccuracy
  simp only [hshift, hshift']
  split
  · exact .inl rfl
  · rename_i hpos
    exact .inr ⟨_, _, Nat.pos_of_ne_zero hpos, rfl, hlast⟩

/-! ### Quotients and products -/

theorem isFinite_pack_zero (s : Sign) : (Float.Model.pack (.zero s)).unpack.isFinite = true := by
  cases s <;> rfl

/-- Rounding to 53 bits cannot carry a number beyond the greatest double if it is below the power of
two in front of that. -/
theorem isFinite_pack_roundWithAccuracy (s : Sign) {m : Nat} {e : Int} (acc : Accuracy)
    (he : e ≤ 971) (hm : m.log2 + e ≤ 1022) :
    (Float.Model.pack (roundWithAccuracy .binary64 s m e acc)).unpack.isFinite = true := by
  have hround := exponent_roundWithAccuracy s acc he (show m.log2 + e ≤ 971 + 51 by omega)
    (by decide)
  rcases hround with hzero | ⟨m', e', hm', hrounded, he'⟩
  · rw [hzero]
    exact isFinite_pack_zero s
  · rw [hrounded]
    exact isFinite_pack he'

theorem log2_le_of_canonical {m : Nat} {e : Int} (hm : 0 < m) (h : Canonical m e) : m.log2 ≤ 52 :=
  Nat.lt_succ_iff.mp ((Nat.log2_lt hm.ne').mpr h.bits)

/-- A quotient has no more bits, with its exponent, than its parts say. -/
theorem exists_divCore {m₁ m₂ : Nat} {e₁ e₂ : Int} (h₁ : 0 < m₁) (h₂ : 0 < m₂) :
    ∃ q e acc, divCore .binary64 m₁ e₁ m₂ e₂ = (q, e, acc) ∧
      e ≤ max (m₁.log2 + e₁ - (m₂.log2 + e₂) - 53) (-1074) ∧
      (q.log2 + e ≤ m₁.log2 + e₁ - (m₂.log2 + e₂) + 1 ∨ q.log2 = 0) := by
  have htarget : Format.binary64.targetExponent (totalExponent m₁ e₁ - totalExponent m₂ e₂) =
      max (((m₁.log2 : Int) + 1 + e₁) - (m₂.log2 + 1 + e₂) - 53) (-1074) := rfl
  refine ⟨_, _, _, rfl, ?_, ?_⟩
  · rw [htarget]
    omega
  · have hexponent := min_le_left (e₁ - e₂)
      (Format.binary64.targetExponent (totalExponent m₁ e₁ - totalExponent m₂ e₂))
    generalize min (e₁ - e₂) (Format.binary64.targetExponent _) = exponent at hexponent ⊢
    generalize hshift : (e₁ - e₂ - exponent).toNat = shift
    have hle : (m₁ <<< shift) / m₂ ≤ (m₁ <<< shift) / 2 ^ m₂.log2 + 1 :=
      (Nat.div_le_div_left (Nat.log2_self_le h₂.ne') (Nat.two_pow_pos _)).trans (Nat.le_succ _)
    have hbits := log2_le_of_le_div_succ hle
    rw [log2_shiftLeft h₁] at hbits
    omega

/-- What is finite is zero or has a mantissa. -/
theorem cases_of_isFinite {u : UnpackedFloat} (h : u.isFinite = true) :
    (∃ s, u = .zero s) ∨ ∃ s m e hm, u = .finite s m e hm := by
  cases u with
  | zero s => exact .inl ⟨s, rfl⟩
  | finite s m e hm => exact .inr ⟨s, m, e, hm, rfl⟩
  | _ => cases h

/-- A quotient is finite if its divisor is at least four. -/
theorem isFinite_div {x y : Float} (hx : x.isFinite = true) {s : Sign} {m : Nat} {e : Int}
    {hm : 0 < m} (hy : y.toModel.unpack = .finite s m e hm) (hlarge : 2 ≤ m.log2 + e) :
    (x / y).isFinite = true := by
  show (Float.Model.pack
    (UnpackedFloat.div .binary64 x.toModel.unpack y.toModel.unpack)).unpack.isFinite = true
  rw [hy]
  rcases cases_of_isFinite (u := x.toModel.unpack) hx with ⟨s', hu⟩ | ⟨s', m', e', hm', hu⟩
  · rw [hu]
    exact isFinite_pack_zero (s' / s)
  · obtain ⟨hcanon, he'⟩ := canonical_of_unpack hu
    have hlog := log2_le_of_canonical hm' hcanon
    obtain ⟨q, exponent, acc, hquotient, hexponent, hbits⟩ := exists_divCore hm' hm
    rw [hu, UnpackedFloat.div, hquotient]
    exact isFinite_pack_roundWithAccuracy _ _ (by omega) (by omega)

theorem isFinite_neg {x : Float} (hx : x.isFinite = true) : (-x).isFinite = true := by
  show (Float.Model.pack x.toModel.unpack.neg).unpack.isFinite = true
  rcases cases_of_isFinite (u := x.toModel.unpack) hx with ⟨s, hu⟩ | ⟨s, m, e, hm, hu⟩
  · rw [hu]
    exact isFinite_pack_zero (-s)
  · rw [hu]
    exact isFinite_pack (canonical_of_unpack hu).2

/-- Only a product of zero and an infinity is undefined. -/
theorem mul_ne_notANumber {u v : UnpackedFloat} (hu : u.isFinite = true) (hv : v.isFinite = true) :
    UnpackedFloat.mul .binary64 u v ≠ .notANumber := by
  rcases cases_of_isFinite hu with ⟨s, rfl⟩ | ⟨s, m, e, hm, rfl⟩
  · rcases cases_of_isFinite hv with ⟨s', rfl⟩ | ⟨s', m', e', hm', rfl⟩ <;>
      simp [UnpackedFloat.mul]
  · rcases cases_of_isFinite hv with ⟨s', rfl⟩ | ⟨s', m', e', hm', rfl⟩
    · simp [UnpackedFloat.mul]
    · exact roundWithAccuracy_ne_notANumber _ _ _ _

/-- A product of finite doubles is finite, unless it is an infinity. -/
theorem isFinite_mul {x y : Float} (hx : x.isFinite = true) (hy : y.isFinite = true)
    (hxy : (x * y).isInf = false) : (x * y).isFinite = true := by
  have hpacked := unpack_pack_ne_notANumber (mul_ne_notANumber hx hy)
  change (Float.Model.pack (UnpackedFloat.mul .binary64 x.toModel.unpack
    y.toModel.unpack)).unpack.isInf = false at hxy
  show (Float.Model.pack (UnpackedFloat.mul .binary64 x.toModel.unpack
    y.toModel.unpack)).unpack.isFinite = true
  generalize (Float.Model.pack _).unpack = u at hpacked hxy
  cases u with
  | notANumber => exact absurd rfl hpacked
  | infinity s => simp [UnpackedFloat.isInf] at hxy
  | _ => rfl

/-! ### Words -/

/-- The exponent after rounding stays below a bound that leaves room for the carry. -/
theorem exponent_round (s : Sign) {m : Nat} {e bound : Int} (hpos : 0 < m) (he : e ≤ bound)
    (hm : m.log2 + e ≤ bound + 51) (hbound : -1074 ≤ bound) :
    UnpackedFloat.round .binary64 s m e = .zero s ∨
      ∃ m' e' hm', UnpackedFloat.round .binary64 s m e = .finite s m' e' hm' ∧ e' ≤ bound := by
  unfold UnpackedFloat.round
  simp only [targetExponent_totalExponent, decreaseExponent]
  refine exponent_roundWithAccuracy s .exact (by omega) ?_ hbound
  rw [log2_shiftLeft hpos]
  omega

/-- A word that is not zero is a finite double with a small exponent. -/
theorem unpack_toFloat {n : UInt64} (hn : n.toNat ≠ 0) :
    ∃ m e hm, n.toFloat.toModel.unpack = .finite .positive m e hm ∧ m < 2 ^ 53 ∧ e ≤ 12 := by
  have hpos : 0 < n.toNat := Nat.pos_of_ne_zero hn
  have hlog : n.toNat.log2 < 64 := (Nat.log2_lt hn).mpr n.toNat_lt
  have hnormal : UnpackedFloat.ofUInt64 .binary64 n =
      UnpackedFloat.round .binary64 .positive n.toNat 0 := by
    show UnpackedFloat.normalize .binary64 (n.toNat : Int) 0 .positive = _
    have hgt : compare (n.toNat : Int) 0 = .gt := compare_gt_iff_gt.mpr (by omega)
    unfold UnpackedFloat.normalize
    rw [hgt]
    rfl
  obtain ⟨m, e, hm, hround, hcanon, -⟩ := isRounded_round .positive hpos (e := 0) (by decide)
  have hbound :=
    exponent_round .positive hpos (show (0 : Int) ≤ 12 by decide) (by omega) (by decide)
  rw [hround] at hbound
  rcases hbound with hzero | ⟨m', e', hm', heq, he'⟩
  · cases hzero
  · cases heq
    refine ⟨m, e, hm, ?_, hcanon.bits, he'⟩
    show (Float.Model.pack (UnpackedFloat.ofUInt64 .binary64 n)).unpack = _
    rw [hnormal, hround, unpack_pack hcanon, if_neg (by omega)]

/-- A natural number of 64 bits is rounded to a finite double. -/
theorem isFinite_ofNat {n : Nat} (hn : n < 2 ^ 64) : (Float.ofNat n).isFinite = true := by
  by_cases hzero : n = 0
  · rw [hzero]
    rfl
  show (Float.ofScientific n false 0).isFinite = true
  unfold Float.ofScientific
  split
  · -- a small number is a word that is multiplied by one, and the product is rounded
    rename_i hsmall
    have hword : n.toUInt64.toNat = n := UInt64.toNat_ofNat_of_lt' hn
    obtain ⟨m, e, hm, hunpack, hbits, he⟩ := unpack_toFloat (hword.symm ▸ hzero)
    have hone : (Float.ofBits 0x3FF0000000000000).toModel.unpack =
        .finite .positive (2 ^ 52) (-52) (by decide) := rfl
    show (Float.Model.pack (UnpackedFloat.mul .binary64 n.toUInt64.toFloat.toModel.unpack
      (Float.ofBits 0x3FF0000000000000).toModel.unpack)).unpack.isFinite = true
    rw [hunpack, hone]
    refine isFinite_pack_roundWithAccuracy _ _ (by omega) ?_
    have hproduct : (m * 2 ^ 52).log2 < 105 := (Nat.log2_lt (by positivity)).mpr (by omega)
    omega
  · have hlog : n.log2 < 64 := (Nat.log2_lt hzero).mpr hn
    have hmul : UnpackedFloat.ofScientific .binary64 n 0 =
        roundWithAccuracy .binary64 .positive (n <<< 53 * 1) (-53) .exact := by
      unfold UnpackedFloat.ofScientific
      rw [dif_neg hzero, if_neg (by decide), if_neg (by grind), if_pos (by decide)]
      rfl
    show (Float.Model.pack (UnpackedFloat.ofScientific .binary64 n 0)).unpack.isFinite = true
    rw [hmul]
    refine isFinite_pack_roundWithAccuracy _ _ (by decide) ?_
    rw [Nat.mul_one, log2_shiftLeft (Nat.pos_of_ne_zero hzero)]
    omega

end Presynth.Double
