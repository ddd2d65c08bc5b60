import Mathlib
import Presynth.Proofs.Numbers.Words
import Presynth.Proofs.Slack.Sample
import Presynth.Proofs.Technology.Accepted
import Presynth.Technology.Document
/-!
# How large a sample is

An accepted technology has a positive ratio and bounds in order, but nothing is said of its floor.
So a sample is empty exactly where the ratio asks for half a sample or less and this is not below
the floor. With a floor of more than a half that cannot be. The greatest number of samples is
compared as a double, which is exact up to 53 bits.

Main statements: `Technology.checkCalibration_eq_ok_iff` (what is accepted),
`CalibrationPolicy.IsBounded.one_le_sampleSize_iff` (where there is a sample),
`CalibrationPolicy.IsBounded.sampleSize_le` and `Technology.sampleSize_of_ofText`.
-/

namespace Presynth

/-! ### Accepted policies -/

/-- A policy with a positive ratio of samples and bounds that are in order. -/
structure CalibrationPolicy.IsBounded (p : CalibrationPolicy Float) : Prop where
  sampleRatio : p.sampleRatio.isFinite = true ∧ 0 < p.sampleRatio
  minSamples : 0 < p.minSamples
  maxSamples : p.minSamples ≤ p.maxSamples

namespace Technology

/-- A policy is accepted if its fields are in their bounds and its scales in order. The floor for
sparse designs has no bound. -/
theorem checkCalibration_eq_ok_iff {p : CalibrationPolicy Float} :
    checkCalibration p = .ok () ↔ p.IsBounded ∧ ¬ p.smallScale > p.mediumScale := by
  have hratio : ¬ (decide (p.sampleRatio ≤ 0) || !p.sampleRatio.isFinite) = true ↔
      p.sampleRatio.isFinite = true ∧ 0 < p.sampleRatio := by
    rw [Bool.or_eq_true, decide_eq_true_eq, Bool.not_eq_true', not_or, Bool.not_eq_false, and_comm]
    exact and_congr_right fun hfinite =>
      Double.not_le_zero_iff (Double.isNaN_eq_false_of_isFinite hfinite)
  refine guard_eq_ok_iff.trans ((and_congr_left' hratio).trans ?_)
  refine (and_congr_right' (guard_eq_ok_iff.trans (and_congr_right' guard_eq_ok_iff))).trans ?_
  constructor
  · rintro ⟨ratio, bounds, scales, -⟩
    exact ⟨⟨ratio, by omega, by omega⟩, scales⟩
  · rintro ⟨h, scales⟩
    have hmin := h.minSamples
    have hmax := h.maxSamples
    exact ⟨h.sampleRatio, by omega, scales, rfl⟩

/-- The policy of an accepted technology has bounds in order. -/
theorem isBounded_of_ofText {text : String} {t : Technology Float}
    (accepted : ofText text = .ok t) : t.calibration.IsBounded := by
  unfold ofText at accepted
  split at accepted
  · obtain ⟨t', -, accepted⟩ := exists_of_bind_eq_ok accepted
    obtain ⟨⟨⟩, hcheck, accepted⟩ := exists_of_bind_eq_ok accepted
    obtain rfl : t' = t := Except.ok.inj accepted
    unfold check at hcheck
    rw [seq_eq_ok_iff, seq_eq_ok_iff, seq_eq_ok_iff] at hcheck
    exact (checkCalibration_eq_ok_iff.mp hcheck.2.2.2).1
  · cases accepted

end Technology

/-! ### Sizes -/

namespace Double

theorem size_half : size 0.5 = 1 / 2 := by
  have hunpack : (0.5 : Float).toModel.unpack =
      .finite .positive 4503599627370496 (-53) (by decide) := rfl
  rw [size, hunpack]
  norm_num [absolute]

theorem nonneg_half : (0 : Float) ≤ 0.5 := by decide +kernel

/-- A double is rounded to a word of at least one exactly if it is more than a half. -/
theorem one_le_toWord_roundEven_iff {x : Float} (hx : 0 ≤ x) :
    1 ≤ Quantity.toWord (Quantity.roundEven x : Float) ↔ 0.5 < x := by
  rw [lt_iff_not_le nonneg_half hx]
  rcases isFinite_or_infinity hx with fx | hinf
  · obtain ⟨k, hk, hword⟩ := toWord_roundEven hx fx
    rw [hword, size_le_iff hx nonneg_half fx rfl, size_half]
    constructor
    · -- up to a half zero is a nearest integer, and there is only one that is nearest
      intro hone hhalf
      have hzero : IsNearestEven (size x) 0 := by
        refine isNearestEven_of_abs_le ?_ fun _ => rfl
        rwa [Int.cast_zero, sub_zero, abs_of_nonneg (size_nonneg _)]
      have hk0 := hk.unique hzero
      omega
    · intro hhalf
      have hk0 : k ≠ 0 := by
        rintro rfl
        have hwithin := hk.within_half
        rw [Nat.cast_zero, Int.cast_zero, sub_zero, abs_of_nonneg (size_nonneg _)] at hwithin
        exact hhalf hwithin
      unfold maxWord
      omega
  · rw [toWord_roundEven_infinity hinf]
    refine ⟨fun _ hle => ?_, fun _ => by decide⟩
    exact not_isFinite_of_infinity hinf (isFinite_of_le hx hle rfl)

/-- What is not more than a whole number is not rounded to a greater word. -/
theorem toWord_roundEven_le_of_le {x : Float} {n : ℕ} (hx : 0 ≤ x) (hn : n ≤ 2 ^ 53)
    (h : x ≤ (n : Float)) : Quantity.toWord (Quantity.roundEven x : Float) ≤ n := by
  obtain ⟨hfinite, hsize⟩ := size_ofNat hn
  have fx := isFinite_of_le hx h hfinite
  have hle : size x ≤ n := ((size_le_iff hx (nonneg_natCast n) fx hfinite).mp h).trans_eq hsize
  obtain ⟨k, hk, hword⟩ := toWord_roundEven hx fx
  have hkn : (k : ℤ) ≤ n := hk.mono (isNearestEven_intCast n) (by exact_mod_cast hle)
  omega

end Double

namespace CalibrationPolicy

/-- The number of samples that the ratio asks for. -/
def raw (policy : CalibrationPolicy Float) (seqBits : ℕ) : Float :=
  (seqBits : Float) * policy.sampleRatio

namespace IsBounded

variable {policy : CalibrationPolicy Float} (h : policy.IsBounded) (seqBits : ℕ)

include h

theorem nonneg_raw : 0 ≤ policy.raw seqBits := by
  rw [raw, Double.mul_comm]
  exact Double.nonneg_mul h.sampleRatio.2 h.sampleRatio.1 (Double.nonneg_natCast seqBits)

/-- There is a sample where the ratio asks for less than the floor or for more than a half. -/
theorem one_le_sampleSize_iff : 1 ≤ policy.sampleSize seqBits ↔
    policy.raw seqBits < policy.sparseFloor ∨ 0.5 < policy.raw seqBits := by
  have hraw := h.nonneg_raw seqBits
  have hmin := h.minSamples
  have hmax := h.maxSamples
  show 1 ≤ (if _ < policy.raw seqBits then _ else if policy.raw seqBits < _ then _ else _) ↔ _
  split
  · rename_i hlarge
    -- the greatest number of samples is at least one, also as a double
    have hone : 0.5 ≤ (policy.maxSamples : Float) := by
      have hle : ((1 : ℕ) : Float) ≤ (policy.maxSamples : Float) :=
        Double.natCast_le_natCast (by omega)
      exact RoundedSum.le_trans_of_nonneg Double.nonneg_half (by decide +kernel) hle
    have hhalf : 0.5 < policy.raw seqBits := by
      rw [Double.lt_iff_not_le Double.nonneg_half hraw]
      rw [Double.lt_iff_not_le (Double.nonneg_natCast _) hraw] at hlarge
      exact fun hle => hlarge (RoundedSum.le_trans_of_nonneg hraw hle hone)
    exact iff_of_true (by omega) (.inr hhalf)
  · split
    · rename_i hsparse
      exact iff_of_true hmin (.inl hsparse)
    · rename_i hdense
      exact (Double.one_le_toWord_roundEven_iff hraw).trans (or_iff_right hdense).symm

/-- A floor of more than a half leaves no sample empty. -/
theorem one_le_sampleSize (hfloor : 0.5 < policy.sparseFloor) :
    1 ≤ policy.sampleSize seqBits := by
  have hraw := h.nonneg_raw seqBits
  have hnonneg := Double.nonneg_of_lt Double.nonneg_half hfloor
  rw [h.one_le_sampleSize_iff seqBits, Double.lt_iff_not_le hraw hnonneg,
    Double.lt_iff_not_le Double.nonneg_half hraw]
  rw [Double.lt_iff_not_le Double.nonneg_half hnonneg] at hfloor
  by_contra hno
  rw [not_or, not_not, not_not] at hno
  exact hfloor (RoundedSum.le_trans_of_nonneg hnonneg hno.1 hno.2)

/-- No more samples are taken than the policy allows, if their number is a double. -/
theorem sampleSize_le (hmax : policy.maxSamples ≤ 2 ^ 53) :
    policy.sampleSize seqBits ≤ policy.maxSamples := by
  have hraw := h.nonneg_raw seqBits
  show (if _ < policy.raw seqBits then _ else if policy.raw seqBits < _ then _ else _) ≤ _
  split
  · exact le_rfl
  · rename_i hle
    rw [Double.lt_iff_not_le (Double.nonneg_natCast _) hraw, not_not] at hle
    split
    · exact h.maxSamples
    · exact Double.toWord_roundEven_le_of_le hraw hmax hle

end IsBounded

variable {policy : CalibrationPolicy Float} {seqBits : ℕ} {predicted : List Float}

theorem calibrate_of_sampleSize_eq_zero (h : policy.sampleSize seqBits = 0) :
    policy.calibrate seqBits predicted = .error (.emptyPopulation "predicted slack") := by
  rw [calibrate_eq_error_iff, h]
  rfl

/-- A sample of at least one slack can be calibrated with. -/
theorem exists_calibrate_eq_ok (h : 1 ≤ policy.sampleSize seqBits) (hne : predicted ≠ [])
    (hfinite : ∀ x ∈ predicted, x.isFinite = true) :
    ∃ c, policy.calibrate seqBits predicted = .ok c := by
  have hsample : predicted.take (policy.sampleSize seqBits) ≠ [] := by
    rw [Ne, List.take_eq_nil_iff, not_or]
    exact ⟨by omega, hne⟩
  have hsafe : ∀ x ∈ predicted.take (policy.sampleSize seqBits), Quantity.isFinite x = true :=
    fun x hx => hfinite x (List.mem_of_mem_take hx)
  exact ⟨_, calibrate_eq_ok_iff.mpr ⟨⟨hsample, hsafe⟩, rfl⟩⟩

end CalibrationPolicy

/-! ### Accepted technologies -/

namespace Technology

/-- By an accepted technology a sample is empty exactly where the ratio asks for half a sample or
less and the floor is no greater than that. Then predicted slacks cannot be calibrated, and
otherwise they can. -/
theorem sampleSize_of_ofText {text : String} {t : Technology Float} (accepted : ofText text = .ok t)
    (seqBits : ℕ) :
    (1 ≤ t.calibration.sampleSize seqBits ↔
      t.calibration.raw seqBits < t.calibration.sparseFloor ∨ 0.5 < t.calibration.raw seqBits) ∧
    (0.5 < t.calibration.sparseFloor → 1 ≤ t.calibration.sampleSize seqBits) ∧
    (t.calibration.maxSamples ≤ 2 ^ 53 →
      t.calibration.sampleSize seqBits ≤ t.calibration.maxSamples) ∧
    ∀ predicted : List Float, predicted ≠ [] → (∀ x ∈ predicted, x.isFinite = true) →
      (1 ≤ t.calibration.sampleSize seqBits →
        ∃ c, t.calibration.calibrate seqBits predicted = .ok c) ∧
      (t.calibration.sampleSize seqBits = 0 →
        t.calibration.calibrate seqBits predicted =
          .error (.emptyPopulation "predicted slack")) := by
  have bounded := isBounded_of_ofText accepted
  refine ⟨bounded.one_le_sampleSize_iff seqBits, bounded.one_le_sampleSize seqBits,
    bounded.sampleSize_le seqBits, fun predicted hne hfinite => ⟨fun hone => ?_, fun hzero => ?_⟩⟩
  · exact CalibrationPolicy.exists_calibrate_eq_ok hone hne hfinite
  · exact CalibrationPolicy.calibrate_of_sampleSize_eq_zero hzero

/-- A technology file with nothing but a floor. -/
def floorText (floor : String) : String := "[calibration]\nsparse_floor = " ++ floor ++ "\n"

/-- A floor above a half is enough for every design. -/
theorem sampleSize_of_ofText_floor :
    ∃ t, ofText (floorText "0.75") = .ok t ∧
      ∀ seqBits, ∃ c, t.calibration.calibrate seqBits [-1.0] = .ok c := by
  have hfloor : ((ofText (floorText "0.75")).toOption.map fun t => t.calibration.sparseFloor) =
      some 0.75 := by decide +kernel
  obtain ⟨t, accepted, hfloor⟩ := exists_of_toOption_map hfloor
  have hhalf : 0.5 < t.calibration.sparseFloor := by
    rw [hfloor]
    decide +kernel
  refine ⟨t, accepted, fun seqBits => ?_⟩
  obtain ⟨-, hone, -, hcalibrate⟩ := sampleSize_of_ofText accepted seqBits
  exact (hcalibrate [-1.0] (List.cons_ne_nil _ _) (by decide +kernel)).1 (hone hhalf)

/-- A technology file with more samples than a double can count. -/
def manySamples : String := "[calibration]\nsample_ratio = 1.0\nmax_samples = 9007199254740995\n"

/-- Without a floor, the sample for a single register bit is empty. Where the greatest number of
samples is no double, one more may be taken. -/
theorem sampleSize_unbounded :
    (∃ t, ofText (floorText "0.0") = .ok t ∧ t.calibration.sampleSize 1 = 0 ∧
      t.calibration.calibrate 1 [-1.0] = .error (.emptyPopulation "predicted slack")) ∧
    ∃ t, ofText manySamples = .ok t ∧
      t.calibration.maxSamples < t.calibration.sampleSize 9007199254740996 := by
  constructor
  · have hsize : ((ofText (floorText "0.0")).toOption.map fun t => t.calibration.sampleSize 1) =
        some 0 := by decide +kernel
    obtain ⟨t, accepted, hzero⟩ := exists_of_toOption_map hsize
    exact ⟨t, accepted, hzero, CalibrationPolicy.calibrate_of_sampleSize_eq_zero hzero⟩
  · have hsize : ((ofText manySamples).toOption.map fun t =>
        decide (t.calibration.maxSamples < t.calibration.sampleSize 9007199254740996)) =
        some true := by decide +kernel
    obtain ⟨t, accepted, hmore⟩ := exists_of_toOption_map hsize
    exact ⟨t, accepted, of_decide_eq_true hmore⟩

end Technology

end Presynth
