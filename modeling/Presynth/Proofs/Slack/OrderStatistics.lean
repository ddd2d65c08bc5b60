import Mathlib
import Presynth.Proofs.Slack.Aggregation
import Presynth.Proofs.Slack.Percentile
import Presynth.Proofs.Slack.Sample
/-!
# Order statistics of a sample

The numbers at the percentiles are numbers of the sample, and how many numbers of the sample are at
least as great, and how many at most as great, follows from the index of the percentile. So the
spread decreases, and a design with more registers is not calibrated to a greater slack. With exact
arithmetic the median and the mean are among the numbers, and the median halves them.

Main statements: `isOrderStatistic_getElem`, `CalibrationPolicy.isCalibrationOf_of_eq_ok`,
`CalibrationPolicy.calibratedWns_le` and `CalibrationPolicy.calibrate_orderStatistics`.
-/

namespace Presynth

variable {α : Type}

/-! ### Numbers at a place -/

/-- A number of a sample at an index, counted from the greatest: enough numbers are not less, and
enough are not greater. -/
structure IsOrderStatistic [LE α] [DecidableLE α] (sample : List α) (i : ℕ) (x : α) : Prop where
  mem : x ∈ sample
  above : i + 1 ≤ sample.countP fun y => decide (x ≤ y)
  below : sample.length - i ≤ sample.countP fun y => decide (y ≤ x)

/-- What holds up to an index holds of so many elements at least. -/
theorem le_countP_of_le {xs : List α} {i : ℕ} (hi : i < xs.length) {p : α → Bool}
    (h : ∀ j (hj : j < xs.length), j ≤ i → p xs[j] = true) : i + 1 ≤ xs.countP p := by
  have hcount : (xs.take (i + 1)).countP p = i + 1 := by
    rw [List.countP_eq_length.mpr, List.length_take]
    · omega
    · intro x hx
      obtain ⟨j, hj, rfl⟩ := List.getElem_of_mem hx
      rw [List.length_take] at hj
      rw [List.getElem_take]
      exact h j (by omega) (by omega)
  rw [← hcount]
  exact (List.take_sublist _ _).countP_le

/-- And what holds from an index on, of the others. -/
theorem sub_le_countP_of_le {xs : List α} {i : ℕ} {p : α → Bool}
    (h : ∀ j (hj : j < xs.length), i ≤ j → p xs[j] = true) : xs.length - i ≤ xs.countP p := by
  have hcount : (xs.drop i).countP p = xs.length - i := by
    rw [List.countP_eq_length.mpr, List.length_drop]
    intro x hx
    obtain ⟨j, hj, rfl⟩ := List.getElem_of_mem hx
    rw [List.length_drop] at hj
    rw [List.getElem_drop]
    exact h (i + j) (by omega) (by omega)
  rw [← hcount]
  exact (List.drop_sublist _ _).countP_le

section Sorted

variable [LE α] [Quantity α] [RankedQuantity α] {sample : List α}
  (hfinite : ∀ x ∈ sample, Quantity.isFinite x = true)

include hfinite

theorem getElem_sortedDown_le {i j : ℕ} (hij : i ≤ j) (hj : j < (sortedDown sample).length) :
    (sortedDown sample)[j] ≤ (sortedDown sample)[i] := by
  have hmem (k : ℕ) (hk : k < (sortedDown sample).length) :=
    hfinite _ ((sortedDown_perm sample).mem_iff.mp (List.getElem_mem hk))
  -- the sort goes by the total order, in which finite numbers stand as they compare
  refine RankedQuantity.le_of_totalLe (hmem j hj) (hmem i (by omega)) ?_
  rcases hij.eq_or_lt with rfl | hlt
  · simpa using RankedQuantity.totalLe_total (sortedDown sample)[i] (sortedDown sample)[i]
  · exact List.pairwise_iff_getElem.mp (pairwise_sortedDown sample) i j (by omega) hj hlt

/-- The numbers of the sorted sample are its order statistics. -/
theorem isOrderStatistic_getElem [DecidableLE α] {i : ℕ} (hi : i < (sortedDown sample).length) :
    IsOrderStatistic sample i (sortedDown sample)[i] := by
  have hperm := sortedDown_perm sample
  refine ⟨hperm.mem_iff.mp (List.getElem_mem hi), ?_, ?_⟩
  · rw [← hperm.countP_eq]
    exact le_countP_of_le hi fun j hj hji => decide_eq_true (getElem_sortedDown_le hfinite hji hi)
  · rw [← hperm.countP_eq, ← hperm.length_eq]
    exact sub_le_countP_of_le fun j hj hij =>
      decide_eq_true (getElem_sortedDown_le hfinite hij hj)

end Sorted

/-! ### Percentiles -/

/-- Numbers in which later percentiles have no lesser indices and more registers no lesser scale. -/
class CalibratedQuantity (α : Type) [Mul α] [Div α] [NatCast α] [LE α] [Quantity α] : Prop
    extends RankedQuantity α where
  percentileIndex_le {p p' : Percentile} : p.place ≤ p'.place → ∀ n : ℕ,
    percentileIndex n (p.fraction : α) ≤ percentileIndex n (p'.fraction : α)
  scale_le {m n : ℕ} {bound : α} : m ≤ n → (n : α) / ((1000 : ℕ) : α) ≤ bound →
    (m : α) / ((1000 : ℕ) : α) ≤ bound

instance : CalibratedQuantity Float where
  percentileIndex_le := Double.percentileIndex_le
  scale_le := fun {m n} bound hmn hbound => by
    have hpos : (0 : Float) < ((1000 : ℕ) : Float) := by decide +kernel
    have hfinite : ((1000 : ℕ) : Float).isFinite = true := by decide +kernel
    have hm := Double.nonneg_natCast m
    exact RoundedSum.le_trans_of_nonneg (Double.nonneg_div hm hpos hfinite)
      (Double.div_le_div hm (Double.natCast_le_natCast hmn) hpos hfinite) hbound

instance : CalibratedQuantity Rat where
  percentileIndex_le := percentileIndex_le
  scale_le := fun hmn hbound =>
    (div_le_div_of_nonneg_right (by exact_mod_cast hmn) (Nat.cast_nonneg 1000)).trans hbound

theorem percentileIndex_lt [Mul α] [NatCast α] [Quantity α] {n : ℕ} (hn : 0 < n) (fraction : α) :
    percentileIndex n fraction < n :=
  (min_le_right _ _).trans_lt (Nat.sub_lt hn one_pos)

/-- The value at a percentile. -/
def Spread.at (s : Spread α) : Percentile → α
  | .P10 => s.p10
  | .P50 => s.p50
  | .P90 => s.p90

/-! ### The spread -/

namespace Calibration

section Sorted

variable [Zero α] [Add α] [Mul α] [Div α] [NatCast α] [Quantity α] {sample : List α}

theorem ofSorted_calibratedWns (p : Percentile) (sorted : List α) :
    (ofSorted p sorted).calibratedWns = (ofSorted p sorted).spread.at p := by
  cases p <;> rfl

/-- A spread is taken from the sorted sample. -/
theorem exists_at_ofSorted (h : sample ≠ []) (chosen p : Percentile) :
    ∃ hi : percentileIndex sample.length (p.fraction : α) < (sortedDown sample).length,
      (ofSorted chosen (sortedDown sample)).spread.at p =
        (sortedDown sample)[percentileIndex sample.length (p.fraction : α)] := by
  have hlength := length_sortedDown sample
  have hi := percentileIndex_lt (List.length_pos_iff.mpr h) (p.fraction : α)
  rw [← hlength] at hi ⊢
  refine ⟨hi, ?_⟩
  rw [← List.getD_eq_getElem _ 0 hi]
  cases p <;> rfl

/-- A later percentile has no greater number. -/
theorem at_ofSorted_le [LE α] [CalibratedQuantity α] (h : sample ≠ [])
    (hfinite : ∀ x ∈ sample, Quantity.isFinite x = true) {p p' : Percentile}
    (hp : p.place ≤ p'.place) (chosen chosen' : Percentile) :
    (ofSorted chosen' (sortedDown sample)).spread.at p' ≤
      (ofSorted chosen (sortedDown sample)).spread.at p := by
  obtain ⟨hi, hat⟩ := exists_at_ofSorted h chosen p
  obtain ⟨hi', hat'⟩ := exists_at_ofSorted h chosen' p'
  rw [hat, hat']
  exact getElem_sortedDown_le hfinite (CalibratedQuantity.percentileIndex_le hp _) hi'

end Sorted

end Calibration

namespace CalibrationPolicy

/-- More registers have no earlier percentile. -/
theorem place_percentile_le [Mul α] [Div α] [NatCast α] [LE α] [DecidableLE α] [Quantity α]
    [CalibratedQuantity α] {policy policy' : CalibrationPolicy α} {seqBits seqBits' : ℕ}
    (hsmall : policy'.smallScale = policy.smallScale)
    (hmedium : policy'.mediumScale = policy.mediumScale) (hbits : seqBits ≤ seqBits') :
    (policy.percentile seqBits).place ≤ (policy'.percentile seqBits').place := by
  have hscale (bound : α) (h : (seqBits' : α) / ((1000 : ℕ) : α) ≤ bound) :
      (seqBits : α) / ((1000 : ℕ) : α) ≤ bound := CalibratedQuantity.scale_le hbits h
  unfold percentile
  rw [hsmall, hmedium]
  dsimp only
  split
  · exact Nat.zero_le _
  · rename_i hlarge
    rw [if_neg fun h => hlarge (hscale _ h)]
    split
    · split <;> decide
    · rename_i hlarge'
      rw [if_neg fun h => hlarge' (hscale _ h)]

section Ordered

variable [Zero α] [Add α] [Mul α] [Div α] [NatCast α] [LT α] [DecidableLT α] [LE α] [DecidableLE α]
  [Quantity α]

/-- What a calibration says of its sample. -/
structure IsCalibrationOf (policy : CalibrationPolicy α) (seqBits : ℕ) (sample : List α)
    (c : Calibration α) : Prop where
  sampleLen : c.sampleLen = sample.length
  /-- Each number of the spread stands in the sample where its percentile is. -/
  spread (p : Percentile) : IsOrderStatistic sample
    (percentileIndex sample.length (p.fraction : α)) (c.spread.at p)
  p50_le_p10 : c.spread.p50 ≤ c.spread.p10
  p90_le_p50 : c.spread.p90 ≤ c.spread.p50
  percentile : c.percentile = policy.percentile seqBits
  calibratedWns : c.calibratedWns = c.spread.at (policy.percentile seqBits)

variable [CalibratedQuantity α] {policy policy' : CalibrationPolicy α} {seqBits seqBits' : ℕ}
  {predicted predicted' : List α} {c c' : Calibration α}

/-- The numbers of a calibration are order statistics of its sample, by the indices that the
percentiles stand for. -/
theorem isCalibrationOf_of_eq_ok (hc : policy.calibrate seqBits predicted = .ok c) :
    policy.IsCalibrationOf seqBits (predicted.take (policy.sampleSize seqBits)) c := by
  obtain ⟨⟨hne, hfinite⟩, rfl⟩ := calibrate_eq_ok_iff.mp hc
  refine ⟨length_sortedDown _, fun p => ?_, ?_, ?_, rfl, Calibration.ofSorted_calibratedWns _ _⟩
  · obtain ⟨hi, hat⟩ := Calibration.exists_at_ofSorted hne (policy.percentile seqBits) p
    rw [hat]
    exact isOrderStatistic_getElem hfinite hi
  · have hplace : Percentile.P10.place ≤ Percentile.P50.place := by decide
    exact Calibration.at_ofSorted_le hne hfinite hplace _ _
  · have hplace : Percentile.P50.place ≤ Percentile.P90.place := by decide
    exact Calibration.at_ofSorted_le hne hfinite hplace _ _

/-- With the same scales and sample, more registers do not lead to a greater slack. -/
theorem calibratedWns_le (hsmall : policy'.smallScale = policy.smallScale)
    (hmedium : policy'.mediumScale = policy.mediumScale) (hbits : seqBits ≤ seqBits')
    (hsample : predicted'.take (policy'.sampleSize seqBits') =
      predicted.take (policy.sampleSize seqBits))
    (hc : policy.calibrate seqBits predicted = .ok c)
    (hc' : policy'.calibrate seqBits' predicted' = .ok c') :
    c'.calibratedWns ≤ c.calibratedWns := by
  obtain ⟨⟨hne, hfinite⟩, rfl⟩ := calibrate_eq_ok_iff.mp hc
  obtain ⟨-, rfl⟩ := calibrate_eq_ok_iff.mp hc'
  rw [hsample, Calibration.ofSorted_calibratedWns, Calibration.ofSorted_calibratedWns]
  exact Calibration.at_ofSorted_le hne hfinite (place_percentile_le hsmall hmedium hbits) _ _

end Ordered

end CalibrationPolicy

/-! ### Median and mean -/

section Exact

variable {sample : List ℚ}

theorem isFinite_rat (xs : List ℚ) : ∀ x ∈ xs, Quantity.isFinite x = true := fun _ _ => rfl

/-- The least and the greatest number of a sample stand at the ends. -/
theorem exists_isLeast_isGreatest (h : sample ≠ []) :
    ∃ least greatest, IsLeast {x | x ∈ sample} least ∧ IsGreatest {x | x ∈ sample} greatest := by
  have hpos : 0 < (sortedDown sample).length := by
    rw [length_sortedDown]
    exact List.length_pos_iff.mpr h
  have hmem (x : ℚ) : x ∈ sample ↔ x ∈ sortedDown sample := (sortedDown_perm sample).mem_iff.symm
  refine ⟨(sortedDown sample)[(sortedDown sample).length - 1], (sortedDown sample)[0],
    ⟨(hmem _).mpr (List.getElem_mem _), fun x hx => ?_⟩,
    ⟨(hmem _).mpr (List.getElem_mem _), fun x hx => ?_⟩⟩
  · obtain ⟨i, hi, rfl⟩ := List.getElem_of_mem ((hmem x).mp hx)
    exact getElem_sortedDown_le (isFinite_rat sample) (by omega) (by omega)
  · obtain ⟨i, hi, rfl⟩ := List.getElem_of_mem ((hmem x).mp hx)
    exact getElem_sortedDown_le (isFinite_rat sample) (Nat.zero_le i) hi

/-- The median is between two numbers of the sorted sample that halve it. -/
theorem exists_around_medianOf (h : sample ≠ []) :
    ∃ (i j : ℕ) (hi : i < (sortedDown sample).length) (hj : j < (sortedDown sample).length),
      (sortedDown sample)[j] ≤ medianOf (sortedDown sample) ∧
        medianOf (sortedDown sample) ≤ (sortedDown sample)[i] ∧
        (sample.length + 1) / 2 ≤ i + 1 ∧ (sample.length + 1) / 2 ≤ sample.length - j := by
  have hlength := length_sortedDown sample
  have hpos := List.length_pos_iff.mpr h
  unfold medianOf
  dsimp only
  split
  · rename_i hodd
    have hi : (sortedDown sample).length / 2 < (sortedDown sample).length := by omega
    rw [List.getD_eq_getElem _ _ hi]
    exact ⟨_, _, hi, hi, le_rfl, le_rfl, by omega, by omega⟩
  · -- of an even number of values the two in the middle have the median between them
    rename_i heven
    have hi : (sortedDown sample).length / 2 - 1 < (sortedDown sample).length := by omega
    have hj : (sortedDown sample).length / 2 < (sortedDown sample).length := by omega
    rw [List.getD_eq_getElem _ _ hi, List.getD_eq_getElem _ _ hj]
    have hle := getElem_sortedDown_le (isFinite_rat sample) (Nat.sub_le _ 1) hj
    refine ⟨_, _, hi, hj, ?_, ?_, by omega, by omega⟩ <;> push_cast <;> linarith

theorem meanOf_sortedDown (sample : List ℚ) :
    meanOf (sortedDown sample) = sample.sum / sample.length := by
  rw [meanOf, sumOf_eq_sum, (sortedDown_perm sample).sum_eq, length_sortedDown]

/-- Where a median and a mean stand: among the numbers, and as many numbers are not less than the
median as are not greater. -/
structure IsCentral (sample : List ℚ) (median mean : ℚ) : Prop where
  bounds : ∃ least greatest, IsLeast {x | x ∈ sample} least ∧ IsGreatest {x | x ∈ sample} greatest ∧
    least ≤ median ∧ median ≤ greatest ∧ least ≤ mean ∧ mean ≤ greatest
  above : (sample.length + 1) / 2 ≤ sample.countP fun y => decide (median ≤ y)
  below : (sample.length + 1) / 2 ≤ sample.countP fun y => decide (y ≤ median)

/-- Median and mean lie between the least and the greatest of the sample, and the median has half of
it on either side. -/
theorem isCentral_sortedDown (h : sample ≠ []) :
    IsCentral sample (medianOf (sortedDown sample)) (meanOf (sortedDown sample)) := by
  obtain ⟨i, j, hi, hj, hlow, hhigh, habove, hbelow⟩ := exists_around_medianOf h
  have hfirst := isOrderStatistic_getElem (isFinite_rat sample) hi
  have hsecond := isOrderStatistic_getElem (isFinite_rat sample) hj
  constructor
  · obtain ⟨least, greatest, hleast, hgreatest⟩ := exists_isLeast_isGreatest h
    have hpos : (0 : ℚ) < sample.length := by exact_mod_cast List.length_pos_iff.mpr h
    have hlower := List.card_nsmul_le_sum sample least fun x hx => hleast.2 hx
    have hupper := List.sum_le_card_nsmul sample greatest fun x hx => hgreatest.2 hx
    rw [nsmul_eq_mul] at hlower hupper
    refine ⟨least, greatest, hleast, hgreatest, (hleast.2 hsecond.mem).trans hlow,
      hhigh.trans (hgreatest.2 hfirst.mem), ?_, ?_⟩ <;> rw [meanOf_sortedDown]
    · rwa [le_div_iff₀ hpos, mul_comm]
    · rwa [div_le_iff₀ hpos, mul_comm]
  · refine (habove.trans hfirst.above).trans (List.countP_mono_left fun y _ hy => ?_)
    exact decide_eq_true (hhigh.trans (of_decide_eq_true hy))
  · refine (hbelow.trans hsecond.below).trans (List.countP_mono_left fun y _ hy => ?_)
    exact decide_eq_true ((of_decide_eq_true hy).trans hlow)

end Exact

/-! ### All calibrations -/

namespace CalibrationPolicy

/-- A sample of finite numbers is calibrated to numbers that stand in it at the percentiles, and
more registers do not lead to a greater slack. With exact fractions the percentiles are at their
exact places, and so they are in doubles, where the numbers are not too many. The exact median and
mean are among the numbers, and the median halves them. -/
theorem calibrate_orderStatistics :
    (∀ (policy : CalibrationPolicy Float) (seqBits : ℕ) (predicted : List Float),
      let sample := predicted.take (min (policy.sampleSize seqBits) predicted.length)
      sample ≠ [] → (∀ x ∈ sample, x.isFinite = true) →
      ∃ c, policy.calibrate seqBits predicted = .ok c ∧
        policy.IsCalibrationOf seqBits sample c ∧
        (sample.length ≤ 2 ^ 49 → ∀ p : Percentile,
          IsIndexOf p.part sample.length (percentileIndex sample.length (p.fraction : Float))) ∧
        ∀ (policy' : CalibrationPolicy Float) (seqBits' : ℕ) (predicted' : List Float) c',
          policy'.smallScale = policy.smallScale → policy'.mediumScale = policy.mediumScale →
          seqBits ≤ seqBits' →
          predicted'.take (min (policy'.sampleSize seqBits') predicted'.length) = sample →
          policy'.calibrate seqBits' predicted' = .ok c' → c'.calibratedWns ≤ c.calibratedWns) ∧
    ∀ (policy : CalibrationPolicy ℚ) (seqBits : ℕ) (predicted : List ℚ),
      let sample := predicted.take (min (policy.sampleSize seqBits) predicted.length)
      sample ≠ [] →
      ∃ c, policy.calibrate seqBits predicted = .ok c ∧
        policy.IsCalibrationOf seqBits sample c ∧
        IsCentral sample c.median c.mean ∧
        (sample.length ≤ maxWord → ∀ p : Percentile,
          IsIndexOf p.part sample.length (percentileIndex sample.length (p.fraction : ℚ))) ∧
        ∀ (policy' : CalibrationPolicy ℚ) (seqBits' : ℕ) (predicted' : List ℚ) c',
          policy'.smallScale = policy.smallScale → policy'.mediumScale = policy.mediumScale →
          seqBits ≤ seqBits' →
          predicted'.take (min (policy'.sampleSize seqBits') predicted'.length) = sample →
          policy'.calibrate seqBits' predicted' = .ok c' → c'.calibratedWns ≤ c.calibratedWns := by
  constructor
  · intro policy seqBits predicted sample hne hfinite
    simp only [sample, take_min_length] at hne hfinite ⊢
    have hc := calibrate_eq_ok_iff.mpr ⟨⟨hne, hfinite⟩, rfl⟩
    refine ⟨_, hc, isCalibrationOf_of_eq_ok hc,
      fun hlength p => Double.isIndexOf_percentileIndex p hlength, ?_⟩
    intro policy' seqBits' predicted' c' hsmall hmedium hbits hsample hc'
    exact calibratedWns_le hsmall hmedium hbits hsample hc hc'
  · intro policy seqBits predicted sample hne
    simp only [sample, take_min_length] at hne ⊢
    have hc := calibrate_eq_ok_iff.mpr ⟨⟨hne, isFinite_rat _⟩, rfl⟩
    refine ⟨_, hc, isCalibrationOf_of_eq_ok hc, isCentral_sortedDown hne,
      fun hlength p => isIndexOf_percentileIndex p hlength, ?_⟩
    intro policy' seqBits' predicted' c' hsmall hmedium hbits hsample hc'
    exact calibratedWns_le hsmall hmedium hbits hsample hc hc'

/-- Five predicted slacks, two of them equal. -/
def fiveSlacks : List Float := [-0.25, -1.0, -0.5, -0.5, 0.0]

/-- The built-in policy in exact fractions. -/
def exactPolicy : CalibrationPolicy ℚ := ⟨1 / 50, 10, 100, 1000, 3, 5⟩

/-- Five slacks at two scales of the design, and three slacks in exact arithmetic. -/
theorem calibrate_orderStatistics_five :
    (∃ c c', Builtin.calibration.calibrate 4000 fiveSlacks = .ok c ∧
      Builtin.calibration.calibrate 6000 fiveSlacks = .ok c' ∧
      IsOrderStatistic fiveSlacks 2 c.calibratedWns ∧ c'.calibratedWns ≤ c.calibratedWns) ∧
    ∃ c, exactPolicy.calibrate 4000 [-1, 0, -1 / 2] = .ok c ∧
      IsCentral [-1, 0, -1 / 2] c.median c.mean := by
  constructor
  · have htake (seqBits : ℕ) (h : 5 ≤ Builtin.calibration.sampleSize seqBits) :
        fiveSlacks.take (min (Builtin.calibration.sampleSize seqBits) fiveSlacks.length) =
          fiveSlacks := by
      rw [min_eq_right (show fiveSlacks.length ≤ _ from h), List.take_length]
    have hfinite : ∀ x ∈ fiveSlacks, x.isFinite = true := by decide +kernel
    have hmedium := calibrate_orderStatistics.1 Builtin.calibration 4000 fiveSlacks
    have hlarge := calibrate_orderStatistics.1 Builtin.calibration 6000 fiveSlacks
    dsimp only at hmedium hlarge
    rw [htake 4000 (by decide +kernel)] at hmedium
    rw [htake 6000 (by decide +kernel)] at hlarge
    obtain ⟨c, hc, hspec, -, hle⟩ := hmedium (List.cons_ne_nil _ _) hfinite
    obtain ⟨c', hc', -⟩ := hlarge (List.cons_ne_nil _ _) hfinite
    refine ⟨c, c', hc, hc', ?_, ?_⟩
    · have hpercentile : Builtin.calibration.percentile 4000 = .P50 := by decide +kernel
      have hindex : percentileIndex 5 (Percentile.P50.fraction : Float) = 2 := by decide +kernel
      rw [hspec.calibratedWns, hpercentile, ← hindex]
      exact hspec.spread .P50
    · exact hle _ 6000 fiveSlacks c' rfl rfl (by decide) (htake 6000 (by decide +kernel)) hc'
  · have hsize : exactPolicy.sampleSize 4000 = 80 := by decide +kernel
    have hexact := calibrate_orderStatistics.2 exactPolicy 4000 [-1, 0, -1 / 2]
    rw [hsize] at hexact
    obtain ⟨c, hc, -, hcentral, -⟩ := hexact (List.cons_ne_nil _ _)
    exact ⟨c, hc, hcentral⟩

end CalibrationPolicy

end Presynth
