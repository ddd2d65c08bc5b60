import Mathlib.Algebra.BigOperators.Fin
import Mathlib.Algebra.Order.BigOperators.Ring.Finset
import Mathlib.Algebra.Order.Field.Basic
import Mathlib.Tactic.Linarith
import Mathlib.Tactic.Positivity
import Presynth.Proofs.Slack.Aggregation
import Presynth.Slack.Validation
/-!
# What the measures of agreement say

Over exact numbers the one loop over all designs adds up co-moments: products of the deviations of
two quantities from their means. The co-moment of a quantity with itself is a sum of squares, so it
is zero just where the quantity is the same for all designs, and by the inequality of Cauchy and
Schwarz a co-moment is bounded by those of the two quantities with themselves. From this the
measures get their ranges, and each is missing only where it would divide by zero.

Square roots are a parameter: what holds before they are taken holds for any of them.

Main statements: `comoment_sq_le` (bound), `Moments.ofDesigns_eq` (what the loop adds up),
`Agreement.ofRecords_perm` (order) and `Agreement.exists_ofRecords` (ranges of all measures).
-/

namespace Presynth

variable {α ι : Type} [Field α] [LinearOrder α]

/-! ### Means and co-moments -/

/-- The products of what two quantities deviate from their means, summed up. -/
def comoment (xs : List ι) (f g : ι → α) : α :=
  (xs.map fun x => (f x - meanOf (xs.map f)) * (g x - meanOf (xs.map g))).sum

omit [LinearOrder α] in
theorem meanOf_perm {xs ys : List α} (h : xs.Perm ys) : meanOf xs = meanOf ys := by
  rw [meanOf, meanOf, sumOf_eq_sum, sumOf_eq_sum, h.sum_eq, h.length_eq]

omit [LinearOrder α] in
theorem comoment_perm {xs ys : List ι} (h : xs.Perm ys) (f g : ι → α) :
    comoment xs f g = comoment ys f g := by
  rw [comoment, comoment, meanOf_perm (h.map f), meanOf_perm (h.map g)]
  exact (h.map _).sum_eq

omit [LinearOrder α] in
/-- The mean of equal numbers is each of them. -/
theorem meanOf_map_eq [CharZero α] {xs : List ι} {f : ι → α}
    (h : ∀ x ∈ xs, ∀ y ∈ xs, f x = f y) : ∀ x ∈ xs, f x = meanOf (xs.map f) := by
  intro x hx
  have hlength : (xs.length : α) ≠ 0 :=
    Nat.cast_ne_zero.mpr (List.length_pos_of_mem hx).ne'
  have hmap : xs.map f = List.replicate xs.length (f x) :=
    List.map_eq_replicate_iff.mpr fun y hy => h y hy x hx
  rw [meanOf, sumOf_eq_sum, hmap, List.sum_replicate, List.length_replicate, nsmul_eq_mul,
    mul_div_cancel_left₀ _ hlength]

section Ordered

variable [IsStrictOrderedRing α]

/-- A sum of numbers that are not negative is zero just where all of them are. -/
theorem sum_map_eq_zero_iff {xs : List ι} {f : ι → α} (h : ∀ x, 0 ≤ f x) :
    (xs.map f).sum = 0 ↔ ∀ x ∈ xs, f x = 0 := by
  constructor
  · intro hsum x hx
    exact List.all_zero_of_le_zero_le_of_sum_eq_zero (List.forall_mem_map.mpr fun x _ => h x) hsum
      (List.mem_map_of_mem hx)
  · exact fun hzero => List.sum_eq_zero (List.forall_mem_map.mpr hzero)

theorem sum_sq_nonneg (xs : List ι) (f : ι → α) : 0 ≤ (xs.map fun x => f x ^ 2).sum :=
  List.sum_nonneg (List.forall_mem_map.mpr fun x _ => sq_nonneg (f x))

theorem sum_sq_eq_zero_iff {xs : List ι} {f : ι → α} :
    (xs.map fun x => f x ^ 2).sum = 0 ↔ ∀ x ∈ xs, f x = 0 := by
  simp only [sum_map_eq_zero_iff fun x => sq_nonneg (f x), pow_eq_zero_iff two_ne_zero]

/-- The inequality of Cauchy and Schwarz for sums over lists. -/
theorem sum_mul_sq_le (xs : List ι) (f g : ι → α) :
    (xs.map fun x => f x * g x).sum ^ 2 ≤
      (xs.map fun x => f x ^ 2).sum * (xs.map fun x => g x ^ 2).sum := by
  simp only [← Fin.sum_univ_fun_getElem]
  exact Finset.sum_mul_sq_le_sq_mul_sq _ _ _

omit [LinearOrder α] [IsStrictOrderedRing α] in
theorem comoment_self (xs : List ι) (f : ι → α) :
    comoment xs f f = (xs.map fun x => (f x - meanOf (xs.map f)) ^ 2).sum := by
  simp only [comoment, sq]

theorem comoment_self_nonneg (xs : List ι) (f : ι → α) : 0 ≤ comoment xs f f :=
  comoment_self xs f ▸ sum_sq_nonneg xs _

/-- Without deviations a quantity is the same everywhere. -/
theorem comoment_self_eq_zero_iff {xs : List ι} {f : ι → α} :
    comoment xs f f = 0 ↔ ∀ x ∈ xs, ∀ y ∈ xs, f x = f y := by
  rw [comoment_self, sum_sq_eq_zero_iff]
  -- a sum of squares is zero just where all are, that is where every value is the mean
  refine ⟨fun h x hx y hy => ?_, fun h x hx => sub_eq_zero.mpr (meanOf_map_eq h x hx)⟩
  rw [sub_eq_zero.mp (h x hx), sub_eq_zero.mp (h y hy)]

theorem comoment_self_pos_iff {xs : List ι} {f : ι → α} :
    0 < comoment xs f f ↔ ¬ ∀ x ∈ xs, ∀ y ∈ xs, f x = f y := by
  rw [← comoment_self_eq_zero_iff, (comoment_self_nonneg xs f).lt_iff_ne, ne_comm]

/-- No two quantities vary together more than each varies on its own. -/
theorem comoment_sq_le (xs : List ι) (f g : ι → α) :
    comoment xs f g ^ 2 ≤ comoment xs f f * comoment xs g g := by
  rw [comoment_self, comoment_self, comoment]
  exact sum_mul_sq_le xs _ _

/-! ### Relative errors -/

/-- A reference of zero allows only an estimate of zero, and any error counts as one at most. -/
theorem relativeErrorOf_eq (t p : α) :
    relativeErrorOf t p = if t = 0 then (if p = 0 then 0 else 1) else min |(p - t) / t| 1 := by
  have habs : (if (p - t) / t < 0 then -((p - t) / t) else (p - t) / t) = |(p - t) / t| := by
    split
    · rw [abs_of_neg ‹_›]
    · rw [abs_of_nonneg (not_lt.mp ‹_›)]
  simp only [relativeErrorOf, beq_iff_eq, habs, ← min_def_lt]

theorem relativeErrorOf_nonneg (t p : α) : 0 ≤ relativeErrorOf t p := by
  rw [relativeErrorOf_eq]
  split
  · split <;> simp
  · exact le_min (abs_nonneg _) zero_le_one

theorem relativeErrorOf_le_one (t p : α) : relativeErrorOf t p ≤ 1 := by
  rw [relativeErrorOf_eq]
  split
  · split <;> simp
  · exact min_le_right _ _

/-- No error means that the estimate is exact, also for a reference of zero. -/
theorem relativeErrorOf_eq_zero_iff {t p : α} : relativeErrorOf t p = 0 ↔ p = t := by
  rw [relativeErrorOf_eq]
  by_cases ht : t = 0
  · by_cases hp : p = 0 <;> simp [ht, hp]
  · rw [if_neg ht]
    constructor
    · intro h
      -- the bound of one is not zero, so the ratio itself is
      have hratio : |(p - t) / t| = 0 :=
        (min_choice |(p - t) / t| 1).elim (fun heq => heq ▸ h) fun heq =>
          absurd (heq.symm.trans h) one_ne_zero
      exact sub_eq_zero.mp ((div_eq_zero_iff.mp (abs_eq_zero.mp hratio)).resolve_right ht)
    · rintro rfl
      simp

end Ordered

/-! ### The sums of the loop -/

/-- Designs add to the sums what each of them contributes. -/
theorem Moments.foldl_add (truthMean predictionMean : α) (designs : List (α × α)) (m : Moments α) :
    designs.foldl (Moments.add truthMean predictionMean) m =
      { covariance := m.covariance +
          (designs.map fun d => (d.1 - truthMean) * (d.2 - predictionMean)).sum
        truthVariance := m.truthVariance +
          (designs.map fun d => (d.1 - truthMean) * (d.1 - truthMean)).sum
        predictionVariance := m.predictionVariance +
          (designs.map fun d => (d.2 - predictionMean) * (d.2 - predictionMean)).sum
        squaredError := m.squaredError + (designs.map fun d => (d.2 - d.1) ^ 2).sum
        relativeError := m.relativeError +
          (designs.map fun d => relativeErrorOf d.1 d.2).sum } := by
  induction designs generalizing m with
  | nil => simp
  | cons d designs ih => simp [ih, Moments.add, add_assoc, sq]

/-- The loop adds up the co-moments of truth and prediction, and the two kinds of errors. -/
theorem Moments.ofDesigns_eq (designs : List (α × α)) :
    Moments.ofDesigns designs =
      { covariance := comoment designs Prod.fst Prod.snd
        truthVariance := comoment designs Prod.fst Prod.fst
        predictionVariance := comoment designs Prod.snd Prod.snd
        squaredError := (designs.map fun d => (d.2 - d.1) ^ 2).sum
        relativeError := (designs.map fun d => relativeErrorOf d.1 d.2).sum } := by
  simp [Moments.ofDesigns, Moments.foldl_add, comoment]

theorem Moments.ofDesigns_perm {designs designs' : List (α × α)} (h : designs.Perm designs') :
    Moments.ofDesigns designs = Moments.ofDesigns designs' := by
  simp only [Moments.ofDesigns_eq, comoment_perm h, (h.map _).sum_eq]

/-! ### The measures -/

namespace Agreement

open ValidationRecord (referenceWns calibratedWns)

variable (root : α → α) (records : List (ValidationRecord α))

/-- The co-moment of reference and calibrated slacks. -/
def covariance : α := comoment records referenceWns calibratedWns

/-- The squared deviations of the reference slacks. -/
def referenceVariance : α := comoment records referenceWns referenceWns

/-- The squared deviations of the calibrated slacks. -/
def calibratedVariance : α := comoment records calibratedWns calibratedWns

/-- The squared errors of the calibrated slacks. -/
def squaredError : α := (records.map fun r => (r.calibratedWns - r.referenceWns) ^ 2).sum

/-- The relative errors of the calibrated slacks. -/
def relativeError : α :=
  (records.map fun r => relativeErrorOf r.referenceWns r.calibratedWns).sum

/-- Is the calibrated slack the reference in every record? -/
def AllExact : Prop := ∀ r ∈ records, r.calibratedWns = r.referenceWns

/-- Do all records have the same reference slack? -/
def SameReferences : Prop := ∀ r ∈ records, ∀ r' ∈ records, r.referenceWns = r'.referenceWns

/-- Do all records have the same calibrated slack? -/
def SameCalibrated : Prop := ∀ r ∈ records, ∀ r' ∈ records, r.calibratedWns = r'.calibratedWns

/-- What the measures of agreement say about the records, where `root` takes square roots. -/
structure Describes (s : Agreement α) : Prop where
  designs : s.designs = records.length
  mape_nonneg : 0 ≤ s.mape
  mape_le : s.mape ≤ 100
  mape_eq_zero_iff : s.mape = 0 ↔ AllExact records
  pearsonR_eq_none_iff : s.pearsonR = none ↔ SameReferences records ∨ SameCalibrated records
  /-- A correlation divides by what is positive, and its square is at most one. -/
  pearsonR_eq : ∀ r, s.pearsonR = some r →
    0 < referenceVariance records ∧ 0 < calibratedVariance records ∧
      r = covariance records / root (referenceVariance records * calibratedVariance records) ∧
      covariance records ^ 2 / (referenceVariance records * calibratedVariance records) ≤ 1
  /-- Where the root is exact, this is the square of the measure. -/
  pearsonR_sq : ∀ r, s.pearsonR = some r →
    root (referenceVariance records * calibratedVariance records) ^ 2 =
        referenceVariance records * calibratedVariance records →
      r ^ 2 = covariance records ^ 2 / (referenceVariance records * calibratedVariance records)
  rrse_eq_none_iff : s.rrse = none ↔ SameReferences records
  /-- A relative squared error is zero just for exact records. -/
  rrse_eq : ∀ e, s.rrse = some e →
    0 < referenceVariance records ∧
      e = root (squaredError records / referenceVariance records) ∧
      0 ≤ squaredError records / referenceVariance records ∧
      (squaredError records / referenceVariance records = 0 ↔ AllExact records)
  /-- Where the root is exact, this is the square of the measure. -/
  rrse_sq : ∀ e, s.rrse = some e →
    root (squaredError records / referenceVariance records) ^ 2 =
        squaredError records / referenceVariance records →
      e ^ 2 = squaredError records / referenceVariance records

variable {root records}

/-! ### What they are made of -/

/-- The moments that are computed in one pass are those around the means. -/
theorem ofDesigns_eq :
    Moments.ofDesigns (records.map fun r => (r.referenceWns, r.calibratedWns)) =
      { covariance := covariance records
        truthVariance := referenceVariance records
        predictionVariance := calibratedVariance records
        squaredError := squaredError records
        relativeError := relativeError records } := by
  simp [Moments.ofDesigns_eq, comoment, covariance, referenceVariance, calibratedVariance,
    squaredError, relativeError, Function.comp_def]

/-- The order of the records does not matter. -/
theorem ofRecords_perm {others : List (ValidationRecord α)} (h : others.Perm records) :
    ofRecords root others = ofRecords root records := by
  rw [ofRecords, ofRecords, Moments.ofDesigns_perm (h.map _), h.length_eq, h.isEmpty_eq]

variable [IsStrictOrderedRing α]

theorem referenceVariance_pos_iff : 0 < referenceVariance records ↔ ¬ SameReferences records :=
  comoment_self_pos_iff

theorem calibratedVariance_pos_iff : 0 < calibratedVariance records ↔ ¬ SameCalibrated records :=
  comoment_self_pos_iff

/-- The references of one record do not differ. -/
theorem two_le_length (h : 0 < referenceVariance records) : 2 ≤ records.length := by
  by_contra hlength
  refine referenceVariance_pos_iff.mp h fun r hr r' hr' => ?_
  match records, hlength with
  | [], _ => cases hr
  | [_], _ => rw [List.mem_singleton.mp hr, List.mem_singleton.mp hr']
  | _ :: _ :: _, hlength => simp at hlength

/-- The measures by their usual formulas. -/
theorem ofRecords_eq (h : records ≠ []) :
    ofRecords root records = .ok
      { designs := records.length
        pearsonR := if 0 < referenceVariance records ∧ 0 < calibratedVariance records then
            some (covariance records /
              root (referenceVariance records * calibratedVariance records))
          else none
        mape := relativeError records / records.length * 100
        rrse := if 0 < referenceVariance records then
            some (root (squaredError records / referenceVariance records))
          else none } := by
  -- that there are two records need not be asked, it follows from their references
  have hcorrelation : 2 ≤ records.length ∧ 0 < referenceVariance records ∧
      0 < calibratedVariance records ↔
        0 < referenceVariance records ∧ 0 < calibratedVariance records :=
    and_iff_right_of_imp fun hpos => two_le_length hpos.1
  rw [ofRecords, if_neg (by simpa using h), ofDesigns_eq]
  simp only [Moments.correlation?, Moments.relativeSquaredError?, Moments.meanRelativeError,
    hcorrelation, apply_ite (Option.map _), Option.map_some, Option.map_none, Nat.cast_ofNat]

theorem squaredError_nonneg : 0 ≤ squaredError records := sum_sq_nonneg records _

theorem squaredError_eq_zero_iff : squaredError records = 0 ↔ AllExact records := by
  simp only [squaredError, sum_sq_eq_zero_iff, sub_eq_zero, AllExact]

theorem relativeError_nonneg : 0 ≤ relativeError records :=
  List.sum_nonneg (List.forall_mem_map.mpr fun _ _ => relativeErrorOf_nonneg _ _)

theorem relativeError_le : relativeError records ≤ records.length := by
  have hle := List.sum_le_card_nsmul
    (records.map fun r => relativeErrorOf r.referenceWns r.calibratedWns) 1
    (List.forall_mem_map.mpr fun _ _ => relativeErrorOf_le_one _ _)
  rwa [List.length_map, nsmul_one] at hle

theorem relativeError_eq_zero_iff : relativeError records = 0 ↔ AllExact records := by
  simp only [relativeError, sum_map_eq_zero_iff fun _ => relativeErrorOf_nonneg _ _,
    relativeErrorOf_eq_zero_iff, AllExact]

/-- The square of a correlation is at most one. -/
theorem covariance_sq_div_le :
    covariance records ^ 2 / (referenceVariance records * calibratedVariance records) ≤ 1 :=
  div_le_one_of_le₀ (comoment_sq_le records _ _)
    (mul_nonneg (comoment_self_nonneg _ _) (comoment_self_nonneg _ _))

/-! ### What they say -/

/-- Over exact numbers records of designs are summed up in any order by measures that stay in their
ranges, are missing only where the slacks do not differ, and show whether all records are exact. -/
theorem exists_ofRecords (root : α → α) {records : List (ValidationRecord α)} (h : records ≠ []) :
    ∃ s, ofRecords root records = .ok s ∧ s.Describes root records ∧
      ∀ others, others.Perm records → ofRecords root others = .ok s := by
  have hlength : (0 : α) < records.length := Nat.cast_pos.mpr (List.length_pos_iff.mpr h)
  refine ⟨_, ofRecords_eq h, ?_, fun others hperm => (ofRecords_perm hperm).trans (ofRecords_eq h)⟩
  constructor
  case designs => rfl
  case mape_nonneg =>
    have herror : 0 ≤ relativeError records := relativeError_nonneg
    positivity
  case mape_le =>
    have hmean : relativeError records / records.length ≤ 1 :=
      (div_le_one hlength).mpr relativeError_le
    linarith
  case mape_eq_zero_iff =>
    rw [← relativeError_eq_zero_iff]
    simp [hlength.ne']
  case pearsonR_eq_none_iff =>
    simp only [ite_eq_right_iff, reduceCtorEq, imp_false, referenceVariance_pos_iff,
      calibratedVariance_pos_iff]
    tauto
  case pearsonR_eq =>
    intro r hr
    obtain ⟨hpos, hr⟩ := Option.ite_none_right_eq_some.mp hr
    exact ⟨hpos.1, hpos.2, (Option.some.inj hr).symm, covariance_sq_div_le⟩
  case pearsonR_sq =>
    intro r hr hroot
    obtain ⟨-, hr⟩ := Option.ite_none_right_eq_some.mp hr
    rw [← Option.some.inj hr, div_pow, hroot]
  case rrse_eq_none_iff =>
    simp only [ite_eq_right_iff, reduceCtorEq, imp_false, referenceVariance_pos_iff, not_not]
  case rrse_eq =>
    intro e he
    obtain ⟨hpos, he⟩ := Option.ite_none_right_eq_some.mp he
    refine ⟨hpos, (Option.some.inj he).symm, div_nonneg squaredError_nonneg hpos.le, ?_⟩
    rw [div_eq_zero_iff, or_iff_left hpos.ne', squaredError_eq_zero_iff]
  case rrse_sq =>
    intro e he hroot
    obtain ⟨-, he⟩ := Option.ite_none_right_eq_some.mp he
    rw [← Option.some.inj he, hroot]

/-- Three designs: a reference of zero, an error of more than the whole, and one of a quarter. -/
def opposed : List (ValidationRecord ℚ) :=
  [⟨"fifo", 0, 0, -9, 0⟩, ⟨"uart", -2, 0, -6, 0⟩, ⟨"alu", -4, 0, -3, 0⟩]

/-- The square root of a fraction of squares. -/
def rootOfSquares (q : ℚ) : ℚ := Nat.sqrt q.num.natAbs / Nat.sqrt q.den

/-- Slacks that fall as the references rise are perfectly correlated, and far from exact. -/
theorem exists_ofRecords_opposed :
    opposed ≠ [] ∧ ofRecords rootOfSquares opposed = .ok ⟨3, some (-1), 75, some (7 / 2)⟩ ∧
      Describes rootOfSquares opposed ⟨3, some (-1), 75, some (7 / 2)⟩ ∧
      ofRecords rootOfSquares opposed.reverse = .ok ⟨3, some (-1), 75, some (7 / 2)⟩ := by
  have hne : opposed ≠ [] := List.cons_ne_nil _ _
  have hok : ofRecords rootOfSquares opposed = .ok ⟨3, some (-1), 75, some (7 / 2)⟩ := by
    decide +kernel
  obtain ⟨s, hs, hdescribes, hperm⟩ := exists_ofRecords rootOfSquares hne
  obtain rfl := Except.ok.inj (hok.symm.trans hs)
  exact ⟨hne, hok, hdescribes, hperm _ (List.reverse_perm _)⟩

end Agreement

end Presynth
