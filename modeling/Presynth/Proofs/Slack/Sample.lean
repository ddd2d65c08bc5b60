import Mathlib
import Presynth.Proofs.Numbers.BitPattern
import Presynth.Slack.Calibration
import Presynth.Technology.Builtin
/-!
# What a calibration depends on

A calibration sorts its sample by an order that tells all numbers apart. So there is one way only to
sort the sample, and everything that is found follows from which numbers it has, and how often. What
was predicted beyond the sample is not looked at, whatever it is.

Main statements: `sortedDown_eq_of_perm`, `CalibrationPolicy.calibrate_eq_ok_iff` and
`CalibrationPolicy.calibrate_sample`.
-/

namespace Presynth

variable {α : Type}

/-! ### Orders for sorting -/

/-- Numbers that the total order tells apart, and of which it has the finite ones in their order. -/
class RankedQuantity (α : Type) [LE α] [Quantity α] : Prop where
  totalLe_total (x y : α) : (Quantity.totalLe x y || Quantity.totalLe y x) = true
  totalLe_trans {x y z : α} : Quantity.totalLe x y = true → Quantity.totalLe y z = true →
    Quantity.totalLe x z = true
  totalLe_antisymm {x y : α} : Quantity.totalLe x y = true → Quantity.totalLe y x = true → x = y
  le_of_totalLe {x y : α} : Quantity.isFinite x = true → Quantity.isFinite y = true →
    Quantity.totalLe x y = true → x ≤ y

theorem Double.totalLe_iff {x y : Float} : Quantity.totalLe x y = true ↔
    Decimal.rankOfBits x.toBits ≤ Decimal.rankOfBits y.toBits :=
  decide_eq_true_iff

instance : RankedQuantity Float where
  totalLe_total := fun x y => by
    rw [Bool.or_eq_true, Double.totalLe_iff, Double.totalLe_iff]
    exact Int.le_total _ _
  totalLe_trans := fun hxy hyz => by
    rw [Double.totalLe_iff] at *
    exact hxy.trans hyz
  totalLe_antisymm := fun hxy hyx => by
    rw [Double.totalLe_iff] at *
    exact Double.toBits_inj (Double.rankOfBits_inj (hxy.antisymm hyx))
  le_of_totalLe := fun fx fy h => Double.le_of_rank_le fx fy (Double.totalLe_iff.mp h)

instance : RankedQuantity Rat where
  totalLe_total := fun x y => by
    rw [Bool.or_eq_true]
    exact (le_total x y).imp decide_eq_true decide_eq_true
  totalLe_trans := fun hxy hyz =>
    decide_eq_true ((of_decide_eq_true hxy).trans (of_decide_eq_true hyz))
  totalLe_antisymm := fun hxy hyx => (of_decide_eq_true hxy).antisymm (of_decide_eq_true hyx)
  le_of_totalLe := fun _ _ h => of_decide_eq_true h

/-! ### Sorting -/

section Sorting

variable [Quantity α]

theorem sortedDown_perm (xs : List α) : (sortedDown xs).Perm xs := List.mergeSort_perm _ _

theorem length_sortedDown (xs : List α) : (sortedDown xs).length = xs.length :=
  (sortedDown_perm xs).length_eq

variable [LE α] [RankedQuantity α]

theorem pairwise_sortedDown (xs : List α) :
    (sortedDown xs).Pairwise fun x y => Quantity.totalLe y x = true := by
  unfold sortedDown
  refine List.pairwise_mergeSort ?_ ?_ xs
  · exact fun _ _ _ hxy hyz => RankedQuantity.totalLe_trans hyz hxy
  · exact fun x y => RankedQuantity.totalLe_total y x

/-- The same numbers in any order are sorted to the same list. -/
theorem sortedDown_eq_of_perm {xs ys : List α} (h : xs.Perm ys) : sortedDown xs = sortedDown ys :=
  ((sortedDown_perm xs).trans (h.trans (sortedDown_perm ys).symm)).eq_of_pairwise
    (fun _ _ _ _ hxy hyx => RankedQuantity.totalLe_antisymm hyx hxy)
    (pairwise_sortedDown xs) (pairwise_sortedDown ys)

end Sorting

/-! ### Checking -/

section Checking

variable [Quantity α] {xs : List α} {what what' : String} {i : ℕ} {x : α}

theorem firstNonFinite?_eq_none_iff :
    firstNonFinite? xs = none ↔ ∀ x ∈ xs, Quantity.isFinite x = true := by
  induction xs with
  | nil => simp [firstNonFinite?]
  | cons y xs ih =>
      rw [firstNonFinite?, List.forall_mem_cons]
      split
      · rename_i hy
        rw [Option.map_eq_none_iff, ih]
        exact (and_iff_right hy).symm
      · rename_i hy
        simp [hy]

/-- What is found is not finite, and everything before it is. -/
theorem firstNonFinite?_eq_some_iff :
    firstNonFinite? xs = some (i, x) ↔
      xs[i]? = some x ∧ Quantity.isFinite x = false ∧
        ∀ j < i, ∀ y, xs[j]? = some y → Quantity.isFinite y = true := by
  -- on the numbers; behind a finite one all positions move up by one
  induction xs generalizing i with
  | nil => simp [firstNonFinite?]
  | cons z xs ih =>
      rw [firstNonFinite?]
      cases hz : Quantity.isFinite z with
      | false =>
          rw [if_neg Bool.false_ne_true, Option.some.injEq, Prod.mk.injEq]
          constructor
          · rintro ⟨rfl, rfl⟩
            exact ⟨rfl, hz, fun j hj => absurd hj (Nat.not_lt_zero j)⟩
          · rintro ⟨hi, hx, hbefore⟩
            obtain rfl : i = 0 := by
              by_contra hne
              have hfinite := hbefore 0 (Nat.pos_of_ne_zero hne) z rfl
              exact absurd hfinite (by simp [hz])
            exact ⟨rfl, Option.some.inj hi⟩
      | true =>
          rw [if_pos rfl]
          cases i with
          | zero =>
              simp only [Option.map_eq_some_iff, Prod.mk.injEq, Nat.add_one_ne_zero, false_and,
                and_false, exists_false, false_iff, List.getElem?_cons_zero, Option.some.injEq]
              rintro ⟨rfl, hx, -⟩
              exact absurd hz (by simp [hx])
          | succ i =>
              have hstep : (firstNonFinite? xs).map (fun p => (p.1 + 1, p.2)) = some (i + 1, x) ↔
                  firstNonFinite? xs = some (i, x) := by
                simp [Option.map_eq_some_iff]
              refine hstep.trans (ih.trans ?_)
              rw [List.getElem?_cons_succ, Nat.forall_lt_succ_left]
              simp [hz]

theorem checkPopulation_eq_ok_iff (what : String) :
    checkPopulation what xs = .ok () ↔ xs ≠ [] ∧ ∀ x ∈ xs, Quantity.isFinite x = true := by
  rw [← firstNonFinite?_eq_none_iff]
  unfold checkPopulation
  cases xs with
  | nil => simp
  | cons y xs => cases firstNonFinite? (y :: xs) <;> simp

/-- Emptiness is the first thing that is checked. -/
theorem checkPopulation_eq_emptyPopulation_iff :
    checkPopulation what xs = .error (.emptyPopulation what') ↔ what' = what ∧ xs = [] := by
  unfold checkPopulation
  cases xs with
  | nil => simp [eq_comm]
  | cons y xs => cases firstNonFinite? (y :: xs) <;> simp

/-- Of the numbers that are not finite, the first one is reported with its position. -/
theorem checkPopulation_eq_nonFinite_iff :
    checkPopulation what xs = .error (.nonFinite what' i x) ↔
      what' = what ∧ firstNonFinite? xs = some (i, x) := by
  unfold checkPopulation
  cases xs with
  | nil => simp [firstNonFinite?]
  | cons y xs => cases firstNonFinite? (y :: xs) <;> simp [eq_comm, Prod.ext_iff]

end Checking

/-! ### Calibrating -/

theorem take_min_length (n : ℕ) (xs : List α) : xs.take (min n xs.length) = xs.take n := by
  rw [← List.take_take, List.take_length]

namespace CalibrationPolicy

section Outcome

variable [Zero α] [Add α] [Mul α] [Div α] [NatCast α] [LT α] [DecidableLT α] [LE α] [DecidableLE α]
  [Quantity α] {policy : CalibrationPolicy α} {seqBits : ℕ} {predicted : List α}

/-- A calibration looks at nothing but its sample: it has to be there and finite, and then it is
sorted. -/
theorem calibrate_eq_ok_iff {c : Calibration α} :
    policy.calibrate seqBits predicted = .ok c ↔
      (predicted.take (policy.sampleSize seqBits) ≠ [] ∧
        ∀ x ∈ predicted.take (policy.sampleSize seqBits), Quantity.isFinite x = true) ∧
      c = .ofSorted (policy.percentile seqBits)
        (sortedDown (predicted.take (policy.sampleSize seqBits))) := by
  rw [← checkPopulation_eq_ok_iff "predicted slack"]
  unfold calibrate
  dsimp only
  cases checkPopulation "predicted slack" (predicted.take (policy.sampleSize seqBits)) with
  | error e => simp [Except.map]
  | ok checked => simp [Except.map, eq_comm]

theorem calibrate_eq_error_iff {e : CalibrationError α} :
    policy.calibrate seqBits predicted = .error e ↔
      checkPopulation "predicted slack" (predicted.take (policy.sampleSize seqBits)) =
        .error e := by
  unfold calibrate
  dsimp only
  cases checkPopulation "predicted slack" (predicted.take (policy.sampleSize seqBits)) <;>
    simp [Except.map]

/-- A sample in any order leads to the same calibration. -/
theorem calibrate_perm [RankedQuantity α] {predicted' : List α} {c : Calibration α}
    (h : (predicted.take (policy.sampleSize seqBits)).Perm
      (predicted'.take (policy.sampleSize seqBits))) :
    policy.calibrate seqBits predicted = .ok c ↔ policy.calibrate seqBits predicted' = .ok c := by
  have hempty : predicted.take (policy.sampleSize seqBits) = [] ↔
      predicted'.take (policy.sampleSize seqBits) = [] := by
    rw [← List.length_eq_zero_iff, ← List.length_eq_zero_iff, h.length_eq]
  have hfinite : (∀ x ∈ predicted.take (policy.sampleSize seqBits), Quantity.isFinite x = true) ↔
      ∀ x ∈ predicted'.take (policy.sampleSize seqBits), Quantity.isFinite x = true :=
    forall_congr' fun x => by rw [h.mem_iff]
  rw [calibrate_eq_ok_iff, calibrate_eq_ok_iff, sortedDown_eq_of_perm h, Ne, hempty, hfinite]

end Outcome

/-- What a calibration finds depends on the numbers of its sample alone, however ordered, and how it
fails on the sample: where a number is not finite, the first such number is named; where the sample
has no numbers, that is. -/
theorem calibrate_sample (policy : CalibrationPolicy Float) (seqBits : ℕ)
    (predicted predicted' : List Float) :
    let m := min (policy.sampleSize seqBits) predicted.length
    let m' := min (policy.sampleSize seqBits) predicted'.length
    (m = m' → (predicted.take m).Perm (predicted'.take m') →
      ∀ c, policy.calibrate seqBits predicted = .ok c ↔
        policy.calibrate seqBits predicted' = .ok c) ∧
    (m = m' → predicted.take m = predicted'.take m' →
      policy.calibrate seqBits predicted = policy.calibrate seqBits predicted') ∧
    (∀ what i x, policy.calibrate seqBits predicted = .error (.nonFinite what i x) ↔
      what = "predicted slack" ∧ (predicted.take m)[i]? = some x ∧ x.isFinite = false ∧
        ∀ j < i, ∀ y, (predicted.take m)[j]? = some y → y.isFinite = true) ∧
    ((∃ what i x, policy.calibrate seqBits predicted = .error (.nonFinite what i x)) ↔
      ∃ x ∈ predicted.take m, x.isFinite = false) ∧
    ∀ what, policy.calibrate seqBits predicted = .error (.emptyPopulation what) ↔
      what = "predicted slack" ∧ m = 0 := by
  intro m m'
  rw [take_min_length, take_min_length]
  refine ⟨fun _ hperm c => calibrate_perm hperm, fun _ hsame => ?_, fun what i x => ?_, ?_,
    fun what => ?_⟩
  · unfold calibrate
    dsimp only
    rw [hsame]
  · rw [calibrate_eq_error_iff, checkPopulation_eq_nonFinite_iff, firstNonFinite?_eq_some_iff]
    rfl
  · simp only [calibrate_eq_error_iff, checkPopulation_eq_nonFinite_iff]
    constructor
    · rintro ⟨what, i, x, -, hfirst⟩
      obtain ⟨hget, hx, -⟩ := firstNonFinite?_eq_some_iff.mp hfirst
      exact ⟨x, List.mem_of_getElem? hget, hx⟩
    · rintro ⟨x, hmem, hx⟩
      cases hfirst : firstNonFinite? (predicted.take (policy.sampleSize seqBits)) with
      | some found => exact ⟨_, found.1, found.2, rfl, rfl⟩
      | none =>
          have hfinite : x.isFinite = true := firstNonFinite?_eq_none_iff.mp hfirst x hmem
          exact absurd hfinite (by simp [hx])
  · rw [calibrate_eq_error_iff, checkPopulation_eq_emptyPopulation_iff, List.take_eq_nil_iff]
    simp only [m, Nat.min_eq_zero_iff, List.length_eq_zero_iff]

/-- Two samples for every small design. -/
def twoSamples : CalibrationPolicy Float := { Builtin.calibration with minSamples := 2 }

/-- Two slacks in either order, and a third one behind them that the sample does not contain. -/
theorem calibrate_sample_swapped :
    (∃ c, twoSamples.calibrate 1 [-1.0, -0.5] = .ok c) ∧
      ∀ c, twoSamples.calibrate 1 [-1.0, -0.5] = .ok c ↔
        twoSamples.calibrate 1 [-0.5, -1.0, 1.0 / 0.0] = .ok c := by
  have hsize : twoSamples.sampleSize 1 = 2 := by decide +kernel
  have hfinite : ∀ x ∈ [(-1.0 : Float), -0.5], Quantity.isFinite x = true := by decide +kernel
  generalize (-1.0 : Float) = x, (-0.5 : Float) = y, (1.0 / 0.0 : Float) = z at hfinite ⊢
  constructor
  · refine ⟨_, calibrate_eq_ok_iff.mpr ⟨?_, rfl⟩⟩
    rw [hsize]
    exact ⟨List.cons_ne_nil _ _, hfinite⟩
  · refine (calibrate_sample twoSamples 1 [x, y] [y, x, z]).1 ?_ ?_
    · rw [hsize]
      rfl
    · rw [hsize]
      exact .swap _ _ _

end CalibrationPolicy

end Presynth
