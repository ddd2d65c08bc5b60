import Mathlib.Algebra.Order.Floor.Ring
import Mathlib.Data.Rat.Floor
import Mathlib.Tactic.Linarith
import Presynth.Quantity
/-!
# The nearest integer

Fractions are rounded to the nearest integer. Exactly half way between two integers these are
equally near, and the even one is taken.

Main statements: `isNearestEven_roundRat` (that is what rounding a fraction gives),
`IsNearestEven.unique` (and it leaves no choice) and `IsNearestEven.mono` (greater numbers have
greater ones).
-/

namespace Presynth

/-- `k` is the integer nearest to `x`; if another one is as near, then `k` is the even one. -/
structure IsNearestEven (x : ℚ) (k : ℤ) : Prop where
  nearest : ∀ j : ℤ, |x - k| ≤ |x - j|
  even : ∀ j : ℤ, j ≠ k → |x - j| = |x - k| → k % 2 = 0

/-- Nothing is farther than a half from its nearest integer. -/
theorem IsNearestEven.within_half {x : ℚ} {k : ℤ} (h : IsNearestEven x k) : |x - k| ≤ 1 / 2 := by
  have hfloor := h.nearest ⌊x⌋
  have hnext := h.nearest (⌊x⌋ + 1)
  have hle := Int.floor_le x
  have hlt := Int.lt_floor_add_one x
  rw [abs_of_nonneg (by linarith : 0 ≤ x - ⌊x⌋)] at hfloor
  push_cast at hnext
  rw [abs_of_nonpos (by linarith : x - (⌊x⌋ + 1) ≤ 0)] at hnext
  linarith

/-- A number is half a unit from two integers only, and these are not both even. -/
theorem IsNearestEven.unique {x : ℚ} {k l : ℤ} (hk : IsNearestEven x k) (hl : IsNearestEven x l) :
    k = l := by
  by_contra hne
  have hsame : |x - k| = |x - l| := le_antisymm (hk.nearest l) (hl.nearest k)
  have hkeven := hk.even l (Ne.symm hne) hsame.symm
  have hleven := hl.even k hne hsame
  -- two integers that are both within a half of `x` are neighbours
  have hkx := abs_le.mp hk.within_half
  have hlx := abs_le.mp hl.within_half
  have hkl : (k : ℚ) ≤ l + 1 := by linarith
  have hlk : (l : ℚ) ≤ k + 1 := by linarith
  have hkl' : k ≤ l + 1 := by exact_mod_cast hkl
  have hlk' : l ≤ k + 1 := by exact_mod_cast hlk
  omega

/-- An integer within a half of `x` that is even if it is a half away is the nearest one. -/
theorem isNearestEven_of_abs_le {x : ℚ} {k : ℤ} (h : |x - k| ≤ 1 / 2)
    (heven : |x - k| = 1 / 2 → k % 2 = 0) : IsNearestEven x k := by
  have hfar : ∀ j : ℤ, j ≠ k → 1 - |x - k| ≤ |x - j| := by
    intro j hj
    have hone : (1 : ℚ) ≤ |(j : ℚ) - k| := by
      exact_mod_cast Int.one_le_abs (sub_ne_zero.mpr hj)
    have htriangle : |(j : ℚ) - k| ≤ |x - j| + |x - k| := by
      rw [abs_sub_comm x j]
      exact (abs_sub_le (j : ℚ) x k)
    linarith
  constructor
  · intro j
    by_cases hj : j = k
    · rw [hj]
    · linarith [hfar j hj]
  · intro j hj hsame
    exact heven (by linarith [hfar j hj])

theorem isNearestEven_of_abs_lt {x : ℚ} {k : ℤ} (h : |x - k| < 1 / 2) : IsNearestEven x k :=
  isNearestEven_of_abs_le h.le fun hhalf => absurd hhalf h.ne

/-- Rounding to a multiple of a number is off by no more than half of that number. -/
theorem IsNearestEven.abs_sub_mul_le {x unit : ℚ} {k : ℤ} (hunit : 0 < unit)
    (h : IsNearestEven (x / unit) k) : |x - k * unit| ≤ unit / 2 :=
  calc |x - k * unit| = |x / unit - k| * unit := by
        rw [← abs_of_pos hunit, ← abs_mul, abs_of_pos hunit, sub_mul, div_mul_cancel₀ _ hunit.ne']
    _ ≤ 1 / 2 * unit := mul_le_mul_of_nonneg_right h.within_half hunit.le
    _ = unit / 2 := by ring

/-- A greater number has no lesser nearest integer. -/
theorem IsNearestEven.mono {x y : ℚ} {k l : ℤ} (hk : IsNearestEven x k) (hl : IsNearestEven y l)
    (h : x ≤ y) : k ≤ l := by
  by_contra hlt
  have hkx := abs_le.mp hk.within_half
  have hly := abs_le.mp hl.within_half
  have hsucc : (l : ℚ) + 1 ≤ k := by exact_mod_cast (not_le.mp hlt : l + 1 ≤ k)
  -- both are half way between the same two integers, and then there is no choice
  obtain rfl : x = y := le_antisymm h (by linarith)
  exact hlt (hk.unique hl).le

theorem isNearestEven_intCast (k : ℤ) : IsNearestEven k k :=
  isNearestEven_of_abs_le (by simp) fun h => by norm_num at h

/-- The executable rounding is the one that is described. -/
theorem isNearestEven_roundRat (x : ℚ) : IsNearestEven x (roundRat x) := by
  have hle : (x.floor : ℚ) ≤ x := Rat.floor_le x
  have hlt : x < x.floor + 1 := by exact_mod_cast Rat.lt_floor_add_one x
  unfold roundRat
  dsimp only
  split
  · -- in the lower half the floor is nearer, so no tie is possible
    rename_i hbelow
    refine isNearestEven_of_abs_le ?_ fun hhalf => ?_
    · rw [abs_le]
      constructor <;> linarith
    · rw [abs_of_nonneg (by linarith)] at hhalf
      linarith
  · rename_i hbelow
    split
    · rename_i habove
      refine isNearestEven_of_abs_le ?_ fun hhalf => ?_
      · push_cast
        rw [abs_le]
        constructor <;> linarith
      · push_cast at hhalf
        rw [abs_of_nonpos (by linarith)] at hhalf
        linarith
    · -- at the half itself the even neighbour is taken
      rename_i habove
      split
      · rename_i heven
        refine isNearestEven_of_abs_le ?_ fun _ => heven
        rw [abs_le]
        constructor <;> linarith
      · rename_i hodd
        refine isNearestEven_of_abs_le ?_ fun _ => by omega
        push_cast
        rw [abs_le]
        constructor <;> linarith

example : roundRat (5 / 2) = 2 ∧ roundRat (7 / 2) = 4 := by decide +kernel

end Presynth
