import Mathlib.Algebra.Order.BigOperators.Group.List
import Mathlib.Algebra.Order.Group.Defs
import Mathlib.Order.Bounds.Basic
import Presynth.Slack.Summary
/-!
# How slacks add up

With exact arithmetic, the worst slack is the least of the slacks and the total is their sum. So
neither depends on the order of the paths, and paths that take longer make neither of them greater.

Main statements: `isLeast_leastOf`, `SlackBudget.summarizePaths_perm` (order) and
`SlackBudget.summarizePaths_le` (longer paths).
-/

namespace Presynth

variable {α : Type}

/-! ### The sum -/

theorem sumOf_eq_sum [AddMonoid α] (xs : List α) : sumOf xs = xs.sum := by
  cases xs with
  | nil => rfl
  | cons x rest => rw [List.sum_eq_foldl, List.foldl_cons, zero_add, sumOf]

/-! ### The least -/

section Least

variable [LinearOrder α]

theorem foldl_lesser?_some (xs : List α) (least : α) :
    ∃ m, xs.foldl lesser? (some least) = some m ∧ IsLeast {x | x ∈ least :: xs} m := by
  induction xs generalizing least with
  | nil => exact ⟨least, rfl, by simp [IsLeast, lowerBounds]⟩
  | cons x xs ih =>
      rw [List.foldl_cons, lesser?, ← min_def_lt]
      obtain ⟨m, hm, hmem, hle⟩ := ih (min x least)
      refine ⟨m, hm, ?_, fun y hy => ?_⟩
      · rcases List.mem_cons.mp hmem with rfl | hmem
        · rcases min_choice x least with h | h <;> simp [h]
        · exact List.mem_cons_of_mem _ (List.mem_cons_of_mem _ hmem)
      · have hmin : m ≤ min x least := hle List.mem_cons_self
        rcases List.mem_cons.mp hy with rfl | hy
        · exact hmin.trans (min_le_right x y)
        · rcases List.mem_cons.mp hy with rfl | hy
          · exact hmin.trans (min_le_left y least)
          · exact hle (List.mem_cons_of_mem _ hy)

/-- The least of some numbers is one of them, and no more than any. -/
theorem isLeast_leastOf [Quantity α] {xs : List α} (h : xs ≠ []) :
    IsLeast {x | x ∈ xs} (leastOf xs) := by
  obtain ⟨x, xs, rfl⟩ := List.exists_cons_of_ne_nil h
  obtain ⟨m, hm, hleast⟩ := foldl_lesser?_some xs x
  rw [leastOf, List.foldl_cons, lesser?, if_pos le_rfl, hm]
  exact hleast

theorem leastOf_le [Quantity α] {xs ys : List α} (h : List.Forall₂ (· ≤ ·) xs ys) :
    leastOf xs ≤ leastOf ys := by
  cases h with
  | nil => exact le_rfl
  | @cons x y xs ys hxy hrest =>
      have hleast := isLeast_leastOf (List.cons_ne_nil x xs)
      -- in the first list, a number that is no greater stands where the least of the second does
      obtain ⟨i, hi, hget⟩ := List.getElem_of_mem (isLeast_leastOf (List.cons_ne_nil y ys)).1
      have hall : List.Forall₂ (· ≤ ·) (x :: xs) (y :: ys) := .cons hxy hrest
      have hi' : i < (x :: xs).length := hall.length_eq ▸ hi
      rw [← hget]
      exact (hleast.2 (List.getElem_mem hi')).trans (hall.get hi' hi)

end Least

/-! ### Summaries -/

namespace TimingSummary

variable [AddCommGroup α] [LinearOrder α] [Quantity α]

theorem ofSlacks_of_ne_nil {slacks : List α} (h : slacks ≠ []) :
    ofSlacks slacks = ⟨leastOf slacks, slacks.sum⟩ := by
  rw [ofSlacks, if_neg (by simpa using h), sumOf_eq_sum]

theorem ofSlacks_perm {slacks slacks' : List α} (h : slacks.Perm slacks') :
    ofSlacks slacks = ofSlacks slacks' := by
  by_cases hnil : slacks = []
  · subst hnil
    rw [h.nil_eq]
  · have hnil' : slacks' ≠ [] := fun heq => hnil (h.trans (.of_eq heq)).eq_nil
    have hset : {x | x ∈ slacks} = {x | x ∈ slacks'} := Set.ext fun _ => h.mem_iff
    have hleast : leastOf slacks = leastOf slacks' :=
      (isLeast_leastOf hnil).unique (hset ▸ isLeast_leastOf hnil')
    rw [ofSlacks_of_ne_nil hnil, ofSlacks_of_ne_nil hnil', hleast, h.sum_eq]

/-- With smaller slacks both become smaller or stay. -/
theorem ofSlacks_le [IsOrderedAddMonoid α] {slacks slacks' : List α}
    (h : List.Forall₂ (· ≤ ·) slacks slacks') :
    (ofSlacks slacks).wns ≤ (ofSlacks slacks').wns ∧
      (ofSlacks slacks).tns ≤ (ofSlacks slacks').tns := by
  cases h with
  | nil => exact ⟨le_rfl, le_rfl⟩
  | @cons x y xs ys hxy hrest =>
      rw [ofSlacks_of_ne_nil (List.cons_ne_nil x xs), ofSlacks_of_ne_nil (List.cons_ne_nil y ys)]
      exact ⟨leastOf_le (.cons hxy hrest), List.Forall₂.sum_le_sum (.cons hxy hrest)⟩

end TimingSummary

namespace SlackBudget

variable [AddCommGroup α] [LinearOrder α]
variable {budget : SlackBudget α} {paths paths' : List (TimingPath α)}

theorem slack_eq_min (budget : SlackBudget α) (delay : α) (b : PathBoundary) :
    budget.slack delay b = min (budget.requiredAt b - budget.arrivalOf delay b) 0 := by
  rw [slack, min_def_lt]

/-- The order of paths does not matter, nor do the signals that they pass. -/
theorem summarizePaths_perm [Quantity α] (budget : SlackBudget α)
    (h : (paths.map fun path => (path.delay, path.boundary)).Perm
      (paths'.map fun path => (path.delay, path.boundary))) :
    budget.summarizePaths paths = budget.summarizePaths paths' := by
  refine TimingSummary.ofSlacks_perm ?_
  have hslacks := h.map fun entry => budget.slack entry.1 entry.2
  rwa [List.map_map, List.map_map] at hslacks

variable [IsOrderedAddMonoid α]

/-- A path that takes longer has no more slack. -/
theorem slack_le {delay delay' : α} (h : delay ≤ delay') (b : PathBoundary) :
    budget.slack delay' b ≤ budget.slack delay b := by
  have harrival : budget.arrivalOf delay b ≤ budget.arrivalOf delay' b := by
    unfold arrivalOf
    split
    · exact add_le_add_left h _
    · exact h
  rw [slack_eq_min, slack_eq_min]
  exact min_le_min_right 0 (sub_le_sub_left harrival _)

/-- Where each path takes longer, the design has no more slack. -/
theorem summarizePaths_le [Quantity α] (budget : SlackBudget α)
    (h : List.Forall₂ (fun path path' => path.boundary = path'.boundary ∧ path.delay ≤ path'.delay)
      paths paths') :
    (budget.summarizePaths paths').wns ≤ (budget.summarizePaths paths).wns ∧
      (budget.summarizePaths paths').tns ≤ (budget.summarizePaths paths).tns := by
  refine TimingSummary.ofSlacks_le ?_
  rw [pathSlacks, pathSlacks, List.forall₂_map_left_iff, List.forall₂_map_right_iff]
  exact h.flip.imp fun path path' hle => hle.1 ▸ slack_le hle.2 _

end SlackBudget

end Presynth
