import Mathlib.Algebra.Order.Group.Basic
import Mathlib.Algebra.Order.Ring.Rat
import Presynth.Proofs.Slack.Aggregation
/-!
# Slacks class by class

Paths of different boundary classes have different times to arrive by, so a design may also be
summed up class by class: the worst slack is then the least of those of the classes, and the total
the sum of theirs. As no slack is positive, a class without paths, which is exactly on time, makes
no difference to either.

Main statements: `TimingSummary.ofSlacks_cons` (one more slack), `TimingSummary.isBounded_ofSlacks`,
`SlackBudget.summarizePaths_append` and `SlackBudget.summarizePaths_eq_byClass` (summaries of parts
combine), and `SlackBudget.summarizePaths_exact`.
-/

namespace Presynth

variable {α : Type}

/-! ### The least of more numbers -/

section Least

variable [LinearOrder α] [Quantity α]

theorem leastOf_singleton (x : α) : leastOf [x] = x := by
  simp [leastOf, lesser?]

theorem leastOf_cons (x : α) {rest : List α} (h : rest ≠ []) :
    leastOf (x :: rest) = min x (leastOf rest) := by
  have hset : {y | y ∈ x :: rest} = insert x {y | y ∈ rest} := Set.ext fun y => List.mem_cons
  have hleast := isLeast_leastOf (List.cons_ne_nil x rest)
  rw [hset] at hleast
  exact hleast.unique ((isLeast_leastOf h).insert x)

end Least

/-! ### Combining summaries -/

namespace TimingSummary

/-- The summary of two populations of slacks in one, from their summaries. -/
def combine [Min α] [Add α] (s t : TimingSummary α) : TimingSummary α :=
  ⟨min s.wns t.wns, s.tns + t.tns⟩

variable [AddCommGroup α] [LinearOrder α]

theorem combine_assoc (s t u : TimingSummary α) :
    (s.combine t).combine u = s.combine (t.combine u) := by
  rw [combine, combine, combine, combine, min_assoc, add_assoc]

theorem combine_comm (s t : TimingSummary α) : s.combine t = t.combine s := by
  rw [combine, combine, min_comm, add_comm]

instance : Std.Associative (combine (α := α)) := ⟨combine_assoc⟩

instance : Std.Commutative (combine (α := α)) := ⟨combine_comm⟩

/-- The bounds between the worst slack and the total of a number of slacks. -/
structure IsBounded (n : ℕ) (s : TimingSummary α) : Prop where
  wns_le_zero : s.wns ≤ 0
  tns_le_wns : s.tns ≤ s.wns
  nsmul_wns_le_tns : n • s.wns ≤ s.tns

namespace IsBounded

variable {n : ℕ} {s : TimingSummary α}

/-- To be exactly on time is neutral. -/
theorem combine_onTime (h : s.IsBounded n) : combine ⟨0, 0⟩ s = s := by
  rw [combine, min_eq_right h.wns_le_zero, zero_add]

theorem isMet_iff [IsOrderedAddMonoid α] (h : s.IsBounded n) : s.isMet = true ↔ s.tns = 0 := by
  rw [isMet, decide_eq_true_iff]
  constructor
  · intro hwns
    refine le_antisymm (h.tns_le_wns.trans h.wns_le_zero) (le_trans ?_ h.nsmul_wns_le_tns)
    exact nsmul_nonneg hwns n
  · intro htns
    exact htns.ge.trans h.tns_le_wns

end IsBounded

variable [Quantity α]

theorem tns_ofSlacks (slacks : List α) : (ofSlacks slacks).tns = slacks.sum := by
  cases slacks with
  | nil => rfl
  | cons x rest => rw [ofSlacks_of_ne_nil (List.cons_ne_nil x rest)]

/-- A slack joins the others, also where there are none. -/
theorem ofSlacks_cons {x : α} (hx : x ≤ 0) (rest : List α) :
    ofSlacks (x :: rest) = combine ⟨x, x⟩ (ofSlacks rest) := by
  rw [ofSlacks_of_ne_nil (List.cons_ne_nil x rest), List.sum_cons]
  by_cases h : rest = []
  · subst h
    change _ = TimingSummary.mk (min x 0) (x + 0)
    rw [leastOf_singleton, min_eq_left hx, List.sum_nil]
  · rw [leastOf_cons x h, ofSlacks_of_ne_nil h, combine]

variable {slacks : List α}

/-- The least slack is zero if no slack is below zero. -/
theorem zero_le_wns_ofSlacks_iff (h : ∀ x ∈ slacks, x ≤ 0) :
    0 ≤ (ofSlacks slacks).wns ↔ ∀ x ∈ slacks, 0 ≤ x := by
  induction slacks with
  | nil => exact iff_of_true le_rfl nofun
  | cons x rest ih =>
      rw [List.forall_mem_cons] at h ⊢
      rw [ofSlacks_cons h.1, ← ih h.2]
      exact le_min_iff

/-- All slacks lie between the least one and zero, and so their sum lies between as many times the
least one and the least one. -/
theorem isBounded_ofSlacks [IsOrderedAddMonoid α] (h : ∀ x ∈ slacks, x ≤ 0) :
    (ofSlacks slacks).IsBounded slacks.length := by
  induction slacks with
  | nil => exact ⟨le_rfl, le_rfl, (zero_nsmul (0 : α)).le⟩
  | cons x rest ih =>
      rw [List.forall_mem_cons] at h
      obtain ⟨hwns, htns, hbound⟩ := ih h.2
      rw [ofSlacks_cons h.1]
      refine ⟨(min_le_left _ _).trans h.1, le_min ?_ ?_, ?_⟩
      · exact add_le_of_nonpos_right (htns.trans hwns)
      · exact (add_le_of_nonpos_left h.1).trans htns
      · rw [List.length_cons, succ_nsmul']
        exact add_le_add (min_le_left _ _)
          ((nsmul_le_nsmul_right (min_le_right _ _) _).trans hbound)

end TimingSummary

/-! ### One more path -/

namespace SlackBudget

variable [AddCommGroup α] [LinearOrder α]

theorem slack_le_zero (budget : SlackBudget α) (delay : α) (b : PathBoundary) :
    budget.slack delay b ≤ 0 :=
  (budget.slack_eq_min delay b).trans_le (min_le_right _ _)

theorem pathSlacks_le_zero (budget : SlackBudget α) (paths : List (TimingPath α)) :
    ∀ x ∈ budget.pathSlacks paths, x ≤ 0 := by
  intro x hx
  obtain ⟨path, -, rfl⟩ := List.mem_map.mp hx
  exact budget.slack_le_zero _ _

/-- The summary of a single path. -/
def ofPath (budget : SlackBudget α) (path : TimingPath α) : TimingSummary α :=
  let slack := budget.slack path.delay path.boundary
  ⟨slack, slack⟩

variable [Quantity α]

/-- A summary of paths is put together from those of single paths. -/
theorem summarizePaths_cons (budget : SlackBudget α) (path : TimingPath α)
    (rest : List (TimingPath α)) :
    budget.summarizePaths (path :: rest) =
      (budget.ofPath path).combine (budget.summarizePaths rest) :=
  TimingSummary.ofSlacks_cons (budget.slack_le_zero _ _) _

theorem summarize_cons (budget : SlackBudget α) (delay : α) (rest : List α) (b : PathBoundary) :
    budget.summarize (delay :: rest) b =
      TimingSummary.combine ⟨budget.slack delay b, budget.slack delay b⟩
        (budget.summarize rest b) :=
  TimingSummary.ofSlacks_cons (budget.slack_le_zero _ _) _

/-! ### Classes -/

/-- The delays of the paths of a class. -/
def delaysOf (b : PathBoundary) (paths : List (TimingPath α)) : List α :=
  (paths.filter fun path => path.boundary = b).map TimingPath.delay

/-- The summary over all classes, combined from the summaries of the delays of each. -/
def summarizeByClass (budget : SlackBudget α) (paths : List (TimingPath α)) : TimingSummary α :=
  let ofClass (b : PathBoundary) := budget.summarize (delaysOf b paths) b
  ((ofClass .RegToReg).combine (ofClass .InToReg)).combine
    ((ofClass .RegToOut).combine (ofClass .InToOut))

/-- A path joins the others of its class, and no others. -/
theorem summarize_delaysOf_cons (budget : SlackBudget α) (path : TimingPath α)
    (rest : List (TimingPath α)) (b : PathBoundary) :
    budget.summarize (delaysOf b (path :: rest)) b =
      if path.boundary = b then
        (budget.ofPath path).combine (budget.summarize (delaysOf b rest) b)
      else budget.summarize (delaysOf b rest) b := by
  unfold delaysOf
  by_cases h : path.boundary = b
  · rw [List.filter_cons_of_pos (by simpa using h), List.map_cons, summarize_cons, if_pos h, ofPath,
      h]
  · rw [List.filter_cons_of_neg (by simpa using h), if_neg h]

/-- It makes no difference whether paths are summed up together or class by class. -/
theorem summarizePaths_eq_byClass (budget : SlackBudget α) (paths : List (TimingPath α)) :
    budget.summarizePaths paths = budget.summarizeByClass paths := by
  induction paths with
  | nil =>
      change TimingSummary.mk (0 : α) 0 = ⟨min (min 0 0) (min 0 0), 0 + 0 + (0 + 0)⟩
      simp
  | cons path rest ih =>
      rw [summarizePaths_cons, ih]
      unfold summarizeByClass
      simp only [summarize_delaysOf_cons]
      cases path.boundary <;> simp only [if_true, reduceCtorEq, if_false] <;> ac_rfl

/-! ### All paths -/

variable [IsOrderedAddMonoid α]

theorem isBounded_summarizePaths (budget : SlackBudget α) (paths : List (TimingPath α)) :
    (budget.summarizePaths paths).IsBounded paths.length := by
  have hbounded := TimingSummary.isBounded_ofSlacks (budget.pathSlacks_le_zero paths)
  rwa [pathSlacks, List.length_map] at hbounded

theorem summarizePaths_append (budget : SlackBudget α) (paths more : List (TimingPath α)) :
    budget.summarizePaths (paths ++ more) =
      (budget.summarizePaths paths).combine (budget.summarizePaths more) := by
  induction paths with
  | nil => exact (budget.isBounded_summarizePaths more).combine_onTime.symm
  | cons path rest ih =>
      rw [List.cons_append, summarizePaths_cons, summarizePaths_cons, ih,
        TimingSummary.combine_assoc]

/-- A design is on time if each of its paths is. -/
theorem isMet_summarizePaths_iff (budget : SlackBudget α) (paths : List (TimingPath α)) :
    (budget.summarizePaths paths).isMet = true ↔
      ∀ path ∈ paths,
        budget.arrivalOf path.delay path.boundary ≤ budget.requiredAt path.boundary := by
  rw [TimingSummary.isMet, decide_eq_true_iff, summarizePaths,
    TimingSummary.zero_le_wns_ofSlacks_iff (budget.pathSlacks_le_zero paths), pathSlacks,
    List.forall_mem_map]
  refine forall₂_congr fun path _ => ?_
  rw [slack_eq_min, le_min_iff, sub_nonneg, and_iff_left le_rfl]

/-- With exact arithmetic, the worst slack of paths is the least of their margins, none of which
counts as more than zero, and the total is the sum of these; without paths both are zero. The number
of paths bounds the total by the worst slack. A design is on time exactly if the total is zero, and
exactly if each path arrives in time. In whatever order the paths are listed, the summary is
combined from those of the classes; and more paths make neither slack greater. -/
theorem summarizePaths_exact (budget : SlackBudget α) (paths : List (TimingPath α)) :
    let s := budget.summarizePaths paths
    let margin (path : TimingPath α) : α :=
      min 0 (budget.requiredAt path.boundary - budget.arrivalOf path.delay path.boundary)
    (paths = [] → s = ⟨0, 0⟩) ∧
    (paths ≠ [] → IsLeast {x | ∃ path ∈ paths, margin path = x} s.wns) ∧
    s.tns = (paths.map margin).sum ∧
    (paths.length • s.wns ≤ s.tns ∧ s.tns ≤ s.wns ∧ s.wns ≤ 0) ∧
    (s.isMet = true ↔ s.tns = 0) ∧
    (s.tns = 0 ↔ ∀ path ∈ paths,
      budget.arrivalOf path.delay path.boundary ≤ budget.requiredAt path.boundary) ∧
    (∀ listed : List (TimingPath α), listed.Perm paths →
      budget.summarizePaths listed = budget.summarizeByClass paths) ∧
    ∀ more : List (TimingPath α), (budget.summarizePaths (paths ++ more)).wns ≤ s.wns ∧
      (budget.summarizePaths (paths ++ more)).tns ≤ s.tns := by
  intro s margin
  have hbounded : s.IsBounded paths.length := budget.isBounded_summarizePaths paths
  -- all that is claimed of the summary follows from the list of margins
  have hmargin : s = .ofSlacks (paths.map margin) :=
    congrArg TimingSummary.ofSlacks
      (List.map_congr_left fun path _ => by rw [slack_eq_min, min_comm])
  refine ⟨?_, fun hne => ?_, ?_,
    ⟨hbounded.nsmul_wns_le_tns, hbounded.tns_le_wns, hbounded.wns_le_zero⟩, hbounded.isMet_iff,
    hbounded.isMet_iff.symm.trans (budget.isMet_summarizePaths_iff paths), fun listed hperm => ?_,
    fun more => ?_⟩
  · rintro rfl
    rfl
  · have hne' : paths.map margin ≠ [] := by simpa using hne
    have hleast := isLeast_leastOf hne'
    simp only [List.mem_map] at hleast
    rwa [hmargin, TimingSummary.ofSlacks_of_ne_nil hne']
  · rw [hmargin, TimingSummary.tns_ofSlacks]
  · rw [budget.summarizePaths_perm (hperm.map _), summarizePaths_eq_byClass]
  · have hmore := budget.isBounded_summarizePaths more
    rw [summarizePaths_append]
    exact ⟨min_le_left _ _, add_le_of_nonpos_right (hmore.tns_le_wns.trans hmore.wns_le_zero)⟩

/-- A path that is on time and two that are late for different reasons: an input arrives late, and
an output is wanted early as well. -/
def mixedPaths : List (TimingPath ℚ) :=
  [⟨"r", "s", ["r", "s"], 2 / 5, .RegToReg⟩, ⟨"a", "s", ["a", "s"], 1 / 2, .InToReg⟩,
    ⟨"a", "o", ["a", "o"], 3 / 10, .InToOut⟩]

theorem summarizePaths_exact_mixed : ∃ budget : SlackBudget ℚ,
    budget.summarizePaths mixedPaths = ⟨-1 / 10, -1 / 5⟩ ∧
    mixedPaths.length • (-1 / 10 : ℚ) ≤ -1 / 5 ∧
    ¬ (∀ path ∈ mixedPaths,
      budget.arrivalOf path.delay path.boundary ≤ budget.requiredAt path.boundary) ∧
    budget.summarizeByClass mixedPaths = ⟨-1 / 10, -1 / 5⟩ ∧
    (budget.summarizePaths (mixedPaths ++ mixedPaths)).tns ≤ -1 / 5 := by
  let budget : SlackBudget ℚ := ⟨1 / 2, 1 / 10, 1 / 5⟩
  have hsummary : budget.summarizePaths mixedPaths = ⟨-1 / 10, -1 / 5⟩ := by decide +kernel
  obtain ⟨-, -, -, ⟨hbound, -⟩, -, htime, hclasses, hmore⟩ :=
    summarizePaths_exact budget mixedPaths
  have hreversed := hclasses mixedPaths.reverse mixedPaths.reverse_perm
  rw [hsummary] at hbound htime hmore
  refine ⟨budget, hsummary, hbound, fun h => ?_, ?_, (hmore mixedPaths).2⟩
  · exact absurd (htime.mpr h) (by decide +kernel)
  · rw [← hreversed]
    decide +kernel

end SlackBudget

end Presynth
