import Mathlib.Order.Bounds.Basic
import Presynth.Proofs.Netlist.WidthInference
/-!
# How many passes the inference of widths takes

A width assigned in a pass is seen by the rest of that pass. So a name waits one pass longer than a
name that it feeds only if that one is visited later. Along a walk of unresolved names each step to
a later one, an ascent, costs a pass, and a resolvable name is resolved in the pass that follows as
many passes as a walk from it has ascents at most.

This is kept as an invariant of a pass: of the names already visited those wait that need another
pass, of the names still to visit those that needed this one (`Inferring.widthPass_waiting`). From
one pass it follows what waits after any number of passes (`inferring_afterPasses`), and a run ends
with the first pass that resolves nothing, or with nothing left (`resolveWidths_eq_afterPasses`).

Main statements: `resolvedBy_succ_iff` (passes along what a name feeds), `resolvedIn_succ_iff` (the
pass of each name) and `passes_of_resolveWidths`.
-/

namespace Presynth

variable {α : Type}

namespace Netlist

/-- The number of steps in a list of names to one that comes later in `order`. -/
def ascents (order : List String) : List String → Nat
  | u :: v :: rest => (if order.idxOf u < order.idxOf v then 1 else 0) + ascents order (v :: rest)
  | _ => 0

/-- The netlist and the waiting names after a number of passes. -/
def afterPasses (g : Netlist α) (names : List String) : Nat → Netlist α × List String
  | 0 => (g, names)
  | k + 1 => (g.afterPasses names k).1.widthPass (g.afterPasses names k).2

variable (g : Netlist α)

/-- A walk of unresolved names, each of which feeds the next. -/
structure UnresolvedWalk (walk : List String) : Prop where
  linked : walk.IsChain g.Feeds
  unresolved : ∀ v ∈ walk, g.Unresolved v

/-- The walks of unresolved names from `v` have `k` ascents at most, and one of them has as many. -/
def MostAscents (order : List String) (v : String) (k : Nat) : Prop :=
  IsGreatest {m | ∃ rest, g.UnresolvedWalk (v :: rest) ∧ ascents order (v :: rest) = m} k

/-- The name `v` is resolved in the pass of this number, counted from one. -/
def ResolvedIn (names : List String) : Nat → String → Prop
  | 0, _ => False
  | k + 1, v => v ∈ (g.afterPasses names k).2 ∧ v ∉ (g.afterPasses names (k + 1)).2

/-- The name `v` is resolvable, and walks from it have less than `k` ascents. -/
structure ResolvedBy (order : List String) (k : Nat) (v : String) : Prop where
  resolvable : g.Resolvable v
  ascents_lt : ∀ rest, g.UnresolvedWalk (v :: rest) → ascents order (v :: rest) < k

open Classical in
/-- Those of `names` that are not resolved by the end of the pass `k`. -/
noncomputable def stillWaiting (order : List String) (k : Nat) (names : List String) :
    List String :=
  names.filter fun v => ¬ g.ResolvedBy order k v

variable {g}

/-! ### Passes along what a name feeds -/

theorem unresolvedWalk_singleton {v : String} (h : g.Unresolved v) : g.UnresolvedWalk [v] :=
  ⟨List.isChain_singleton v, by simpa using h⟩

theorem unresolvedWalk_cons_cons_iff {u v : String} {rest : List String} :
    g.UnresolvedWalk (u :: v :: rest) ↔
      g.Unresolved u ∧ v ∈ g.neighbors u ∧ g.UnresolvedWalk (v :: rest) := by
  constructor
  · rintro ⟨hlinked, hunresolved⟩
    rw [List.isChain_cons_cons] at hlinked
    rw [List.forall_mem_cons] at hunresolved
    exact ⟨hunresolved.1, hlinked.1, hlinked.2, hunresolved.2⟩
  · rintro ⟨hu, hfeeds, hlinked, hunresolved⟩
    exact ⟨List.isChain_cons_cons.mpr ⟨hfeeds, hlinked⟩, List.forall_mem_cons.mpr ⟨hu, hunresolved⟩⟩

theorem not_resolvedBy_zero (order : List String) (v : String) : ¬ g.ResolvedBy order 0 v :=
  fun h => Nat.not_lt_zero _ (h.ascents_lt [] (unresolvedWalk_singleton h.resolvable.unresolved))

theorem ResolvedBy.succ {order : List String} {k : Nat} {v : String} (h : g.ResolvedBy order k v) :
    g.ResolvedBy order (k + 1) v :=
  ⟨h.resolvable, fun rest hwalk => Nat.lt_succ_of_lt (h.ascents_lt rest hwalk)⟩

/-- A name is resolved by the end of a pass if each name of unknown width that it feeds is, those
that are visited later even by the end of the pass before. -/
theorem resolvedBy_succ_iff {order : List String} {k : Nat} {u : String} :
    g.ResolvedBy order (k + 1) u ↔ g.Unresolved u ∧ g.neighbors u ≠ [] ∧
      ∀ v ∈ g.neighbors u, g.knownWidth? v = none →
        if order.idxOf u < order.idxOf v then g.ResolvedBy order k v
        else g.ResolvedBy order (k + 1) v := by
  constructor
  · rintro ⟨⟨unresolved, fed, fanout⟩, hascents⟩
    refine ⟨unresolved, fed, fun v hv hnone => ?_⟩
    -- a walk from `v` is one from `u` as well, by the edge in front of it
    have hwalk : ∀ rest, g.UnresolvedWalk (v :: rest) →
        (if order.idxOf u < order.idxOf v then 1 else 0) + ascents order (v :: rest) < k + 1 :=
      fun rest hrest =>
        hascents (v :: rest) (unresolvedWalk_cons_cons_iff.mpr ⟨unresolved, hv, hrest⟩)
    split
    · rename_i hlater
      refine ⟨fanout v hv hnone, fun rest hrest => ?_⟩
      have hless := hwalk rest hrest
      rw [if_pos hlater] at hless
      omega
    · rename_i hearlier
      refine ⟨fanout v hv hnone, fun rest hrest => ?_⟩
      have hless := hwalk rest hrest
      rwa [if_neg hearlier, Nat.zero_add] at hless
  · rintro ⟨unresolved, fed, hfanout⟩
    refine ⟨.intro unresolved fed fun v hv hnone => ?_, fun rest hwalk => ?_⟩
    · have hv' := hfanout v hv hnone
      split at hv'
      · exact hv'.resolvable
      · exact hv'.resolvable
    · -- the walk of `u` alone has no ascent, any other one goes on from a name that `u` feeds
      cases rest with
      | nil => exact Nat.zero_lt_succ k
      | cons v rest =>
          obtain ⟨-, hv, hrest⟩ := unresolvedWalk_cons_cons_iff.mp hwalk
          have hnone := (hrest.unresolved v List.mem_cons_self).knownWidth?_eq
          have hv' := hfanout v hv hnone
          rw [ascents]
          split at hv'
          · rename_i hlater
            have hless := hv'.ascents_lt rest hrest
            rw [if_pos hlater]
            omega
          · rename_i hearlier
            rw [if_neg hearlier, Nat.zero_add]
            exact hv'.ascents_lt rest hrest

/-- What feeds itself is not resolvable. -/
theorem Resolvable.not_mem_neighbors {v : String} (h : g.Resolvable v) : v ∉ g.neighbors v := by
  induction h with
  | @intro v unresolved fed fanout ih =>
      intro hself
      exact ih v hself unresolved.knownWidth?_eq hself

/-! ### One visit -/

theorem exists_fanoutWidth?_iff {name : String} :
    (∃ w, g.fanoutWidth? name = some w) ↔
      g.neighbors name ≠ [] ∧ ∀ v ∈ g.neighbors name, ∃ u, g.knownWidth? v = some u := by
  constructor
  · rintro ⟨w, hw⟩
    obtain ⟨hbound, v, hv, -⟩ := fanoutWidth?_eq_some_iff.mp hw
    exact ⟨List.ne_nil_of_mem hv, fun v hv => (hbound v hv).imp fun u hu => hu.1⟩
  · rintro ⟨hfed, hknown⟩
    exact exists_fanoutWidth? hfed hknown

variable {net : Netlist α} {names : List String}

/-- A width is at hand where it was known or has been assigned. -/
theorem Inferring.exists_knownWidth?_iff {pending : List String} (h : Inferring g net pending)
    {v : String} : (∃ u, net.knownWidth? v = some u) ↔
      (g.knownWidth? v = none → g.Unresolved v ∧ v ∉ pending) := by
  constructor
  · rintro ⟨u, hu⟩ hnone
    rcases h.knownWidth?_cases hu with hknown | ⟨-, hres, -⟩
    · cases hnone.symm.trans hknown
    · refine ⟨hres.unresolved, fun hmem => ?_⟩
      rw [knownWidth?, (h.waiting v hmem).2, ← knownWidth?, hnone] at hu
      cases hu
  · intro hassigned
    cases hw : g.knownWidth? v with
    | some w => exact ⟨w, h.knownWidth?_of_known hw⟩
    | none =>
        obtain ⟨hunresolved, hnot⟩ := hassigned hw
        obtain ⟨w, hw, -⟩ := h.knownWidth?_of_assigned hunresolved hnot
        exact ⟨w, hw⟩

/-! ### The names that wait -/

theorem mem_stillWaiting_iff {order names : List String} {k : Nat} {v : String} :
    v ∈ g.stillWaiting order k names ↔ v ∈ names ∧ ¬ g.ResolvedBy order k v := by
  simp [stillWaiting]

theorem stillWaiting_cons_of_resolvedBy {order : List String} {k : Nat} {v : String}
    (h : g.ResolvedBy order k v) (names : List String) :
    g.stillWaiting order k (v :: names) = g.stillWaiting order k names :=
  List.filter_cons_of_neg (by simpa using h)

theorem stillWaiting_cons_of_not_resolvedBy {order : List String} {k : Nat} {v : String}
    (h : ¬ g.ResolvedBy order k v) (names : List String) :
    g.stillWaiting order k (v :: names) = v :: g.stillWaiting order k names :=
  List.filter_cons_of_pos (by simpa using h)

/-- Whether a name waits depends on the name alone, so the names can be looked at from the end as
well. -/
theorem stillWaiting_concat_of_resolvedBy {order : List String} {k : Nat} {v : String}
    (h : g.ResolvedBy order k v) (names : List String) :
    g.stillWaiting order k (names ++ [v]) = g.stillWaiting order k names := by
  rw [stillWaiting, List.filter_append, List.filter_cons_of_neg (by simpa using h), List.filter_nil,
    List.append_nil, stillWaiting]

theorem stillWaiting_concat_of_not_resolvedBy {order : List String} {k : Nat} {v : String}
    (h : ¬ g.ResolvedBy order k v) (names : List String) :
    g.stillWaiting order k (names ++ [v]) = g.stillWaiting order k names ++ [v] := by
  rw [stillWaiting, List.filter_append, List.filter_cons_of_pos (by simpa using h), List.filter_nil,
    stillWaiting]

/-- Before the first pass all names wait. -/
theorem stillWaiting_zero (order names : List String) : g.stillWaiting order 0 names = names :=
  List.filter_eq_self.mpr fun v _ => by simpa using not_resolvedBy_zero order v

/-! ### One visit -/

/-- What comes later than a name in a list stands behind it. -/
theorem idxOf_lt_idxOf_iff {before after : List String} {name v : String}
    (hnodup : (before ++ name :: after).Nodup) (hv : v ∈ before ++ name :: after) :
    (before ++ name :: after).idxOf name < (before ++ name :: after).idxOf v ↔ v ∈ after := by
  obtain ⟨-, hrest, hdisjoint⟩ := List.nodup_append.mp hnodup
  have hposition : (before ++ name :: after).idxOf name = before.length := by
    rw [List.idxOf_append_of_notMem fun hb => hdisjoint name hb name List.mem_cons_self rfl,
      List.idxOf_cons_self, Nat.add_zero]
  rw [hposition]
  by_cases hb : v ∈ before
  · rw [List.idxOf_append_of_mem hb]
    refine iff_of_false (Nat.not_lt.mpr (List.idxOf_lt_length_of_mem hb).le) fun ha => ?_
    exact hdisjoint v hb v (List.mem_cons_of_mem _ ha) rfl
  · rw [List.idxOf_append_of_notMem hb]
    rcases List.mem_cons.mp ((List.mem_append.mp hv).resolve_left hb) with rfl | ha
    · rw [List.idxOf_cons_self]
      exact iff_of_false (Nat.lt_irrefl _) (List.nodup_cons.mp hrest).1
    · have hne : name ≠ v := fun heq => (List.nodup_cons.mp hrest).1 (heq ▸ ha)
      rw [List.idxOf_cons_ne _ hne]
      exact iff_of_true (by omega) ha

/-- The names at hand in the pass `k + 1`: those of `before` that were visited and need another
pass, and those of `after` that were not resolved before. -/
theorem Inferring.visit_iff {order before after : List String} {name : String} {k : Nat}
    (horder : order = before ++ name :: after) (hnodup : order.Nodup)
    (hmem : ∀ v, v ∈ order ↔ g.Unresolved v)
    (h : Inferring g net
      (g.stillWaiting order (k + 1) before ++ g.stillWaiting order k (name :: after))) :
    (∃ w, net.fanoutWidth? name = some w) ↔ g.ResolvedBy order (k + 1) name := by
  have hunresolved : g.Unresolved name := (hmem name).mp (horder ▸ by simp)
  obtain ⟨-, -, hdisjoint⟩ := List.nodup_append.mp (horder ▸ hnodup)
  rw [exists_fanoutWidth?_iff, resolvedBy_succ_iff, and_iff_right hunresolved, h.neighbors]
  refine and_congr_right fun _ => forall₂_congr fun v hv => ?_
  rw [h.exists_knownWidth?_iff]
  refine forall_congr' fun hnone => ?_
  by_cases hin : v ∈ order
  · have hlater := idxOf_lt_idxOf_iff (horder ▸ hnodup) (horder ▸ hin)
    rw [← horder] at hlater
    rw [and_iff_right ((hmem v).mp hin), List.mem_append, mem_stillWaiting_iff,
      mem_stillWaiting_iff]
    rcases List.mem_append.mp (horder ▸ hin) with hb | ha
    · -- `v` was visited before in this pass, which may have resolved it
      have hnot : v ∉ name :: after := fun ha => hdisjoint v hb v ha rfl
      rw [if_neg fun hlt => hnot (List.mem_cons_of_mem _ (hlater.mp hlt))]
      simp [hb, hnot]
    · -- `v` is visited later, so only the passes before this one count
      have hnot : v ∉ before := fun hb => hdisjoint v hb v ha rfl
      by_cases hself : v = name
      · -- a name that feeds itself is never resolved
        have hnever : ¬ g.Resolvable v := fun hres => hres.not_mem_neighbors (hself ▸ hv)
        have hk : ∀ j, ¬ g.ResolvedBy order j v := fun j hj => hnever hj.resolvable
        simp [hnot, ha, hk]
      · rw [if_pos (hlater.mpr ((List.mem_cons.mp ha).resolve_left hself))]
        simp [hnot, ha]
  · rw [hmem] at hin
    refine iff_of_false (fun hv' => hin hv'.1) fun hv' => hin ?_
    split at hv'
    · exact hv'.resolvable.unresolved
    · exact hv'.resolvable.unresolved

/-! ### One pass -/

/-- From a visit on, a pass leaves those waiting that are not resolved by its end. -/
theorem Inferring.widthPass_waiting {order before after : List String} {k : Nat}
    (horder : order = before ++ after) (hnodup : order.Nodup)
    (hmem : ∀ v, v ∈ order ↔ g.Unresolved v)
    (h : Inferring g net (g.stillWaiting order (k + 1) before ++ g.stillWaiting order k after)) :
    (net.widthPass (g.stillWaiting order k after)).2 = g.stillWaiting order (k + 1) after := by
  -- on what is still to be visited; what was visited moves to `before`, so the order stays whole
  induction after generalizing net before with
  | nil => rfl
  | cons name after ih =>
      have hnext : order = (before ++ [name]) ++ after := by simp [horder]
      by_cases hk : g.ResolvedBy order k name
      · -- the name was resolved in an earlier pass and is not visited any more
        rw [stillWaiting_cons_of_resolvedBy hk] at h ⊢
        rw [stillWaiting_cons_of_resolvedBy hk.succ]
        exact ih hnext (by rwa [stillWaiting_concat_of_resolvedBy hk.succ])
      · have hvisit := h.visit_iff horder hnodup hmem
        rw [stillWaiting_cons_of_not_resolvedBy hk] at h ⊢
        rw [Netlist.widthPass]
        cases hw : net.fanoutWidth? name with
        | some w =>
            have hdone := hvisit.mp ⟨w, hw⟩
            rw [stillWaiting_cons_of_resolvedBy hdone]
            refine ih hnext ?_
            rw [stillWaiting_concat_of_resolvedBy hdone]
            exact h.assign hw
        | none =>
            have hleft : ¬ g.ResolvedBy order (k + 1) name := fun hdone => by
              obtain ⟨w, hw'⟩ := hvisit.mpr hdone
              cases hw.symm.trans hw'
            rw [stillWaiting_cons_of_not_resolvedBy hleft]
            refine congrArg (name :: ·) (ih hnext ?_)
            rwa [stillWaiting_concat_of_not_resolvedBy hleft, List.append_assoc]

/-! ### The names after some passes -/

/-- After a pass that resolves nothing nothing changes any more. -/
theorem afterPasses_of_stalled {m : Nat}
    (h : ¬ (g.afterPasses names (m + 1)).2.length < (g.afterPasses names m).2.length) {j : Nat}
    (hj : m ≤ j) : g.afterPasses names j = g.afterPasses names m := by
  induction j, hj using Nat.le_induction with
  | base => rfl
  | succ j _ ih =>
      rw [afterPasses, ih]
      exact (widthPass_of_stalled h).1

/-- The passes of a run without a fruitless one are no more than the names resolved in them. -/
theorem add_length_afterPasses_le {m : Nat}
    (h : ∀ j < m, (g.afterPasses names (j + 1)).2.length < (g.afterPasses names j).2.length) :
    m + (g.afterPasses names m).2.length ≤ names.length := by
  induction m with
  | zero => exact (Nat.zero_add _).le
  | succ m ih =>
      have hbefore := ih fun j hj => h j (Nat.lt_succ_of_lt hj)
      have hpass := h m (Nat.lt_succ_self m)
      omega

/-- At some point a pass resolves nothing. -/
theorem exists_fruitless (g : Netlist α) (names : List String) :
    ∃ m, (∀ j < m, (g.afterPasses names (j + 1)).2.length < (g.afterPasses names j).2.length) ∧
      ¬ (g.afterPasses names (m + 1)).2.length < (g.afterPasses names m).2.length := by
  have hexists :
      ∃ m, ¬ (g.afterPasses names (m + 1)).2.length < (g.afterPasses names m).2.length := by
    by_contra hall
    rw [not_exists_not] at hall
    have hle : names.length + 1 + (g.afterPasses names (names.length + 1)).2.length ≤
        names.length := add_length_afterPasses_le fun j _ => hall j
    omega
  classical
  exact ⟨Nat.find hexists, fun j hj => not_not.mp (Nat.find_min hexists hj),
    Nat.find_spec hexists⟩

theorem resolveWidths_nil (net : Netlist α) (report : WidthReport) :
    net.resolveWidths [] report = (.ok report, net) := by
  rw [resolveWidths, if_pos List.isEmpty_nil]

/-- A pass that resolves something is followed by another one. -/
theorem resolveWidths_of_lt (h : (net.widthPass names).2.length < names.length)
    (report : WidthReport) :
    net.resolveWidths names report = (net.widthPass names).1.resolveWidths (net.widthPass names).2
      ⟨report.inferred + (names.length - (net.widthPass names).2.length), report.passes + 1⟩ := by
  have hne : ¬ names.isEmpty = true := fun hempty => by simp_all
  rw [resolveWidths, if_neg hne]
  exact dif_pos h

/-- A pass that resolves nothing ends the run. -/
theorem resolveWidths_of_not_lt (hne : names ≠ [])
    (h : ¬ (net.widthPass names).2.length < names.length) (report : WidthReport) :
    net.resolveWidths names report = (.error ⟨names, report.passes + 1⟩, net) := by
  rw [resolveWidths, if_neg (by simpa using hne), (widthPass_of_stalled h).1]
  exact dif_neg (Nat.lt_irrefl _)

/-- As long as passes resolve something, a run is a run from what they leave. -/
theorem resolveWidths_eq_afterPasses {m : Nat}
    (h : ∀ j < m, (g.afterPasses names (j + 1)).2.length < (g.afterPasses names j).2.length) :
    ∃ inferred, g.resolveWidths names ⟨0, 0⟩ =
      (g.afterPasses names m).1.resolveWidths (g.afterPasses names m).2 ⟨inferred, m⟩ := by
  induction m with
  | zero => exact ⟨0, rfl⟩
  | succ m ih =>
      obtain ⟨inferred, hrun⟩ := ih fun j hj => h j (Nat.lt_succ_of_lt hj)
      exact ⟨_, hrun.trans (resolveWidths_of_lt (h m (Nat.lt_succ_self m)) _)⟩

section Run

variable (hstart : Inferring g g names) (hmem : ∀ v, v ∈ names ↔ g.Unresolved v)
include hstart hmem

/-- After `k` passes those wait that are not resolved by the end of pass `k`. -/
theorem inferring_afterPasses (k : Nat) :
    (g.afterPasses names k).2 = g.stillWaiting names k names ∧
      Inferring g (g.afterPasses names k).1 (g.stillWaiting names k names) := by
  induction k with
  | zero =>
      rw [stillWaiting_zero]
      exact ⟨rfl, hstart⟩
  | succ k ih =>
      obtain ⟨hwaiting, hinf⟩ := ih
      have hbegin : Inferring g (g.afterPasses names k).1
          (g.stillWaiting names (k + 1) [] ++ g.stillWaiting names k names) := hinf
      have hpass : (g.afterPasses names (k + 1)).2 = g.stillWaiting names (k + 1) names := by
        rw [afterPasses, hwaiting]
        exact hbegin.widthPass_waiting rfl hstart.nodup hmem
      refine ⟨hpass, ?_⟩
      rw [← hpass, afterPasses, hwaiting]
      exact hinf.widthPass []

theorem mem_afterPasses_iff {k : Nat} {v : String} :
    v ∈ (g.afterPasses names k).2 ↔ v ∈ names ∧ ¬ g.ResolvedBy names k v := by
  rw [(inferring_afterPasses hstart hmem k).1, mem_stillWaiting_iff]

/-- A name is resolved in the pass that follows as many passes as walks from it have ascents. -/
theorem resolvedIn_succ_iff {k : Nat} {v : String} :
    g.ResolvedIn names (k + 1) v ↔ g.Resolvable v ∧ g.MostAscents names v k := by
  have hiff : g.ResolvedIn names (k + 1) v ↔
      ¬ g.ResolvedBy names k v ∧ g.ResolvedBy names (k + 1) v := by
    rw [ResolvedIn, mem_afterPasses_iff hstart hmem, mem_afterPasses_iff hstart hmem]
    constructor
    · rintro ⟨⟨hv, hbefore⟩, hnow⟩
      exact ⟨hbefore, by_contra fun hnot => hnow ⟨hv, hnot⟩⟩
    · rintro ⟨hbefore, hnow⟩
      exact ⟨⟨(hmem v).mpr hnow.resolvable.unresolved, hbefore⟩, fun hwaits => hwaits.2 hnow⟩
  rw [hiff]
  constructor
  · rintro ⟨hbefore, hres, hless⟩
    refine ⟨hres, ?_, fun m hm => ?_⟩
    · -- it was not resolved before, so some walk has an ascent for each of the passes before
      obtain ⟨rest, hwalk, hmany⟩ : ∃ rest, g.UnresolvedWalk (v :: rest) ∧
          ¬ ascents names (v :: rest) < k := by
        by_contra hnone
        push Not at hnone
        exact hbefore ⟨hres, hnone⟩
      have hfew := hless rest hwalk
      exact ⟨rest, hwalk, by omega⟩
    · obtain ⟨rest, hwalk, rfl⟩ := hm
      exact Nat.lt_succ_iff.mp (hless rest hwalk)
  · rintro ⟨hres, ⟨rest, hwalk, hmany⟩, hmost⟩
    refine ⟨fun hbefore => ?_, hres, fun rest' hwalk' => ?_⟩
    · exact absurd (hbefore.ascents_lt rest hwalk) (by omega)
    · exact Nat.lt_succ_iff.mpr (hmost ⟨rest', hwalk', rfl⟩)

/-- A pass that leaves less names waiting resolves some. -/
theorem exists_resolvedIn {k : Nat}
    (h : (g.afterPasses names (k + 1)).2.length < (g.afterPasses names k).2.length) :
    ∃ v, g.ResolvedIn names (k + 1) v := by
  by_contra hnone
  push Not at hnone
  have hnodup : (g.afterPasses names k).2.Nodup := by
    have hinf := inferring_afterPasses hstart hmem k
    exact hinf.1 ▸ hinf.2.nodup
  have hsub : (g.afterPasses names k).2 ⊆ (g.afterPasses names (k + 1)).2 := fun v hv =>
    by_contra fun hnot => hnone v ⟨hv, hnot⟩
  exact absurd h (Nat.not_lt.mpr (List.subperm_of_subset hnodup hsub).length_le)

/-- The last pass that resolves a name is the one before the first fruitless pass. -/
theorem isGreatest_resolvedIn {m : Nat}
    (fruitful : ∀ j < m, (g.afterPasses names (j + 1)).2.length < (g.afterPasses names j).2.length)
    (fruitless : ¬ (g.afterPasses names (m + 1)).2.length < (g.afterPasses names m).2.length) :
    IsGreatest {k | k = 0 ∨ ∃ v, g.ResolvedIn names k v} m := by
  constructor
  · cases m with
    | zero => exact .inl rfl
    | succ m => exact .inr (exists_resolvedIn hstart hmem (fruitful m (Nat.lt_succ_self m)))
  · rintro k (rfl | ⟨v, hv⟩)
    · exact Nat.zero_le m
    · cases k with
      | zero => exact Nat.zero_le m
      | succ k =>
          -- after the fruitless pass the same names wait for ever, so none is resolved any more
          by_contra hlate
          have hk : g.afterPasses names k = g.afterPasses names m :=
            afterPasses_of_stalled fruitless (by omega)
          have hk' : g.afterPasses names (k + 1) = g.afterPasses names m :=
            afterPasses_of_stalled fruitless (by omega)
          rw [ResolvedIn, hk, hk'] at hv
          exact hv.2 hv.1

/-- Where no name waits any more after a pass, walks have less ascents than there were passes, and
the last pass was for one that has as many as possible. -/
theorem isGreatest_ascents {m : Nat} (hdone : (g.afterPasses names (m + 1)).2 = [])
    (fruitful : (g.afterPasses names (m + 1)).2.length < (g.afterPasses names m).2.length) :
    IsGreatest {k | ∃ v rest, g.UnresolvedWalk (v :: rest) ∧ ascents names (v :: rest) = k} m := by
  constructor
  · obtain ⟨v, hv⟩ := exists_resolvedIn hstart hmem fruitful
    obtain ⟨-, ⟨rest, hwalk, hascents⟩, -⟩ := (resolvedIn_succ_iff hstart hmem).mp hv
    exact ⟨v, rest, hwalk, hascents⟩
  · rintro k ⟨v, rest, hwalk, rfl⟩
    have hv : v ∈ names := (hmem v).mpr (hwalk.unresolved v List.mem_cons_self)
    have hby : g.ResolvedBy names (m + 1) v := by
      by_contra hnot
      have hwaits := (mem_afterPasses_iff hstart hmem).mpr ⟨hv, hnot⟩
      exact List.not_mem_nil (hdone ▸ hwaits)
    exact Nat.lt_succ_iff.mp (hby.ascents_lt rest hwalk)

end Run

/-- The number of passes is exact, whatever the order of the visits. Each resolvable name is
resolved in the pass that follows as many passes as a walk of unresolved names from it has ascents
at most. So a complete run takes one pass more than there are ascents on any walk, and no more
passes than names; a run that stalls takes one more than the last pass that resolves a name. -/
theorem passes_of_resolveWidths (g : Netlist α) (hkeys : g.KeyedByName) {names : List String}
    (hnames : names.Perm g.unresolvedNames) :
    (g.inferWidths = g.resolveWidths g.unresolvedNames ⟨0, 0⟩ ∧
      g.unresolvedNames.Pairwise (· < ·)) ∧
    (∀ k v, g.ResolvedIn names (k + 1) v ↔ g.Resolvable v ∧ g.MostAscents names v k) ∧
    ((∃ passes net, g.resolveWidths names ⟨0, 0⟩ = (.ok ⟨names.length, passes⟩, net) ∧
        (∀ v ∈ names, g.Resolvable v) ∧ passes ≤ names.length ∧
        (names ≠ [] → ∃ m, passes = 1 + m ∧ IsGreatest
          {k | ∃ v rest, g.UnresolvedWalk (v :: rest) ∧ ascents names (v :: rest) = k} m)) ∨
      ∃ stall net, g.resolveWidths names ⟨0, 0⟩ = (.error stall, net) ∧
        (¬ ∀ v ∈ names, g.Resolvable v) ∧
        stall.passes ≤ (names.length - stall.unresolved.length) + 1 ∧
        ∃ m, stall.passes = 1 + m ∧
          IsGreatest {k | k = 0 ∨ ∃ v, g.ResolvedIn names k v} m) := by
  have hstart := inferring_start hkeys hnames
  have hmem : ∀ v, v ∈ names ↔ g.Unresolved v := fun v => by
    rw [hnames.mem_iff, mem_unresolvedNames hkeys]
  refine ⟨⟨rfl, unresolvedNames_pairwise hkeys⟩,
    fun k v => resolvedIn_succ_iff hstart hmem, ?_⟩
  obtain ⟨m, fruitful, fruitless⟩ := g.exists_fruitless names
  obtain ⟨inferred, hrun⟩ := resolveWidths_eq_afterPasses fruitful
  obtain ⟨pending, -, -, hend, hresult⟩ := hstart.resolveWidths ⟨0, 0⟩
  have hfew := add_length_afterPasses_le fruitful
  -- the run makes the fruitful passes; it is complete if no name waits then, and stalls else
  by_cases hdone : (g.afterPasses names m).2 = []
  · rw [hdone, resolveWidths_nil] at hrun
    rw [hrun] at hresult
    rcases hresult with ⟨rfl, passes, hok⟩ | ⟨-, passes, herror⟩
    · obtain rfl : inferred = names.length := by
        injection hok with hok
        injection hok with hinferred
        rw [hinferred, Nat.zero_add]
      refine .inl ⟨m, _, hrun, fun v hv => ?_, by omega, fun hne => ?_⟩
      · by_contra hnot
        have hwaits : v ∈ (g.afterPasses names m).2 :=
          (mem_afterPasses_iff hstart hmem).mpr ⟨hv, fun hby => hnot hby.resolvable⟩
        exact List.not_mem_nil (hdone ▸ hwaits)
      · cases m with
        | zero => exact absurd hdone hne
        | succ m =>
            exact ⟨m, Nat.add_comm m 1,
              isGreatest_ascents hstart hmem hdone (fruitful m (Nat.lt_succ_self m))⟩
    · cases herror
  · rw [resolveWidths_of_not_lt hdone fruitless] at hrun
    rw [hrun] at hresult
    rcases hresult with ⟨-, passes, hok⟩ | ⟨hne, passes, herror⟩
    · cases hok
    · obtain rfl : (g.afterPasses names m).2 = pending := by
        injection herror with herror
        injection herror
      obtain ⟨v, hv⟩ := List.exists_mem_of_ne_nil _ hne
      have hname : v ∈ names := ((mem_afterPasses_iff hstart hmem).mp hv).1
      refine .inr ⟨_, _, hrun, fun hall => hend v hv (hall v hname), ?_, m, ?_,
        isGreatest_resolvedIn hstart hmem fruitful fruitless⟩
      · dsimp only
        omega
      · exact Nat.add_comm m 1

/-- Wires from `a` over `c`, `b` and `d` to an output, and one of them to itself as well if it is
`looped`. -/
def zigzag (looped : Bool) : Netlist Int :=
  let node (name : String) (kind : NodeKind) (width : Option UInt32) : Node Int :=
    ⟨name, kind, width, none, none, none, 0⟩
  { registry := .ofList [("a", node "a" .Wire none), ("b", node "b" .Wire none),
      ("c", node "c" .Wire (some 0)), ("d", node "d" .Wire none), ("q", node "q" .Output (some 8))]
    fanout := .ofList [("a", ["c"]), ("b", if looped then ["d", "b"] else ["d"]), ("c", ["b", "b"]),
      ("d", ["q"])] }

/-- The walk has two ascents in name order. With the loop only the last wire is resolved. -/
theorem passes_of_resolveWidths_zigzag :
    ((zigzag false).KeyedByName ∧ ["a", "b", "c", "d"].Perm (zigzag false).unresolvedNames ∧
      ∃ net, (zigzag false).resolveWidths ["a", "b", "c", "d"] ⟨0, 0⟩ = (.ok ⟨4, 3⟩, net) ∧
        IsGreatest {k | ∃ v rest, (zigzag false).UnresolvedWalk (v :: rest) ∧
          ascents ["a", "b", "c", "d"] (v :: rest) = k} 2) ∧
    (zigzag true).KeyedByName ∧ ["c", "d", "b", "a"].Perm (zigzag true).unresolvedNames ∧
      ∃ net, (zigzag true).resolveWidths ["c", "d", "b", "a"] ⟨0, 0⟩ =
          (.error ⟨["c", "b", "a"], 2⟩, net) ∧
        IsGreatest {k | k = 0 ∨ ∃ v, (zigzag true).ResolvedIn ["c", "d", "b", "a"] k v} 1 := by
  constructor
  · have hkeys : (zigzag false).KeyedByName := by decide +kernel
    have hnames : ["a", "b", "c", "d"].Perm (zigzag false).unresolvedNames := by decide +kernel
    have hrun : ((zigzag false).resolveWidths ["a", "b", "c", "d"] ⟨0, 0⟩).1 = .ok ⟨4, 3⟩ := by
      decide +kernel
    obtain ⟨-, -, hend⟩ := (zigzag false).passes_of_resolveWidths hkeys hnames
    rcases hend with ⟨passes, net, hok, -, -, hpasses⟩ | ⟨stall, net, herror, -⟩
    · rw [hok] at hrun
      cases hrun
      obtain ⟨m, hm, hgreatest⟩ := hpasses (by decide)
      obtain rfl : m = 2 := Nat.add_left_cancel hm.symm
      exact ⟨hkeys, hnames, net, hok, hgreatest⟩
    · rw [herror] at hrun
      cases hrun
  · have hkeys : (zigzag true).KeyedByName := by decide +kernel
    have hnames : ["c", "d", "b", "a"].Perm (zigzag true).unresolvedNames := by decide +kernel
    have hrun : ((zigzag true).resolveWidths ["c", "d", "b", "a"] ⟨0, 0⟩).1 =
        .error ⟨["c", "b", "a"], 2⟩ := by
      decide +kernel
    obtain ⟨-, -, hend⟩ := (zigzag true).passes_of_resolveWidths hkeys hnames
    rcases hend with ⟨passes, net, hok, -⟩ | ⟨stall, net, herror, -, -, m, hm, hgreatest⟩
    · rw [hok] at hrun
      cases hrun
    · rw [herror] at hrun
      cases hrun
      obtain rfl : m = 1 := Nat.add_left_cancel hm.symm
      exact ⟨hkeys, hnames, net, herror, hgreatest⟩

end Netlist

end Presynth
