import Mathlib.Algebra.BigOperators.Group.Finset.Basic
import Mathlib.Algebra.GroupWithZero.Nat
import Mathlib.Algebra.Ring.Int.Defs
import Presynth.Proofs.Timing.CheckedQuery
/-!
# What collecting a region leaves

Collecting the region of a signal writes three things: which signals are in the region, which places
were touched, and how many edges to each signal are pending. On marks that were cleared, all three
are determined by the netlist alone. A place is recorded at the moment at which it enters the
region, so the record is the region and repeats nothing (`Scratch.Recorded`). The list of the start
is counted for the launch, and once more if walks come back to the start and pass it.

Main statements: `collectRegion_recorded` (the record of a collected region),
`IsRegion.pending_eq` (the edges into a signal, list by list) and `Netlist.collectRegion_exact`.
-/

namespace Presynth

variable {α : Type} {n : Nat}

/-! ### The record of the region -/

namespace Scratch

variable {s : Scratch α n}

/-- The places recorded as touched are those in the region, each recorded once. -/
structure Recorded (s : Scratch α n) : Prop where
  nodup : s.touched.Nodup
  mem_iff : ∀ p, p ∈ s.touched ↔ (s.get p).inRegion = true

theorem recorded_fresh : (fresh : Scratch α n).Recorded := by
  refine ⟨List.nodup_nil, fun p => ?_⟩
  rw [get_fresh]
  simp [fresh, Mark.fresh]

/-- Taking a place into the region records it, unless it is there already. -/
theorem Recorded.touch (h : s.Recorded) (p : Place n) : (s.touch p).Recorded := by
  by_cases hp : (s.get p).inRegion = true
  · rwa [Scratch.touch, if_pos hp]
  · have htouched : (s.touch p).touched = p :: s.touched := by
      rw [Scratch.touch, if_neg hp]
    refine ⟨?_, fun q => ?_⟩
    · rw [htouched, List.nodup_cons]
      exact ⟨fun hmem => hp ((h.mem_iff p).mp hmem), h.nodup⟩
    · rw [htouched, List.mem_cons, h.mem_iff, get_touch]
      by_cases hpq : p = q
      · simp [hpq]
      · simp [hpq, Ne.symm hpq]

theorem Recorded.countEdge (h : s.Recorded) (u : Fin n) : (s.countEdge u).Recorded := by
  refine ⟨by rw [touched_countEdge]; exact h.nodup, fun p => ?_⟩
  rw [touched_countEdge, h.mem_iff, Scratch.countEdge, get_modify]
  split
  · rename_i hp
    rw [hp]
  · rfl

end Scratch

namespace TimingView

variable {view : TimingView α n} {start : Fin n}

/-- A signal is recorded when it is met first, and not again. -/
theorem countEdges_recorded {vs : List (Fin n)} {s : Scratch α n} {stack : List (Fin n)}
    (h : s.Recorded) : (countEdges vs s stack).1.Recorded := by
  induction vs generalizing s stack with
  | nil => exact h
  | cons u vs ih =>
      rw [countEdges_cons]
      split
      · exact ih (h.countEdge u)
      · exact ih ((h.countEdge u).touch (.signal u))

theorem Searching.recorded {seen stack : List (Fin n)} {s : Scratch α n}
    (h : Searching view start seen s stack) : s.Recorded := by
  induction h with
  | begin => exact countEdges_recorded (Scratch.recorded_fresh.touch .launch)
  | visit _ ih => exact countEdges_recorded ih

variable (view start) in
/-- The record of a collected region lists the region and the launch, each place once. -/
theorem collectRegion_recorded : (view.collectRegion (.fresh : Scratch α n) start).Recorded := by
  obtain ⟨seen, stack, hrun, -⟩ := (Searching.begin : Searching view start [] _ _).run n
  exact hrun.recorded

theorem IsRegion.mem_touched_iff {region : List (Fin n)} (hr : view.IsRegion start region)
    (p : Place n) :
    p ∈ (view.collectRegion (.fresh : Scratch α n) start).touched ↔
      p = .launch ∨ ∃ v, p = .signal v ∧ v ∈ region := by
  cases p with
  | launch => simp [hr.launch]
  | signal v =>
      rw [(collectRegion_recorded view start).mem_iff, ← Scratch.inRegion_eq, hr.inRegion]
      simp

/-! ### The edges into a signal -/

/-- The pending edges to a signal are those from the list of the start and those from the lists that
walks go on to. -/
theorem IsRegion.pending_eq {region : List (Fin n)} (hr : view.IsRegion start region)
    (v : Fin n) :
    (view.collectRegion (.fresh : Scratch α n) start).pending v =
      (view.fanout start).count v + (region.map fun u => (view.onward u).count v).sum := by
  rw [hr.pending, List.count_append, List.count_flatMap]
  rfl

end TimingView

namespace Netlist

variable (g : Netlist α)

/-- The number of a signal occurs in a fanout list as often as its name does. -/
theorem count_fanout_timingView (u v : Fin g.internedSize) :
    (g.timingView.fanout u).count v =
      (g.neighbors (g.timingView.name u)).count (g.timingView.name v) := by
  rw [← g.map_fanout_timingView, List.count_map_of_injective _ _ fun _ _ => g.name_timingView_inj]

/-- An endpoint sends nothing onward, whatever its list names. -/
theorem count_onward_timingView (u v : Fin g.internedSize) :
    (g.timingView.onward u).count v =
      if ¬ g.IsEndpoint (g.timingView.name u) then
        (g.neighbors (g.timingView.name u)).count (g.timingView.name v)
      else 0 := by
  by_cases hu : g.timingView.Stops u
  · rw [g.timingView.onward_of_stops hu, if_neg (not_not_intro ((stops_iff u).mp hu)),
      List.count_nil]
  · rw [g.timingView.onward_of_not_stops hu, if_pos ((stops_iff u).not.mp hu),
      count_fanout_timingView]

/-- The names of the signals in a region, with the edges that lead from them to a signal. -/
theorem sum_count_onward {region : List (Fin g.internedSize)} (hnodup : region.Nodup)
    (v : Fin g.internedSize) :
    (region.map fun u => (g.timingView.onward u).count v).sum =
      ∑ u ∈ (region.map g.timingView.name).toFinset with ¬ g.IsEndpoint u,
        (g.neighbors u).count (g.timingView.name v) := by
  have hnames : (region.map g.timingView.name).Nodup :=
    hnodup.map fun _ _ => g.name_timingView_inj
  rw [Finset.sum_filter, List.sum_toFinset _ hnames, List.map_map]
  exact congrArg List.sum (List.map_congr_left fun u _ => g.count_onward_timingView u v)

/-- Collecting a region on marks that were cleared takes in what walks from the start reach and no
other signal, records these and the launch, each once, and counts for every signal the entries that
name it: in the list of the start, for the launch, and in the lists of all signals of the region
that are no endpoints. If walks come back to the start and pass it, its list is among these
again. -/
theorem collectRegion_exact [Zero α] [Add α] [Sub α] [LT α] [DecidableLT α]
    {marks : Scratch α g.internedSize} (hmarks : g.timingView.Leftover marks)
    (start : Fin g.internedSize) :
    let name := g.timingView.name
    let collected := g.timingView.collectRegion marks.reset start
    ∃ region : Finset String,
      (∀ u, u ∈ region ↔ g.Reaches (name start) u) ∧
      (∀ v, collected.inRegion v = true ↔ name v ∈ region) ∧
      collected.touched.Nodup ∧
      (∀ p, p ∈ collected.touched ↔ p = .launch ∨ ∃ v, p = .signal v ∧ name v ∈ region) ∧
      ∀ v, collected.pending v = (g.neighbors (name start)).count (name v) +
        ∑ u ∈ region with ¬ g.IsEndpoint u, (g.neighbors u).count (name v) := by
  intro name collected
  have hcollected : collected = g.timingView.collectRegion .fresh start := by
    rw [← hmarks.tidy.reset_eq]
  obtain ⟨region, hr⟩ := TimingView.exists_isRegion g.timingView start
  -- names stand for signals one to one, so the region may be listed by names
  have hname : ∀ v, name v ∈ (region.map name).toFinset ↔ v ∈ region := fun v => by
    rw [List.mem_toFinset, List.mem_map_of_injective fun _ _ => g.name_timingView_inj]
  rw [hcollected]
  refine ⟨(region.map name).toFinset, fun u => ?_, fun v => ?_, ?_, fun p => ?_, fun v => ?_⟩
  · rw [List.mem_toFinset, List.mem_map, reaches_iff_exists]
    exact exists_congr fun v => by rw [hr.mem_iff, and_comm]
  · rw [hr.inRegion, hname]
  · exact (TimingView.collectRegion_recorded g.timingView start).nodup
  · rw [hr.mem_touched_iff]
    simp only [hname]
  · rw [hr.pending_eq, g.count_fanout_timingView, g.sum_count_onward hr.nodup]

/-- After a query from the register, the region of the input is collected. The gate feeds the input
back, so the two edges from the input to the gate are counted twice. -/
theorem collectRegion_exact_tangled :
    ∃ (gate input register : Fin tangled.internedSize) (region : Finset String),
      let name := tangled.timingView.name
      let marks := (tangled.timingView.analyzeFrom .fresh register).2
      let collected := tangled.timingView.collectRegion marks.reset input
      name gate = "g" ∧ name input = "i" ∧ name register = "r" ∧
        tangled.timingView.Leftover marks ∧ marks.touched ≠ [] ∧
        (∀ u, u ∈ region ↔ tangled.Reaches "i" u) ∧ "i" ∈ region ∧ "x" ∉ region ∧
        collected.touched.Nodup ∧
        collected.pending gate = (tangled.neighbors "i").count "g" +
          ∑ u ∈ region with ¬ tangled.IsEndpoint u, (tangled.neighbors u).count "g" ∧
        (tangled.neighbors "i").count "g" = 2 ∧ collected.pending gate = 4 := by
  let gate : Fin tangled.internedSize := ⟨0, by decide +kernel⟩
  let input : Fin tangled.internedSize := ⟨1, by decide +kernel⟩
  let register : Fin tangled.internedSize := ⟨3, by decide +kernel⟩
  have hmarks : tangled.timingView.Leftover (tangled.timingView.analyzeFrom .fresh register).2 :=
    .analyzeFrom .fresh register
  obtain ⟨region, hregion, hin, hnodup, -, hpending⟩ := tangled.collectRegion_exact hmarks input
  have hgate : tangled.timingView.name gate = "g" := by decide +kernel
  have hinput : tangled.timingView.name input = "i" := by decide +kernel
  have hother : tangled.timingView.name ⟨4, by decide +kernel⟩ = "x" := by decide +kernel
  have hsum := hpending gate
  rw [hinput] at hregion
  rw [hinput, hgate] at hsum
  refine ⟨gate, input, register, region, hgate, hinput, by decide +kernel, hmarks,
    by decide +kernel, hregion, ?_, ?_, hnodup, hsum, by decide +kernel, by decide +kernel⟩
  · rw [← hinput, ← hin]
    decide +kernel
  · rw [← hother, ← hin]
    decide +kernel

end Netlist

end Presynth
