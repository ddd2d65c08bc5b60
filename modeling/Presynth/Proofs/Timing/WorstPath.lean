import Mathlib.Algebra.Order.BigOperators.Group.List
import Mathlib.Algebra.Order.Group.Defs
import Mathlib.Algebra.Order.Ring.Rat
import Presynth.Proofs.Timing.Completeness
/-!
# The reported path is a worst one

With exact arithmetic, an arrival is never earlier than what any driver offered: offers only raise
it, and the arrival of a taken signal is final, since no edge to it is pending any more. Along a
walk to a settled signal, whose drivers are all taken, these inequalities add up to the total delay
of the walk.

Main statements: `Sweeping.onward_le` (no taken driver offers a later arrival), `Sweeping.sum_le`
(whole walks) and `Netlist.worst_path`.
-/

namespace Presynth

variable {α : Type} {n : Nat} [AddCommGroup α] [LinearOrder α] [IsOrderedAddMonoid α]

namespace TimingView

variable {view : TimingView α n} {start : Fin n} {d : α}

/-! ### Offers -/

/-- The later arrival is not earlier than the offered one, -/
theorem le_time_later (known : Option (Arrival α n)) (a : Arrival α n) (v : Fin n) (d : α) :
    a.time + d ≤ (later known a v d).time := by
  cases known with
  | none => exact le_rfl
  | some k =>
      unfold later
      dsimp only
      split
      · exact le_rfl
      · rename_i h
        exact le_sub_iff_add_le.mp (not_lt.mp h)

/-- nor than the known one. -/
theorem time_le_later (k a : Arrival α n) (v : Fin n) (d : α) :
    k.time ≤ (later (some k) a v d).time := by
  unfold later
  dsimp only
  split
  · rename_i h
    exact (sub_lt_iff_lt_add.mp h).le
  · exact le_rfl

/-- Expanding does not make any arrival earlier. -/
theorem expand_mono {vs : List (Fin n)} {f : Front α n} {a k : Arrival α n}
    (ok : (view.expand a vs f).1 = .ok ()) {v : Fin n} (hk : f.scratch.arrival? v = some k) :
    ∃ b, (view.expand a vs f).2.scratch.arrival? v = some b ∧ k.time ≤ b.time := by
  by_cases hv : v ∈ vs
  · obtain ⟨dv, hdv⟩ := delay_of_expand_ok ok hv
    rw [expand_arrival ok hdv, hk]
    induction vs.count v with
    | zero => exact ⟨k, rfl, le_rfl⟩
    | succ m ih =>
        obtain ⟨b, hb, hle⟩ := ih
        rw [Function.iterate_succ_apply', hb]
        exact ⟨_, rfl, hle.trans (time_le_later b a v dv)⟩
  · exact ⟨k, (expand_arrival_of_not_mem ok hv).trans hk, le_rfl⟩

/-- What is expanded to arrives no earlier than offered. -/
theorem le_expand {vs : List (Fin n)} {f : Front α n} {a : Arrival α n}
    (ok : (view.expand a vs f).1 = .ok ()) {v : Fin n} {dv : α} (hv : v ∈ vs)
    (hdv : view.delay v = .ok dv) :
    ∃ b, (view.expand a vs f).2.scratch.arrival? v = some b ∧ a.time + dv ≤ b.time := by
  obtain ⟨m, hm⟩ := Nat.exists_eq_succ_of_ne_zero (List.count_pos_iff.mpr hv).ne'
  rw [expand_arrival ok hdv, hm, Function.iterate_succ_apply']
  exact ⟨_, rfl, le_time_later _ a v dv⟩

/-! ### Final arrivals -/

/-- What the start feeds arrives no earlier than the launch offers. -/
theorem Sweeping.departure_le {done : List (Fin n)} {f : Front α n}
    (h : Sweeping view start d done f) {v : Fin n} {dv : α} (hf : view.Feeds start v)
    (hdv : view.delay v = .ok dv) :
    ∃ b, f.scratch.arrival? v = some b ∧ d + dv ≤ b.time := by
  induction h with
  | launch ok =>
      obtain ⟨b, hb, hle⟩ := le_expand ok hf hdv
      refine ⟨b, hb, ?_⟩
      rwa [departure, through, zero_add] at hle
  | take before next ok ih =>
      obtain ⟨k, hk, hle⟩ := ih
      obtain ⟨b, hb, hkb⟩ := expand_mono ok hk
      exact ⟨b, hb, hle.trans hkb⟩

/-- What a taken signal feeds arrives no earlier than that signal offers. -/
theorem Sweeping.onward_le {region done : List (Fin n)} {f : Front α n}
    (h : Sweeping view start d done f) (hr : view.IsRegion start region) {u v : Fin n} {dv : α}
    (hu : u ∈ done) (hv : v ∈ view.onward u) (hdv : view.delay v = .ok dv) :
    ∃ a b, f.scratch.arrival? u = some a ∧ f.scratch.arrival? v = some b ∧
      a.time + dv ≤ b.time := by
  induction h with
  | launch ok => exact absurd hu List.not_mem_nil
  | @take done f w ready before next ok ih =>
      have hs := before.swept hr
      -- the arrival of `u` is final already
      have hfinal : (view.take f w ready).2.scratch.arrival? u = f.scratch.arrival? u := by
        refine expand_arrival_of_not_mem ok (hs.not_mem_onward hr next ?_)
        rw [next, List.append_cons]
        exact List.mem_append_left _ hu
      rcases List.mem_append.mp hu with hu | hu
      · obtain ⟨a, k, ha, hk, hle⟩ := ih hu
        obtain ⟨b, hb, hkb⟩ := expand_mono ok hk
        exact ⟨a, b, hfinal.trans ha, hb, hle.trans hkb⟩
      · obtain rfl := List.mem_singleton.mp hu
        obtain ⟨a, ha⟩ := before.exists_arrival hr (v := u) (by simp [next])
        obtain ⟨b, hb, hle⟩ := le_expand ok hv hdv
        rw [arrivalOf_eq ha] at hle
        exact ⟨a, b, hfinal.trans ha, hb, hle⟩

/-- At the end of a sweep no walk to a settled signal takes longer than its arrival says. -/
theorem Sweeping.sum_le {done : List (Fin n)} {f : Front α n}
    (h : Sweeping view start d done f) (hend : f.ready = []) (hd : view.delay start = .ok d)
    {v : Fin n} {l : List (Fin n)} (w : view.Walk start l v) (hv : view.Settled start v) :
    ∃ (ds : List α) (a : Arrival α n), (start :: l ++ [v]).map view.delay = ds.map .ok ∧
      f.scratch.arrival? v = some a ∧ ds.sum ≤ a.time := by
  obtain ⟨region, hr⟩ := exists_isRegion view start
  have hdelay : ∀ u, view.Settled start u → ∃ du, view.delay u = .ok du := by
    intro u hu
    obtain ⟨a, ha⟩ := h.exists_arrival hr
      (List.mem_append_left _ ((h.mem_done_iff hr hend u).mpr hu))
    exact (h.arrives hr ha).delay
  obtain ⟨dv, hdv⟩ := hdelay v hv
  -- along the walk: the arrival of its last signal was offered to `v` when that was taken
  induction w using Walk.induction_on generalizing dv with
  | first v hf =>
      obtain ⟨a, ha, hle⟩ := h.departure_le hf hdv
      refine ⟨[d, dv], a, by simp [hd, hdv], ha, ?_⟩
      rwa [List.sum_cons, List.sum_singleton]
  | onward l u v w hu hf ih =>
      have hsu := hv.driver ⟨l, w⟩ hu hf
      obtain ⟨du, hdu⟩ := hdelay u hsu
      obtain ⟨ds, a, hds, ha, hle⟩ := ih hsu du hdu
      obtain ⟨a', b, ha', hb, hle'⟩ := h.onward_le hr ((h.mem_done_iff hr hend u).mpr hsu)
        (view.mem_onward.mpr ⟨hu, hf⟩) hdv
      obtain rfl : a = a' := Option.some.inj (ha.symm.trans ha')
      refine ⟨ds ++ [dv], b, ?_, hb, ?_⟩
      · rw [← List.cons_append, List.map_append, hds, List.map_append]
        simp [hdv]
      · rw [List.sum_append, List.sum_singleton]
        exact (add_le_add_left hle dv).trans hle'

end TimingView

/-- A reported path takes at least as long as every walk between the same ends. -/
theorem Netlist.worst_path (g : Netlist α) {marks : Scratch α g.internedSize}
    (hmarks : g.timingView.Leftover marks) {start : Fin g.internedSize}
    {paths : List (TimingPath α)} (ok : (g.timingView.analyzeFrom marks start).1 = .ok paths)
    {path : TimingPath α} (hpath : path ∈ paths) {e : String} (hend : path.nodes.getLast? = some e)
    {between : List String} (walk : g.Walk (g.timingView.name start) between e) :
    ∃ ds : List α, (g.timingView.name start :: between ++ [e]).map g.delay? = ds.map some ∧
      ds.sum ≤ path.delay := by
  have htidy := hmarks.tidy
  have hstart : g.timingView.isStartpoint start = true := by
    by_contra hnot
    rw [TimingView.analyzeFrom_of_not_startpoint htidy hnot] at ok
    cases ok
    exact absurd hpath List.not_mem_nil
  obtain ⟨d, done, f, hd, hsweep, hready, rfl⟩ :=
    TimingView.exists_sweep_of_analyzeFrom htidy hstart ok
  obtain ⟨v, hv, rfl⟩ := List.mem_map.mp hpath
  obtain ⟨a, ha, harr⟩ := hsweep.exists_arrives_of_reached hv
  rw [TimingView.arrivalOf_eq ha] at hend ⊢
  have hlast : (g.timingView.pathOf start v a).nodes.getLast? = some (g.timingView.name v) :=
    congrArg Prod.snd (harr.ends_pathOf hd)
  obtain ⟨l, e', rfl, rfl, w⟩ := exists_walk_of_name walk
  obtain rfl : v = e' := g.name_timingView_inj (Option.some.inj (hlast.symm.trans hend))
  -- no walk to a settled signal arrives later than the arrival that is kept
  obtain ⟨ds, a', hds, ha', hle⟩ :=
    hsweep.sum_le hready hd w ((hsweep.reached_of_ended hready).2 v |>.mp hv).2
  obtain rfl : a = a' := Option.some.inj (ha.symm.trans ha')
  refine ⟨ds, ?_, hle⟩
  have hnames := map_delay?_name hds
  rwa [List.map_append, List.map_cons] at hnames

/-- An input that drives an output through a gate and a slower one. -/
def Netlist.reconvergent : Netlist ℚ :=
  let node (name : String) (kind : NodeKind) (delay : ℚ) : Node ℚ :=
    ⟨name, kind, none, none, some delay, none, 0⟩
  let g := [node "a" .Input (1 / 2), node "x" .Operator 2, node "y" .Operator 5,
    node "o" .Output 0].foldl register .empty
  [("a", "x"), ("a", "y"), ("x", "o"), ("y", "o")].foldl (fun g edge => g.connect edge.1 edge.2) g

/-- Two ways lead from the register to the output, and the longer one is reported. -/
theorem Netlist.worst_path_reconvergent :
    ∃ (a : Fin reconvergent.internedSize) (path : TimingPath ℚ),
      (reconvergent.timingView.analyzeFrom .fresh a).1 = .ok [path] ∧
        path.nodes = ["a", "y", "o"] ∧
        reconvergent.Walk (reconvergent.timingView.name a) ["x"] "o" ∧
        ∃ ds : List ℚ, (reconvergent.timingView.name a :: ["x"] ++ ["o"]).map
          reconvergent.delay? = ds.map some ∧ ds.sum ≤ path.delay := by
  have ok : (reconvergent.timingView.analyzeFrom .fresh ⟨0, by decide +kernel⟩).1 =
      .ok [⟨"a", "o", ["a", "y", "o"], 11 / 2, .InToOut⟩] := by decide +kernel
  have walk : reconvergent.Walk (reconvergent.timingView.name ⟨0, by decide +kernel⟩) ["x"]
      "o" := by
    decide +kernel
  exact ⟨_, _, ok, rfl, walk, reconvergent.worst_path .fresh ok List.mem_cons_self rfl walk⟩

end Presynth
