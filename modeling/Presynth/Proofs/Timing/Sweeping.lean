import Presynth.Proofs.Timing.Front
import Presynth.Proofs.Timing.Region
/-!
# The order of a sweep

A sweep takes ready signals in order. It is described as a relation `Sweeping` between the signals
taken so far and the front, with one constructor for the launch and one for each taken signal; all
facts about sweeps are inductions over it.

The invariant `Swept` ties the pending edges to the region: what is pending are the edges of the
signals of the region that were not taken yet. So the signals that are taken or ready are those
without pending edges, and a signal is ready only when all its drivers were taken.

Main statements: `Sweeping.run` (the program goes through the states of the relation),
`Sweeping.swept` (the invariant) and `Sweeping.mem_done_iff` (at the end the taken signals are the
settled ones).
-/

namespace Presynth

variable {α : Type} {n : Nat}

namespace TimingView

variable {view : TimingView α n} {start : Fin n}

/-! ### Pending edges -/

/-- What holds in every state of a sweep through `region`. -/
structure Swept (view : TimingView α n) (start : Fin n) (region done : List (Fin n))
    (f : Front α n) : Prop where
  /-- No signal becomes ready twice. -/
  nodup : (done ++ f.ready).Nodup
  /-- An edge of the region is pending until its driver is taken. -/
  pending : ∀ v, f.scratch.pending v + (done.flatMap view.onward).count v =
    (region.flatMap view.onward).count v
  /-- The signals of the region without pending edges are taken or ready. -/
  mem_iff : ∀ v, v ∈ done ++ f.ready ↔ v ∈ region ∧ f.scratch.pending v = 0
  /-- The endpoints among the taken signals are reached, in order. -/
  reached : f.reached = done.filter view.isEndpoint

/-- A part of the region and the rest of it. -/
theorem IsRegion.exists_rest {region done : List (Fin n)} (hr : view.IsRegion start region)
    (hnodup : done.Nodup) (hsub : done ⊆ region) :
    ∃ rest, region.Perm (done ++ rest) ∧ ∀ u ∈ rest, u ∈ region ∧ u ∉ done := by
  obtain ⟨l, hl, hsl⟩ := List.subperm_of_subset hnodup hsub
  obtain ⟨rest, hrest⟩ := hsl.exists_perm_append
  have hperm : region.Perm (done ++ rest) := hrest.trans (hl.append_right rest)
  have hnd := hperm.nodup_iff.mp hr.nodup
  refine ⟨rest, hperm, fun u hu => ⟨hperm.mem_iff.mpr (List.mem_append_right _ hu), fun hd => ?_⟩⟩
  exact (List.nodup_append.mp hnd).2.2 u hd u hu rfl

/-- The edges of the region are those of a part of it and those of the rest. -/
theorem count_flatMap_of_perm {region done rest : List (Fin n)} (h : region.Perm (done ++ rest))
    (g : Fin n → List (Fin n)) (v : Fin n) :
    (region.flatMap g).count v = (done.flatMap g).count v + (rest.flatMap g).count v := by
  rw [(h.flatMap_right g).count_eq v, List.flatMap_append, List.count_append]

theorem Swept.subset {region done : List (Fin n)} {f : Front α n}
    (h : Swept view start region done f) : done ++ f.ready ⊆ region :=
  fun v hv => ((h.mem_iff v).mp hv).1

/-- The drivers of a signal that is taken or ready were taken. -/
theorem Swept.driver_mem {region done : List (Fin n)} {f : Front α n}
    (h : Swept view start region done f) (hr : view.IsRegion start region) {u v : Fin n}
    (hv : v ∈ done ++ f.ready) (hu : view.Reaches start u) (hs : ¬ view.Stops u)
    (hf : view.Feeds u v) : u ∈ done := by
  obtain ⟨rest, hperm, hrest⟩ := hr.exists_rest (List.nodup_append.mp h.nodup).1
    fun w hw => h.subset (List.mem_append_left _ hw)
  by_contra hnot
  have hmem : u ∈ rest :=
    (List.mem_append.mp (hperm.mem_iff.mp ((hr.mem_iff u).mpr hu))).resolve_left hnot
  -- an edge of a signal that was not taken is pending
  have hedge : v ∈ rest.flatMap view.onward :=
    List.mem_flatMap.mpr ⟨u, hmem, view.mem_onward.mpr ⟨hs, hf⟩⟩
  have hpos := List.count_pos_iff.mpr hedge
  have hpend := h.pending v
  have hzero := ((h.mem_iff v).mp hv).2
  rw [count_flatMap_of_perm hperm view.onward v] at hpend
  omega

/-- The edges of a ready signal are pending. -/
theorem Swept.count_onward_le {region done : List (Fin n)} {f : Front α n} {u : Fin n}
    {ready : List (Fin n)} (h : Swept view start region done f)
    (hr : view.IsRegion start region) (next : f.ready = u :: ready) (v : Fin n) :
    (view.onward u).count v ≤ f.scratch.pending v := by
  have happ : done ++ f.ready = (done ++ [u]) ++ ready := by simp [next]
  have hnodup := happ ▸ h.nodup
  obtain ⟨rest, hperm, -⟩ := hr.exists_rest (List.nodup_append.mp hnodup).1
    fun w hw => h.subset (happ ▸ List.mem_append_left ready hw)
  have hpend := h.pending v
  rw [count_flatMap_of_perm hperm view.onward v, List.flatMap_append, List.count_append] at hpend
  simp only [List.flatMap_cons, List.flatMap_nil, List.append_nil] at hpend
  omega

/-- Nothing is offered any more to what is taken or ready. -/
theorem Swept.not_mem_onward {region done ready : List (Fin n)} {f : Front α n} {u v : Fin n}
    (h : Swept view start region done f) (hr : view.IsRegion start region)
    (next : f.ready = u :: ready) (hv : v ∈ done ++ f.ready) : v ∉ view.onward u := by
  intro hedge
  have hpos := List.count_pos_iff.mpr hedge
  have hle := h.count_onward_le hr next v
  have hzero := ((h.mem_iff v).mp hv).2
  omega

section Runs

/-! ### The states of a sweep -/

variable [Zero α] [Add α] [Sub α] [LT α] [DecidableLT α] {d : α}

/-- The arrival that leaves the launch of `start`, whose delay is `d`. -/
def departure (start : Fin n) (d : α) : Arrival α n := through ⟨0, []⟩ start d

/-- The marks when `start` has been launched. -/
def launched (view : TimingView α n) (start : Fin n) (d : α) : Scratch α n :=
  ((view.collectRegion .fresh start).setArrival .launch ⟨0, []⟩).setArrival .launch
    (departure start d)

/-- Launching `start`: its departure goes on along its edges. -/
def launch (view : TimingView α n) (start : Fin n) (d : α) :
    Except (TimingError α) Unit × Front α n :=
  view.expand (departure start d) (view.fanout start) ⟨view.launched start d, [], []⟩

/-- The arrival of a ready signal. -/
def arrivalOf (f : Front α n) (u : Fin n) : Arrival α n := (f.scratch.arrival? u).getD ⟨0, []⟩

/-- The front without its first ready signal `u`, which is reached if it is an endpoint. -/
def taken (view : TimingView α n) (f : Front α n) (u : Fin n) (ready : List (Fin n)) :
    Front α n :=
  { f with ready := ready, reached := if view.isEndpoint u then f.reached ++ [u] else f.reached }

/-- Taking a ready signal: its arrival goes on along the edges that paths follow. -/
def take (view : TimingView α n) (f : Front α n) (u : Fin n) (ready : List (Fin n)) :
    Except (TimingError α) Unit × Front α n :=
  view.expand (arrivalOf f u) (view.onward u) (view.taken f u ready)

/-- The states of the sweep from `start`, whose delay is `d`: the signals taken so far and the
front. -/
inductive Sweeping (view : TimingView α n) (start : Fin n) (d : α) :
    List (Fin n) → Front α n → Prop where
  /-- The launch goes on along the edges of the start. -/
  | launch (ok : (view.launch start d).1 = .ok ()) :
      Sweeping view start d [] (view.launch start d).2
  /-- The first ready signal is taken. -/
  | take {done : List (Fin n)} {f : Front α n} {u : Fin n} {ready : List (Fin n)}
      (before : Sweeping view start d done f) (next : f.ready = u :: ready)
      (ok : (view.take f u ready).1 = .ok ()) :
      Sweeping view start d (done ++ [u]) (view.take f u ready).2

theorem sweep_of_ready_nil {f : Front α n} (h : f.ready = []) (steps : Nat) :
    view.sweep steps f = (.ok (), f) := by
  cases steps with
  | zero => rfl
  | succ steps => rw [sweep, h]

theorem take_of_stops {f : Front α n} {u : Fin n} (hu : view.isEndpoint u = true)
    (ready : List (Fin n)) :
    view.take f u ready = (.ok (), { f with ready := ready, reached := f.reached ++ [u] }) := by
  unfold take taken
  rw [view.onward_of_stops hu, if_pos hu]
  rfl

theorem take_of_not_stops {f : Front α n} {u : Fin n} (hu : ¬ view.isEndpoint u = true)
    (ready : List (Fin n)) :
    view.take f u ready =
      view.expand (arrivalOf f u) (view.fanout u) { f with ready := ready } := by
  unfold take taken
  rw [view.onward_of_not_stops hu, if_neg hu]

theorem sweep_succ_of_ok {f : Front α n} {u : Fin n} {ready : List (Fin n)}
    (h : f.ready = u :: ready) (ok : (view.take f u ready).1 = .ok ()) (steps : Nat) :
    view.sweep (steps + 1) f = view.sweep steps (view.take f u ready).2 := by
  rw [sweep, h]
  by_cases hu : view.isEndpoint u = true
  · rw [take_of_stops hu]
    exact if_pos hu
  · rw [take_of_not_stops hu] at ok ⊢
    refine (if_neg hu).trans ?_
    split
    · rename_i e f' hexpand
      exact absurd (ok.symm.trans (congrArg Prod.fst hexpand)) (by simp)
    · rename_i f' hexpand
      exact congrArg (fun r => view.sweep steps r.2) hexpand.symm

theorem sweep_succ_of_error {f : Front α n} {u : Fin n} {ready : List (Fin n)}
    {e : TimingError α} (h : f.ready = u :: ready) (he : (view.take f u ready).1 = .error e)
    (steps : Nat) : view.sweep (steps + 1) f = (.error e, (view.take f u ready).2) := by
  rw [sweep, h]
  by_cases hu : view.isEndpoint u = true
  · rw [take_of_stops hu] at he
    cases he
  · rw [take_of_not_stops hu] at he ⊢
    refine (if_neg hu).trans ?_
    split
    · rename_i e' f' hexpand
      obtain rfl : e = e' := Except.error.inj (he.symm.trans (congrArg Prod.fst hexpand))
      exact congrArg (fun r => (Except.error e, r.2)) hexpand.symm
    · rename_i f' hexpand
      exact absurd (he.symm.trans (congrArg Prod.fst hexpand)) (by simp)

/-- The program goes through the states of the sweep. It ends when no signal is ready or the steps
are used up, or fails on taking a signal. -/
theorem Sweeping.run {done : List (Fin n)} {f : Front α n}
    (h : Sweeping view start d done f) (steps : Nat) :
    ∃ done' f', Sweeping view start d done' f' ∧
      ((view.sweep steps f = (.ok (), f') ∧
          (f'.ready = [] ∨ done'.length = done.length + steps)) ∨
        ∃ u ready e, f'.ready = u :: ready ∧ (view.take f' u ready).1 = .error e ∧
          view.sweep steps f = (.error e, (view.take f' u ready).2)) := by
  -- on the steps; whatever was taken so far, one step is taking the first ready signal
  induction steps generalizing done f with
  | zero => exact ⟨done, f, h, Or.inl ⟨rfl, Or.inr rfl⟩⟩
  | succ steps ih =>
      cases hready : f.ready with
      | nil => exact ⟨done, f, h, Or.inl ⟨sweep_of_ready_nil hready _, Or.inl hready⟩⟩
      | cons u ready =>
          cases htake : (view.take f u ready).1 with
          | error e =>
              refine ⟨done, f, h, Or.inr ⟨u, ready, e, hready, htake, ?_⟩⟩
              rw [sweep_succ_of_error hready htake]
          | ok _ =>
              obtain ⟨done', f', h', hend⟩ := ih (h.take hready htake)
              rw [sweep_succ_of_ok hready htake]
              refine ⟨done', f', h', hend.imp_left fun hok => ⟨hok.1, ?_⟩⟩
              refine hok.2.imp_right fun hlen => ?_
              rw [hlen, List.length_append, List.length_singleton]
              omega

/-! ### The invariant holds -/

/-- After the launch the counts are those of the region without the list of the start, whose edges
were followed. -/
theorem swept_launch {region : List (Fin n)} (hr : view.IsRegion start region)
    (ok : (view.launch start d).1 = .ok ()) :
    Swept view start region [] (view.launch start d).2 := by
  -- the collection counts the list of the start for the launch, and once more within the region
  -- where paths lead back through it
  have hcount : ∀ v, (view.launched start d).pending v =
      (view.fanout start).count v + (region.flatMap view.onward).count v := by
    intro v
    rw [launched, Scratch.pending_setArrival, Scratch.pending_setArrival, hr.pending,
      List.count_append]
  have hpending : ∀ v, (view.launch start d).2.scratch.pending v =
      (region.flatMap view.onward).count v := by
    intro v
    rw [TimingView.launch, expand_pending ok, hcount]
    omega
  have hle : ∀ v, (view.fanout start).count v ≤ (view.launched start d).pending v := by
    intro v
    rw [hcount]
    omega
  obtain ⟨new, hready, hnodup, hmem⟩ := expand_ready ok hle
  replace hready : (view.launch start d).2.ready = new := hready
  refine ⟨?_, ?_, ?_, ?_⟩
  · simpa [hready] using hnodup
  · intro v
    simp [hpending]
  · intro v
    rw [hready, List.nil_append, hmem, hcount, hpending, hr.mem_iff]
    constructor
    · intro h
      exact ⟨Reaches.of_feeds h.1, by omega⟩
    · intro h
      refine ⟨?_, by omega⟩
      rcases reaches_iff_last.mp h.1 with hf | ⟨u, hu, hs, hf⟩
      · exact hf
      · -- an edge from within the region would be pending
        have hedge : v ∈ region.flatMap view.onward :=
          List.mem_flatMap.mpr ⟨u, (hr.mem_iff u).mpr hu, view.mem_onward.mpr ⟨hs, hf⟩⟩
        exact absurd h.2 (List.count_pos_iff.mpr hedge).ne'
  · rw [TimingView.launch, expand_reached ok]
    rfl

omit [Zero α] in
/-- While the edges of a signal are followed, any number of them, no signal becomes ready twice. -/
theorem Swept.nodup_expand {region done ready vs : List (Fin n)} {f : Front α n} {u : Fin n}
    {a : Arrival α n} (h : Swept view start region done f) (hr : view.IsRegion start region)
    (next : f.ready = u :: ready) (hvs : vs <+: view.onward u)
    (ok : (view.expand a vs (view.taken f u ready)).1 = .ok ()) :
    (done ++ [u] ++ (view.expand a vs (view.taken f u ready)).2.ready).Nodup ∧
      done ++ [u] ++ (view.expand a vs (view.taken f u ready)).2.ready ⊆ region := by
  have happ : done ++ f.ready = (done ++ [u]) ++ ready := by simp [next]
  have hle : ∀ v, vs.count v ≤ f.scratch.pending v := fun v =>
    (hvs.sublist.count_le v).trans (h.count_onward_le hr next v)
  obtain ⟨new, hready, hnodup, hmem⟩ := expand_ready ok hle
  replace hready : (view.expand a vs (view.taken f u ready)).2.ready = ready ++ new := hready
  replace hmem : ∀ v, v ∈ new ↔ v ∈ vs ∧ f.scratch.pending v = vs.count v := hmem
  -- `u` moves from the ready signals to the taken ones, so only what becomes ready is new
  rw [hready, ← List.append_assoc, ← happ]
  refine ⟨List.nodup_append.mpr ⟨h.nodup, hnodup, fun v hv w hw hvw => ?_⟩, fun v hv => ?_⟩
  · -- what becomes ready had pending edges until now
    subst hvw
    obtain ⟨hedge, hcount⟩ := (hmem v).mp hw
    have hpos := List.count_pos_iff.mpr hedge
    have hzero := ((h.mem_iff v).mp hv).2
    omega
  · rcases List.mem_append.mp hv with hv | hv
    · exact h.subset hv
    · obtain ⟨pass, edge⟩ := view.mem_onward.mp (hvs.subset ((hmem v).mp hv).1)
      have hu : view.Reaches start u := (hr.mem_iff u).mp (h.subset (by simp [next]))
      exact (hr.mem_iff v).mpr (hu.onward pass edge)

/-- So it is when a signal is taken, also if taking it fails midway. -/
theorem Swept.nodup_take {region done ready : List (Fin n)} {f : Front α n} {u : Fin n}
    (h : Swept view start region done f) (hr : view.IsRegion start region)
    (next : f.ready = u :: ready) :
    (done ++ [u] ++ (view.take f u ready).2.ready).Nodup ∧
      done ++ [u] ++ (view.take f u ready).2.ready ⊆ region := by
  cases htake : (view.take f u ready).1 with
  | ok _ => exact h.nodup_expand hr next (List.prefix_refl _) htake
  | error e =>
      obtain ⟨vs, hvs, hok, hsame⟩ := exists_prefix_of_expand_error htake
      rw [TimingView.take, hsame]
      exact h.nodup_expand hr next hvs hok

/-- A signal is taken: its edges are followed, and the signals for which no edge is left become
ready. They were not ready before, since this edge was still to be followed. -/
theorem Swept.take {region done : List (Fin n)} {f : Front α n} {u : Fin n}
    {ready : List (Fin n)} (h : Swept view start region done f)
    (hr : view.IsRegion start region) (next : f.ready = u :: ready)
    (ok : (view.take f u ready).1 = .ok ()) :
    Swept view start region (done ++ [u]) (view.take f u ready).2 := by
  have happ : done ++ f.ready = (done ++ [u]) ++ ready := by simp [next]
  have hle := h.count_onward_le hr next
  -- only the edges of `u` are followed, and all of them were pending
  have hpending : ∀ v, (view.take f u ready).2.scratch.pending v + (view.onward u).count v =
      f.scratch.pending v := by
    intro v
    have hv := hle v
    rw [TimingView.take, expand_pending ok]
    simp only [taken]
    omega
  obtain ⟨new, hready, -, hmem⟩ := expand_ready ok hle
  replace hready : (view.take f u ready).2.ready = ready ++ new := hready
  replace hmem : ∀ v, v ∈ new ↔ v ∈ view.onward u ∧ f.scratch.pending v = (view.onward u).count v :=
    hmem
  refine ⟨(h.nodup_take hr next).1, ?_, ?_, ?_⟩
  · intro v
    have hv := h.pending v
    have hv' := hpending v
    rw [List.flatMap_append, List.count_append]
    simp only [List.flatMap_cons, List.flatMap_nil, List.append_nil]
    omega
  · intro v
    have hv := hpending v
    -- either no edge was pending before, or the last ones were those of `u`
    rw [hready, ← List.append_assoc, ← happ, List.mem_append, h.mem_iff, hmem]
    constructor
    · intro hcases
      rcases hcases with ⟨hin, hzero⟩ | ⟨hedge, hcount⟩
      · exact ⟨hin, by omega⟩
      · have hu : view.Reaches start u :=
          (hr.mem_iff u).mp (h.subset (by simp [next]))
        obtain ⟨hs, hf⟩ := view.mem_onward.mp hedge
        exact ⟨(hr.mem_iff v).mpr (hu.onward hs hf), by omega⟩
    · intro hcases
      obtain ⟨hin, hzero⟩ := hcases
      by_cases hedge : v ∈ view.onward u
      · exact Or.inr ⟨hedge, by omega⟩
      · have hnone := List.count_eq_zero.mpr hedge
        exact Or.inl ⟨hin, by omega⟩
  · rw [TimingView.take, expand_reached ok, List.filter_append, ← h.reached]
    by_cases hu : view.isEndpoint u = true
    · simp [taken, hu]
    · simp [taken, hu]

theorem Sweeping.swept {region done : List (Fin n)} {f : Front α n}
    (h : Sweeping view start d done f) (hr : view.IsRegion start region) :
    Swept view start region done f := by
  induction h with
  | launch ok => exact swept_launch hr ok
  | take _ next ok ih => exact ih.take hr next ok

/-- Only settled signals are taken or become ready. -/
theorem Sweeping.settled {region done : List (Fin n)} {f : Front α n}
    (h : Sweeping view start d done f) (hr : view.IsRegion start region) :
    ∀ v ∈ done ++ f.ready, view.Settled start v := by
  -- on the states: the drivers of what is ready were taken, so they were ready in a state before
  induction h with
  | launch ok =>
      intro v hv
      have hs := swept_launch hr ok
      refine .intro ((hr.mem_iff v).mp (hs.subset hv)) fun u hu hpass hf => ?_
      exact absurd (hs.driver_mem hr hv hu hpass hf) List.not_mem_nil
  | @take done f u ready before next ok ih =>
      intro v hv
      have hs := (before.take next ok).swept hr
      refine .intro ((hr.mem_iff v).mp (hs.subset hv)) fun w hw hpass hf => ih w ?_
      rcases List.mem_append.mp (hs.driver_mem hr hv hw hpass hf) with hdone | hu
      · exact List.mem_append_left _ hdone
      · rw [List.mem_singleton.mp hu, next]
        exact List.mem_append_right _ List.mem_cons_self

/-- When no signal is ready, exactly the settled signals were taken. -/
theorem Sweeping.mem_done_iff {region done : List (Fin n)} {f : Front α n}
    (h : Sweeping view start d done f) (hr : view.IsRegion start region)
    (hend : f.ready = []) (v : Fin n) : v ∈ done ↔ view.Settled start v := by
  have hs := h.swept hr
  have hready : done ++ f.ready = done := by simp [hend]
  constructor
  · intro hv
    exact h.settled hr v (hready.symm ▸ hv)
  · intro hv
    obtain ⟨rest, hperm, hrest⟩ := hr.exists_rest (hready ▸ hs.nodup) (hready ▸ hs.subset)
    induction hv with
    | @intro v reached drivers ih =>
        -- all drivers were taken, so no edge to `v` is pending
        have hnone : v ∉ rest.flatMap view.onward := fun hedge => by
          obtain ⟨u, hu, hedge⟩ := List.mem_flatMap.mp hedge
          obtain ⟨hpass, hf⟩ := view.mem_onward.mp hedge
          obtain ⟨hin, hout⟩ := hrest u hu
          exact hout (ih u ((hr.mem_iff u).mp hin) hpass hf)
        have hpend := hs.pending v
        rw [count_flatMap_of_perm hperm view.onward v, List.count_eq_zero.mpr hnone] at hpend
        have hmem := (hs.mem_iff v).mpr ⟨(hr.mem_iff v).mpr reached, by omega⟩
        rwa [hready] at hmem

end Runs

end TimingView

end Presynth
