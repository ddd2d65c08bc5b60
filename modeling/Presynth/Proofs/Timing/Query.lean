import Presynth.Proofs.Timing.Trail
/-!
# What a query returns

A query launches its start, sweeps the region, and closes the arrivals at the endpoints that were
reached. Closing changes nothing: an arrival at a signal has that signal as its last one already.

Main statements: `outcome_launchFrom` (all that a query on fresh marks can do, with the marks it
leaves) and `Sweeping.reached_of_ended` (what a sweep reaches by its end).
-/

namespace Presynth

variable {α : Type} {n : Nat}

/-- Recording the arrival that a place has changes nothing. -/
theorem Scratch.setArrival_eq_self {s : Scratch α n} {p : Place n} {a : Arrival α n}
    (h : (s.get p).arrival = some a) : s.setArrival p a = s := by
  refine ext_get (fun q => ?_) (touched_setArrival ..)
  rw [setArrival, get_modify]
  split
  · rename_i hq
    rw [← hq, ← h]
  · rfl

namespace TimingView

variable [Zero α] [Add α] {view : TimingView α n} {start : Fin n} {d : α}

theorem finish_of_error {s : Scratch α n} {p : Place n} {u : Fin n} {e : TimingError α}
    (he : view.delay u = .error e) : view.finish s p u = (.error e, s) := by
  unfold finish
  rw [he]

theorem finish_of_ok {s : Scratch α n} {p : Place n} {u : Fin n} {a : Arrival α n}
    (hd : view.delay u = .ok d) (ha : (s.get p).arrival = some a) :
    view.finish s p u = (.ok (closing a u d), s.setArrival p (closing a u d)) := by
  unfold finish
  rw [hd, ha, Option.getD_some]

/-- What arrives at a signal along a walk is closed already. -/
theorem Arrives.closing_eq {v : Fin n} {a : Arrival α n} (h : Arrives view start d v a) (dv : α) :
    closing a v dv = a :=
  if_pos h.head?_trail

/-- No signal has an arrival without having a delay. -/
theorem Arrives.delay {v : Fin n} {a : Arrival α n} (h : Arrives view start d v a) :
    ∃ dv, view.delay v = .ok dv := by
  cases h with
  | @fed _ dv _ delay => exact ⟨dv, delay⟩
  | @onward _ _ _ dv _ _ _ delay => exact ⟨dv, delay⟩

/-- Where something arrived at all of the endpoints, their paths are these arrivals. -/
theorem pathsTo_eq {stops : List (Fin n)} {f : Front α n}
    (h : ∀ v ∈ stops, ∃ a, f.scratch.arrival? v = some a ∧ Arrives view start d v a) :
    view.pathsTo start stops f.scratch =
      (.ok (stops.map fun v => view.pathOf start v (arrivalOf f v)), f.scratch) := by
  induction stops with
  | nil => rfl
  | cons v stops ih =>
      obtain ⟨a, ha, harr⟩ := h v List.mem_cons_self
      obtain ⟨dv, hdv⟩ := harr.delay
      have hfinish : view.finish f.scratch (.signal v) v = (.ok a, f.scratch) := by
        rw [finish_of_ok hdv ha, harr.closing_eq, Scratch.setArrival_eq_self ha]
      rw [pathsTo, hfinish]
      dsimp only
      rw [ih fun w hw => h w (List.mem_cons_of_mem _ hw), List.map_cons, arrivalOf_eq ha]

variable [Sub α] [LT α] [DecidableLT α]

/-- What is reached when the sweep has ended are the settled endpoints, each once. -/
theorem Sweeping.reached_of_ended {done : List (Fin n)} {f : Front α n}
    (h : Sweeping view start d done f) (hend : f.ready = []) :
    f.reached.Nodup ∧ ∀ v, v ∈ f.reached ↔ view.Stops v ∧ view.Settled start v := by
  obtain ⟨region, hr⟩ := exists_isRegion view start
  have hs := h.swept hr
  rw [hs.reached]
  refine ⟨(List.nodup_append.mp hs.nodup).1.filter _, fun v => ?_⟩
  rw [List.mem_filter, h.mem_done_iff hr hend, and_comm]
  rfl

/-- Everything that is reached has an arrival along a walk. -/
theorem Sweeping.exists_arrives_of_reached {done : List (Fin n)} {f : Front α n}
    (h : Sweeping view start d done f) {v : Fin n} (hv : v ∈ f.reached) :
    ∃ a, f.scratch.arrival? v = some a ∧ Arrives view start d v a := by
  obtain ⟨region, hr⟩ := exists_isRegion view start
  rw [(h.swept hr).reached] at hv
  obtain ⟨a, ha⟩ := h.exists_arrival hr (List.mem_append_left _ (List.mem_filter.mp hv).1)
  exact ⟨a, ha, h.arrives hr ha⟩

/-! ### Outcomes -/

/-- Offering the arrival at the launch of `start` to all that it feeds. -/
def departed (view : TimingView α n) (start : Fin n) (d : α) :
    Except (TimingError α) Unit × Scratch α n :=
  view.relaxAll (departure start d) (view.fanout start) (view.launched start d)

/-- The outcomes of a query from `start` on fresh marks: its result, and the marks it leaves. -/
inductive Outcome (view : TimingView α n) (start : Fin n) :
    Except (TimingError α) (List (TimingPath α)) × Scratch α n → Prop where
  /-- The start has no delay. -/
  | noLaunch {e : TimingError α} (h : view.delay start = .error e) :
      Outcome view start (.error e, (view.collectRegion .fresh start).setArrival .launch ⟨0, []⟩)
  /-- Something that the start feeds has no delay. -/
  | noDeparture {d : α} {e : TimingError α}
      (h : (view.departed start d).1 = .error e) :
      Outcome view start (.error e, (view.departed start d).2)
  /-- Something that a taken signal feeds has no delay. -/
  | noStep {d : α} {done ready : List (Fin n)} {f : Front α n} {u : Fin n} {e : TimingError α}
      (before : Sweeping view start d done f) (next : f.ready = u :: ready)
      (h : (view.take f u ready).1 = .error e) :
      Outcome view start (.error e, (view.take f u ready).2.scratch)
  /-- The sweep has ended, and the arrivals at the endpoints that it reached are the paths. -/
  | paths {d : α} {done : List (Fin n)} {f : Front α n} (delay : view.delay start = .ok d)
      (sweeping : Sweeping view start d done f) (ended : f.ready = []) :
      Outcome view start
        (.ok (f.reached.map fun v => view.pathOf start v (arrivalOf f v)), f.scratch)

/-- The sweep of a launched start ends before its steps are used up. -/
theorem sweep_departed (ok : (view.departed start d).1 = .ok ()) :
    ∃ done f, Sweeping view start d done f ∧
      ((f.ready = [] ∧
          view.sweep n (followEdges (view.fanout start) ⟨(view.departed start d).2, [], []⟩) =
            (.ok (), f)) ∨
        ∃ u ready e, f.ready = u :: ready ∧ (view.take f u ready).1 = .error e ∧
          view.sweep n (followEdges (view.fanout start) ⟨(view.departed start d).2, [], []⟩) =
            (.error e, (view.take f u ready).2)) := by
  have hexpand := expand_eq (f := ⟨view.launched start d, [], []⟩) ok
  have hlaunch : Sweeping view start d [] (view.launch start d).2 :=
    .launch (congrArg Prod.fst hexpand)
  obtain ⟨region, hr⟩ := exists_isRegion view start
  obtain ⟨done, f, hsweep, hrun⟩ := hlaunch.run n
  rw [TimingView.launch, hexpand] at hrun
  refine ⟨done, f, hsweep, hrun.imp_left fun hok => ⟨?_, hok.1⟩⟩
  rcases hok.2 with hend | hlen
  · exact hend
  · -- every signal was taken, and none becomes ready twice
    have hle := (hsweep.swept hr).nodup.length_le_card
    rw [Fintype.card_fin, List.length_append] at hle
    rw [List.length_nil, Nat.zero_add] at hlen
    exact List.eq_nil_of_length_eq_zero (by omega)

/-- The order of the steps: departure, the edges of the start, the sweep with as many steps as there
are signals, and the paths to what was reached. -/
theorem launchFrom_of_delay (hd : view.delay start = .ok d) :
    view.launchFrom (view.collectRegion .fresh start) start =
      match view.departed start d with
      | (.error e, s) => (.error e, s)
      | (.ok (), s) =>
        match view.sweep n (followEdges (view.fanout start) ⟨s, [], []⟩) with
        | (.error e, f) => (.error e, f.scratch)
        | (.ok (), f) => view.pathsTo start f.reached f.scratch := by
  rw [launchFrom, finish_of_ok hd (Scratch.arrival_get_setArrival_self ..)]
  rfl

/-- A query on fresh marks has one of these outcomes. -/
theorem outcome_launchFrom (view : TimingView α n) (start : Fin n) :
    Outcome view start (view.launchFrom (view.collectRegion .fresh start) start) := by
  cases hd : view.delay start with
  | error e =>
      rw [launchFrom, finish_of_error hd]
      exact .noLaunch hd
  | ok d =>
      rw [launchFrom_of_delay hd]
      cases hdeparted : view.departed start d with
      | mk result s =>
          have hfst := congrArg Prod.fst hdeparted
          obtain rfl : (view.departed start d).2 = s := congrArg Prod.snd hdeparted
          cases result with
          | error e => exact .noDeparture hfst
          | ok _ =>
              obtain ⟨done, f, hsweep, hrun⟩ := sweep_departed hfst
              rcases hrun with ⟨hend, hrun⟩ | ⟨u, ready, e, hready, herr, hrun⟩
              · dsimp only
                rw [hrun]
                dsimp only
                rw [pathsTo_eq fun v hv => hsweep.exists_arrives_of_reached hv]
                exact .paths hd hsweep hend
              · dsimp only
                rw [hrun]
                exact .noStep hsweep hready herr

/-- A query that returns paths has swept the whole region. -/
theorem Outcome.of_ok {paths : List (TimingPath α)} {s : Scratch α n}
    (h : Outcome view start (.ok paths, s)) :
    ∃ d done f, view.delay start = .ok d ∧ Sweeping view start d done f ∧ f.ready = [] ∧
      paths = f.reached.map fun v => view.pathOf start v (arrivalOf f v) := by
  cases h with
  | @paths d done f delay sweeping ended => exact ⟨d, done, f, delay, sweeping, ended, rfl⟩

end TimingView

end Presynth
