import Mathlib.Algebra.BigOperators.Group.Finset.Basic
import Mathlib.Algebra.Ring.Int.Defs
import Presynth.Proofs.Timing.Isolation
/-!
# Queries with checked counts

The numbers of pending edges are counted up by the search of the region and down by the sweep, which
visits the signals in another order and may stop early. Here the same query takes nothing for
granted: it comes to nothing where an edge is followed that is not pending, its loops have no bound
on their steps, and it logs which signals the loops take.

On any marks the loops end: a round of the search leaves fewer signals on the stack or outside the
region, and a round of the checked sweep fewer pending edges or ready signals. On the marks that
queries leave, the checked query is the query itself, by the invariants of the search (`Collected`)
and of the sweep (`Swept`).

Main statements: `followEdges?_eq` and `expand?_eq` (edges that are pending can be followed),
`searchRegion_eq` and `Sweeping.sweep?_eq` (the loops) and `Netlist.exists_queryLog`.
-/

namespace Presynth

variable {α : Type} {n : Nat}

namespace Scratch

/-- Counts one edge to a signal as followed, provided that one is pending. -/
def followEdge? (s : Scratch α n) (v : Fin n) : Option (Scratch α n) :=
  if 0 < s.pending v then some (s.followEdge v) else none

/-- The number of signals outside the region. -/
def unmarked (s : Scratch α n) : Nat := (Finset.univ.filter fun v => s.inRegion v = false).card

/-- The number of edges that are pending anywhere. -/
def allPending (s : Scratch α n) : Nat := ∑ v, s.pending v

theorem unmarked_countEdge (s : Scratch α n) (u : Fin n) :
    (s.countEdge u).unmarked = s.unmarked := by
  simp only [unmarked, inRegion_countEdge]

theorem unmarked_touch {s : Scratch α n} {u : Fin n} (h : s.inRegion u = false) :
    (s.touch (.signal u)).unmarked + 1 = s.unmarked := by
  have hset : (Finset.univ.filter fun v => (s.touch (.signal u)).inRegion v = false) =
      (Finset.univ.filter fun v => s.inRegion v = false).erase u := by
    ext v
    have hv := s.inRegion_touch u v
    simp only [Finset.mem_filter, Finset.mem_univ, true_and, Finset.mem_erase,
      ← Bool.not_eq_true, hv]
    tauto
  rw [unmarked, hset]
  exact Finset.card_erase_add_one (by simpa using h)

theorem allPending_setArrival (s : Scratch α n) (p : Place n) (a : Arrival α n) :
    (s.setArrival p a).allPending = s.allPending := by
  simp only [allPending, pending_setArrival]

/-- An edge that is followed is one less to follow. There is one to follow, or the step would not
have been possible. -/
theorem allPending_of_followEdge? {s s' : Scratch α n} {u : Fin n} (h : s.followEdge? u = some s') :
    s'.allPending + 1 = s.allPending := by
  obtain ⟨hpos, rfl⟩ : 0 < s.pending u ∧ s.followEdge u = s' := by
    simpa [followEdge?] using h
  have hrest : ∑ v ∈ Finset.univ.erase u, (s.followEdge u).pending v =
      ∑ v ∈ Finset.univ.erase u, s.pending v :=
    Finset.sum_congr rfl fun v hv => by
      rw [pending_followEdge, if_neg (Finset.ne_of_mem_erase hv).symm, Nat.sub_zero]
  have hself : (s.followEdge u).pending u = s.pending u - 1 := by
    rw [pending_followEdge, if_pos rfl]
  rw [allPending, allPending, ← Finset.add_sum_erase _ _ (Finset.mem_univ u),
    ← Finset.add_sum_erase _ _ (Finset.mem_univ u), hrest, hself]
  omega

end Scratch

namespace TimingView

/-! ### The search -/

/-- Counting edges moves signals from outside the region to the stack. -/
theorem countEdges_unmarked (vs : List (Fin n)) (s : Scratch α n) (stack : List (Fin n)) :
    (countEdges vs s stack).1.unmarked + (countEdges vs s stack).2.length =
      s.unmarked + stack.length := by
  induction vs generalizing s stack with
  | nil => rfl
  | cons u vs ih =>
      rw [countEdges_cons]
      split
      · rw [ih, Scratch.unmarked_countEdge]
      · rename_i hu
        have hout : (s.countEdge u).inRegion u = false := by simpa using hu
        have htouch := Scratch.unmarked_touch hout
        rw [Scratch.unmarked_countEdge] at htouch
        rw [ih, List.length_cons]
        omega

/-- Takes signals off the stack until it is empty, and follows the edges of those that are no
endpoints. Returns the signals that were taken in order, and the marks. -/
def search (view : TimingView α n) (s : Scratch α n) (stack : List (Fin n)) :
    List (Fin n) × Scratch α n :=
  match stack with
  | [] => ([], s)
  | u :: stack =>
    if view.isEndpoint u then
      let rest := view.search s stack
      (u :: rest.1, rest.2)
    else
      let next := countEdges (view.fanout u) s stack
      let rest := view.search next.1 next.2
      (u :: rest.1, rest.2)
termination_by s.unmarked + stack.length
decreasing_by
  · rw [List.length_cons]
    omega
  · rw [countEdges_unmarked, List.length_cons]
    omega

variable (view : TimingView α n) {start : Fin n}

theorem search_nil (s : Scratch α n) : view.search s [] = ([], s) := by
  rw [search]

/-- The search takes the signal on top of the stack, and what is new of its list takes its place. -/
theorem search_cons (s : Scratch α n) (u : Fin n) (stack : List (Fin n)) :
    view.search s (u :: stack) =
      (u :: (view.search (countEdges (view.onward u) s stack).1
          (countEdges (view.onward u) s stack).2).1,
        (view.search (countEdges (view.onward u) s stack).1
          (countEdges (view.onward u) s stack).2).2) := by
  rw [search, onward]
  split <;> rfl

variable {view}

/-- The search goes through its states until the stack is empty. -/
theorem Searching.search {seen stack : List (Fin n)} {s : Scratch α n}
    (h : Searching view start seen s stack) :
    Searching view start (seen ++ (view.search s stack).1) (view.search s stack).2 [] := by
  induction hsize : s.unmarked + stack.length generalizing seen s stack with
  | zero =>
      obtain rfl : stack = [] := List.eq_nil_of_length_eq_zero (by omega)
      rwa [search_nil, List.append_nil]
  | succ k ih =>
      cases stack with
      | nil => rwa [search_nil, List.append_nil]
      | cons u stack =>
          have hnext := ih h.visit <| by
            rw [List.length_cons] at hsize
            rw [countEdges_unmarked]
            omega
          rw [search_cons]
          simpa using hnext

/-- Enough steps are as good as no bound. -/
theorem searchRegion_eq {steps : Nat} {s : Scratch α n} {stack : List (Fin n)}
    (h : (view.search s stack).1.length ≤ steps) :
    view.searchRegion steps s stack = (view.search s stack).2 := by
  induction steps generalizing s stack with
  | zero =>
      cases stack with
      | nil => rw [search_nil, searchRegion]
      | cons u stack => simp [search_cons] at h
  | succ steps ih =>
      cases stack with
      | nil => rw [search_nil, searchRegion]
      | cons u stack =>
          rw [search_cons, List.length_cons] at h
          rw [searchRegion_succ_cons, search_cons, ih (by omega)]

variable (view start) in
/-- Without bounds the search collects the same region. -/
theorem exists_search_eq :
    ∃ region, view.IsRegion start region ∧
      view.search (countEdges (view.fanout start) (Scratch.fresh.touch .launch) []).1
          (countEdges (view.fanout start) (Scratch.fresh.touch .launch : Scratch α n) []).2 =
        (region, view.collectRegion .fresh start) := by
  have hrun := (Searching.begin : Searching view start [] _ _).search
  rw [List.nil_append] at hrun
  have hc := hrun.collected
  have hlength := (List.append_nil _ ▸ hc.nodup).length_le_card
  rw [Fintype.card_fin] at hlength
  have hcollect := searchRegion_eq hlength
  rw [← hcollect] at hc
  exact ⟨_, hc.isRegion, Prod.ext rfl hcollect.symm⟩

/-! ### Following edges -/

/-- Follows edges that are pending; signals without further edges become ready. -/
def followEdges? : List (Fin n) → Front α n → Option (Front α n)
  | [], f => some f
  | v :: vs, f =>
    (f.scratch.followEdge? v).bind fun s =>
      followEdges? vs
        { f with scratch := s, ready := if s.pending v = 0 then f.ready ++ [v] else f.ready }

/-- Edges can be followed that are pending. -/
theorem followEdges?_eq {vs : List (Fin n)} {f : Front α n}
    (h : ∀ v, vs.count v ≤ f.scratch.pending v) : followEdges? vs f = some (followEdges vs f) := by
  induction vs generalizing f with
  | nil => rfl
  | cons u vs ih =>
      have hpos : 0 < f.scratch.pending u :=
        (List.count_pos_iff.mpr List.mem_cons_self).trans_le (h u)
      rw [followEdges?, Scratch.followEdge?, if_pos hpos, Option.bind_some, followEdges_cons]
      exact ih (count_le_pending_followEdge h)

/-- The edges that are pending and the signals that are ready. -/
def Front.backlog (f : Front α n) : Nat := f.scratch.allPending + f.ready.length

/-- Each edge that is followed makes one signal ready at most. -/
theorem backlog_of_followEdges? {vs : List (Fin n)} {f f' : Front α n}
    (h : followEdges? vs f = some f') : f'.backlog ≤ f.backlog := by
  induction vs generalizing f with
  | nil =>
      obtain rfl : f = f' := Option.some.inj h
      exact le_rfl
  | cons u vs ih =>
      obtain ⟨s, hs, hrest⟩ := Option.bind_eq_some_iff.mp h
      have hpending := Scratch.allPending_of_followEdge? hs
      have hle := ih hrest
      have hready : (if s.pending u = 0 then f.ready ++ [u] else f.ready).length ≤
          f.ready.length + 1 := by
        split <;> simp
      simp only [Front.backlog] at hle ⊢
      omega

section Runs

variable [Add α] [Sub α] [LT α] [DecidableLT α]

/-- Offers an arrival along edges that are pending and follows each, up to the first signal that has
no delay. -/
def expand? (view : TimingView α n) (a : Arrival α n) :
    List (Fin n) → Front α n → Option (Except (TimingError α) Unit × Front α n)
  | [], f => some (.ok (), f)
  | v :: vs, f =>
    match view.relax f.scratch v a with
    | .error e => some (.error e, f)
    | .ok s => (followEdges? [v] { f with scratch := s }).bind (view.expand? a vs)

variable {a : Arrival α n}

theorem expand?_cons_of_ok {f : Front α n} {v : Fin n} {vs : List (Fin n)} {d : α}
    (hd : view.delay v = .ok d) :
    view.expand? a (v :: vs) f = (followEdges? [v] { f with
      scratch := f.scratch.setArrival (.signal v) (later (f.scratch.arrival? v) a v d) }).bind
        (view.expand? a vs) := by
  rw [expand?, relax_of_ok hd]

theorem expand?_cons_of_error {f : Front α n} {v : Fin n} {vs : List (Fin n)} {e : TimingError α}
    (he : view.delay v = .error e) : view.expand? a (v :: vs) f = some (.error e, f) := by
  rw [expand?, relax_of_error he]

/-- Signals can be expanded whose edges are pending. -/
theorem expand?_eq {vs : List (Fin n)} {f : Front α n}
    (h : ∀ v, vs.count v ≤ f.scratch.pending v) :
    view.expand? a vs f = some (view.expand a vs f) := by
  induction vs generalizing f with
  | nil => rfl
  | cons u vs ih =>
      cases hd : view.delay u with
      | error e => rw [expand?_cons_of_error hd, expand_cons_of_error hd]
      | ok d =>
          have hoffered : ∀ v, (u :: vs).count v ≤ (f.scratch.setArrival (.signal u)
              (later (f.scratch.arrival? u) a u d)).pending v := by
            simpa only [Scratch.pending_setArrival] using h
          rw [expand?_cons_of_ok hd, expand_cons_of_ok hd, followEdges?_eq, Option.bind_some]
          · exact ih (count_le_pending_followEdge hoffered)
          · exact fun v => ((List.sublist_append_left [u] vs).count_le v).trans (hoffered v)

/-- Following edges can only make the backlog smaller: an edge that makes a signal ready puts it
there in its own stead. -/
theorem backlog_of_expand? {vs : List (Fin n)} {f f' : Front α n}
    {r : Except (TimingError α) Unit} (h : view.expand? a vs f = some (r, f')) :
    f'.backlog ≤ f.backlog := by
  induction vs generalizing f with
  | nil =>
      cases h
      exact le_rfl
  | cons u vs ih =>
      cases hd : view.delay u with
      | error e =>
          rw [expand?_cons_of_error hd] at h
          cases h
          exact le_rfl
      | ok d =>
          rw [expand?_cons_of_ok hd] at h
          obtain ⟨f₁, hfollow, hrest⟩ := Option.bind_eq_some_iff.mp h
          refine (ih hrest).trans ((backlog_of_followEdges? hfollow).trans_eq ?_)
          rw [Front.backlog, Scratch.allPending_setArrival, Front.backlog]

/-! ### The sweep -/

variable [Zero α]

/-- Takes ready signals in order until none is left: an endpoint is reached, any other signal is
expanded. Returns the signals that were taken in order, the result and the front. -/
def sweep? (view : TimingView α n) :
    Front α n → Option (List (Fin n) × Except (TimingError α) Unit × Front α n)
  | ⟨s, [], reached⟩ => some ([], .ok (), ⟨s, [], reached⟩)
  | ⟨s, u :: ready, reached⟩ =>
    if view.isEndpoint u then
      (view.sweep? ⟨s, ready, reached ++ [u]⟩).map fun rest => (u :: rest.1, rest.2)
    else
      match hexpand : view.expand? ((s.arrival? u).getD ⟨0, []⟩) (view.fanout u)
          ⟨s, ready, reached⟩ with
      | none => none
      | some (.error e, f) => some ([u], .error e, f)
      | some (.ok (), f) =>
        have := backlog_of_expand? hexpand
        (view.sweep? f).map fun rest => (u :: rest.1, rest.2)
termination_by f => f.backlog
decreasing_by
  all_goals
    simp only [Front.backlog, List.length_cons] at *
    omega

theorem sweep?_of_ready_nil {f : Front α n} (h : f.ready = []) :
    view.sweep? f = some ([], .ok (), f) := by
  obtain ⟨s, ready, reached⟩ := f
  obtain rfl : ready = [] := h
  rw [sweep?]

/-- A ready signal can be taken whose edges are pending. -/
theorem sweep?_of_ready_cons {f : Front α n} {u : Fin n} {ready : List (Fin n)}
    (h : f.ready = u :: ready) (hle : ∀ v, (view.onward u).count v ≤ f.scratch.pending v) :
    view.sweep? f =
      match view.take f u ready with
      | (.error e, f') => some ([u], .error e, f')
      | (.ok (), f') => (view.sweep? f').map fun rest => (u :: rest.1, rest.2) := by
  obtain ⟨s, queue, reached⟩ := f
  obtain rfl : queue = u :: ready := h
  rw [sweep?]
  by_cases hu : view.isEndpoint u = true
  · rw [if_pos hu, take_of_stops hu]
  · rw [view.onward_of_not_stops hu] at hle
    have hexpand : view.expand? ((s.arrival? u).getD ⟨0, []⟩) (view.fanout u) ⟨s, ready, reached⟩ =
        some (view.take ⟨s, u :: ready, reached⟩ u ready) := by
      rw [take_of_not_stops hu]
      exact expand?_eq hle
    rw [if_neg hu]
    split
    · rename_i hnone
      cases hexpand.symm.trans hnone
    · rename_i e f' herr
      rw [← Option.some.inj (herr.symm.trans hexpand)]
    · rename_i f' hok
      rw [← Option.some.inj (hok.symm.trans hexpand)]

/-- The checked sweep takes signals of the region, each once, until none is ready or one fails, and
does what the sweep does in as many steps. -/
theorem Sweeping.sweep?_eq {d : α} {region done : List (Fin n)} {f : Front α n}
    (h : Sweeping view start d done f) (hr : view.IsRegion start region) :
    ∃ taken r f', view.sweep? f = some (taken, r, f') ∧ (done ++ taken ++ f'.ready).Nodup ∧
      done ++ taken ++ f'.ready ⊆ region ∧
      ∀ steps, taken.length ≤ steps → view.sweep steps f = (r, f') := by
  -- the induction is on the signals of the region that were not taken yet
  induction hsize : region.length - done.length using Nat.strong_induction_on
    generalizing done f with
  | h size ih =>
      have hs := h.swept hr
      cases hready : f.ready with
      | nil =>
          refine ⟨[], .ok (), f, sweep?_of_ready_nil hready, ?_, ?_, fun steps _ =>
            sweep_of_ready_nil hready steps⟩
          · simpa using hs.nodup
          · simpa using hs.subset
      | cons u ready =>
          obtain ⟨hnodup, hsubset⟩ := hs.nodup_take hr hready
          have hsweep := sweep?_of_ready_cons hready (hs.count_onward_le hr hready)
          cases htake : view.take f u ready with
          | mk r f' =>
              rw [htake] at hsweep hnodup hsubset
              cases r with
              | error e =>
                  refine ⟨[u], .error e, f', hsweep, hnodup, hsubset, fun steps hsteps => ?_⟩
                  obtain ⟨steps, rfl⟩ := Nat.exists_eq_succ_of_ne_zero (Nat.ne_of_gt hsteps)
                  rw [sweep_succ_of_error hready (congrArg Prod.fst htake), htake]
              | ok _ =>
                  have hok : (view.take f u ready).1 = .ok () := congrArg Prod.fst htake
                  have hnext := h.take hready hok
                  have hlength : (done ++ [u]).length ≤ region.length :=
                    (List.subperm_of_subset (List.nodup_append.mp hnodup).1
                      fun v hv => hsubset (List.mem_append_left _ hv)).length_le
                  rw [List.length_append, List.length_singleton] at hlength
                  obtain ⟨taken, r, f'', hrest, hnodup', hsubset', hsteps⟩ :=
                    ih _ (by rw [List.length_append, List.length_singleton]; omega) hnext rfl
                  rw [htake] at hrest hsteps
                  refine ⟨u :: taken, r, f'', ?_, ?_, ?_, fun steps hle => ?_⟩
                  · rw [hsweep]
                    dsimp only
                    rw [hrest]
                    rfl
                  · simpa using hnodup'
                  · simpa using hsubset'
                  · obtain ⟨steps, rfl⟩ : ∃ k, steps = k + 1 :=
                      Nat.exists_eq_succ_of_ne_zero (Nat.ne_of_gt ((Nat.succ_pos _).trans_le hle))
                    rw [sweep_succ_of_ok hready hok, htake]
                    exact hsteps steps (Nat.le_of_succ_le_succ hle)

/-! ### The query -/

/-- Which signals the loops of a query took. Whatever is put on the stack is taken off it again;
whatever becomes ready is taken or, where the sweep fails, still ready at the end. -/
structure QueryLog (n : Nat) where
  /-- The signals taken off the stack, in order. -/
  searched : List (Fin n)
  /-- The ready signals that were taken, in order. -/
  taken : List (Fin n)
  /-- The signals that are still ready at the end. -/
  ready : List (Fin n)
  deriving DecidableEq, Repr

/-- Sweeps the region of `start`, once it is collected by taking `searched`. -/
def launchFrom? (view : TimingView α n) (searched : List (Fin n)) (s : Scratch α n)
    (start : Fin n) :
    Option (QueryLog n × Except (TimingError α) (List (TimingPath α)) × Scratch α n) :=
  match view.finish (s.setArrival .launch ⟨0, []⟩) .launch start with
  | (.error e, s) => some (⟨searched, [], []⟩, .error e, s)
  | (.ok launch, s) =>
    match view.relaxAll launch (view.fanout start) s with
    | (.error e, s) => some (⟨searched, [], []⟩, .error e, s)
    | (.ok (), s) =>
      (followEdges? (view.fanout start) ⟨s, [], []⟩).bind fun f =>
        (view.sweep? f).map fun
          | (taken, .error e, f) => (⟨searched, taken, f.ready⟩, .error e, f.scratch)
          | (taken, .ok (), f) =>
            (⟨searched, taken, f.ready⟩, view.pathsTo start f.reached f.scratch)

/-- The query for the worst path from `start` to every endpoint that the sweep reaches, with a log.
It comes to nothing where an edge is followed that is not pending. -/
def analyzeFrom? (view : TimingView α n) (s : Scratch α n) (start : Fin n) :
    Option (QueryLog n × Except (TimingError α) (List (TimingPath α)) × Scratch α n) :=
  if view.isStartpoint start then
    let launched := countEdges (view.fanout start) (s.reset.touch .launch) []
    let collected := view.search launched.1 launched.2
    view.launchFrom? collected.1 collected.2 start
  else some (⟨[], [], []⟩, .ok [], s.reset)

/-- The loops of the query took each signal once at most, and only signals of the region. -/
structure Logs (view : TimingView α n) (start : Fin n) (log : QueryLog n) : Prop where
  searched_nodup : log.searched.Nodup
  mem_searched_iff : ∀ v, v ∈ log.searched ↔ view.isStartpoint start = true ∧ view.Reaches start v
  ready_nodup : (log.taken ++ log.ready).Nodup
  ready_subset : log.taken ++ log.ready ⊆ log.searched

/-- After the departure all edges that are followed are pending, and the sweep has steps enough. -/
theorem exists_sweep?_departed {d : α} {region : List (Fin n)} (hr : view.IsRegion start region)
    (ok : (view.departed start d).1 = .ok ()) :
    ∃ f taken r f', followEdges? (view.fanout start) ⟨(view.departed start d).2, [], []⟩ = some f ∧
      view.sweep? f = some (taken, r, f') ∧ (taken ++ f'.ready).Nodup ∧
      taken ++ f'.ready ⊆ region ∧
      view.sweep n (followEdges (view.fanout start) ⟨(view.departed start d).2, [], []⟩) =
        (r, f') := by
  have hlaunch : view.launch start d =
      (.ok (), followEdges (view.fanout start) ⟨(view.departed start d).2, [], []⟩) :=
    expand_eq (f := ⟨view.launched start d, [], []⟩) ok
  have hpending : ∀ v, (view.fanout start).count v ≤ (view.departed start d).2.pending v := by
    intro v
    rw [departed, relaxAll_pending, launched, Scratch.pending_setArrival,
      Scratch.pending_setArrival, hr.pending, List.count_append]
    exact Nat.le_add_right _ _
  have hsweeping : Sweeping view start d [] (view.launch start d).2 :=
    .launch (congrArg Prod.fst hlaunch)
  obtain ⟨taken, r, f', hsweep, hnodup, hsubset, hsteps⟩ := hsweeping.sweep?_eq hr
  rw [hlaunch] at hsweep hsteps
  have hlength := (List.nodup_append.mp hnodup).1.length_le_card
  rw [Fintype.card_fin] at hlength
  exact ⟨_, taken, r, f', followEdges?_eq hpending, hsweep, hnodup, hsubset, hsteps n hlength⟩

/-- The steps of a query whose start has a delay: departure, the edges of the start, the sweep, and
the paths. -/
theorem launchFrom?_of_delay {d : α} (hd : view.delay start = .ok d) (searched : List (Fin n)) :
    view.launchFrom? searched (view.collectRegion .fresh start) start =
      match view.departed start d with
      | (.error e, s) => some (⟨searched, [], []⟩, .error e, s)
      | (.ok (), s) =>
        (followEdges? (view.fanout start) ⟨s, [], []⟩).bind fun f =>
          (view.sweep? f).map fun
            | (taken, .error e, f) => (⟨searched, taken, f.ready⟩, .error e, f.scratch)
            | (taken, .ok (), f) =>
              (⟨searched, taken, f.ready⟩, view.pathsTo start f.reached f.scratch) := by
  rw [launchFrom?, finish_of_ok hd (Scratch.arrival_get_setArrival_self ..)]
  rfl

/-- No step of a query on a region is impossible, and what it stacks and takes is of the region,
each signal once. -/
theorem launchFrom?_eq {region : List (Fin n)} (hr : view.IsRegion start region) :
    ∃ taken ready, view.launchFrom? region (view.collectRegion .fresh start) start =
        some (⟨region, taken, ready⟩,
          view.launchFrom (view.collectRegion .fresh start) start) ∧
      (taken ++ ready).Nodup ∧ taken ++ ready ⊆ region := by
  cases hd : view.delay start with
  | error e =>
      refine ⟨[], [], ?_, List.nodup_nil, List.nil_subset _⟩
      rw [launchFrom?, launchFrom, finish_of_error hd]
  | ok d =>
      rw [launchFrom?_of_delay hd, launchFrom_of_delay hd]
      cases hdeparted : view.departed start d with
      | mk result s =>
          obtain rfl : (view.departed start d).2 = s := congrArg Prod.snd hdeparted
          cases result with
          | error e => exact ⟨[], [], rfl, List.nodup_nil, List.nil_subset _⟩
          | ok _ =>
              obtain ⟨f, taken, r, f', hfollow, hsweep?, hnodup, hsubset, hsweep⟩ :=
                exists_sweep?_departed hr (congrArg Prod.fst hdeparted)
              refine ⟨taken, f'.ready, ?_, hnodup, hsubset⟩
              dsimp only
              rw [hfollow, Option.bind_some, hsweep?, Option.map_some, hsweep]
              cases r <;> rfl

/-- On the marks that queries leave, the checked query is the query. -/
theorem analyzeFrom?_eq {s : Scratch α n} (hs : s.Tidy) (view : TimingView α n) (start : Fin n) :
    ∃ log, view.analyzeFrom? s start = some (log, view.analyzeFrom s start) ∧
      view.Logs start log := by
  rw [analyzeFrom?, analyzeFrom, hs.reset_eq]
  by_cases hstart : view.isStartpoint start = true
  · rw [if_pos hstart, if_pos hstart]
    obtain ⟨region, hr, hsearch⟩ := exists_search_eq view start
    dsimp only
    rw [hsearch]
    obtain ⟨taken, ready, hlaunch, hnodup, hsubset⟩ := launchFrom?_eq hr
    refine ⟨_, hlaunch, hr.nodup, fun v => ?_, hnodup, hsubset⟩
    rw [hr.mem_iff v, and_iff_right hstart]
  · rw [if_neg hstart, if_neg hstart]
    exact ⟨_, rfl, List.nodup_nil, fun v => by simp [hstart], List.nodup_nil, List.nil_subset _⟩

end Runs

end TimingView

/-! ### Queries on a netlist -/

namespace Netlist

/-- Whatever was asked before, a query follows only edges that are pending and takes each signal off
the stack once and out of the ready ones once at most. So its loops end by themselves, in no more
rounds than the region has signals, with what the query returns. -/
theorem exists_queryLog [Zero α] [Add α] [Sub α] [LT α] [DecidableLT α] (g : Netlist α)
    {marks : Scratch α g.internedSize} (hmarks : g.timingView.Leftover marks)
    (start : Fin g.internedSize) :
    ∃ log,
      g.timingView.analyzeFrom? marks start = some (log, g.timingView.analyzeFrom marks start) ∧
      log.searched.Nodup ∧
      (∀ v, v ∈ log.searched.map g.timingView.name ↔
        g.IsStartpoint (g.timingView.name start) ∧ g.Reaches (g.timingView.name start) v) ∧
      (log.taken ++ log.ready).Nodup ∧ log.taken ++ log.ready ⊆ log.searched ∧
      log.taken.length ≤ log.searched.length := by
  obtain ⟨log, hquery, hlog⟩ := TimingView.analyzeFrom?_eq hmarks.tidy g.timingView start
  refine ⟨log, hquery, hlog.searched_nodup, fun v => ?_, hlog.ready_nodup, hlog.ready_subset, ?_⟩
  · rw [List.mem_map, ← isStartpoint_iff]
    constructor
    · rintro ⟨i, hi, rfl⟩
      rw [reaches_name_iff]
      exact (hlog.mem_searched_iff i).mp hi
    · rintro ⟨hstart, l, w⟩
      obtain ⟨l', i, -, rfl, w'⟩ := exists_walk_of_name w
      exact ⟨i, (hlog.mem_searched_iff i).mpr ⟨hstart, l', w'⟩, rfl⟩
  · have hnodup := (List.nodup_append.mp hlog.ready_nodup).1
    have hsubset : log.taken ⊆ log.searched := fun v hv =>
      hlog.ready_subset (List.mem_append_left log.ready hv)
    exact (List.subperm_of_subset hnodup hsubset).length_le

/-- A register that feeds a gate twice, which feeds it back twice, both also feeding a gate that
feeds itself; and an input and a gate that feed each other. -/
def tangled : Netlist Int :=
  let node (name : String) (kind : NodeKind) (delay : Int) : Node Int :=
    ⟨name, kind, none, none, some delay, none, 0⟩
  { registry := .ofList [("g", node "g" .Operator 5), ("i", node "i" .Input 1),
      ("l", node "l" .Operator 4), ("r", node "r" .Reg 2), ("x", node "x" .Operator 3)]
    fanout := .ofList [("g", ["i", "r"]), ("i", ["g", "g"]), ("l", ["l"]), ("r", ["x", "x", "l"]),
      ("x", ["r", "r", "l"])] }

/-- The query from the register, asked after that from the input, passes the gate that feeds itself
and ends with the path that comes back to the register. -/
theorem exists_queryLog_tangled :
    let i : Fin tangled.internedSize := ⟨1, by decide +kernel⟩
    let r : Fin tangled.internedSize := ⟨3, by decide +kernel⟩
    let marks := (tangled.timingView.analyzeFrom .fresh i).2
    tangled.timingView.Leftover marks ∧
      (tangled.timingView.analyzeFrom marks r).1 =
        .ok [⟨"r", "r", ["r", "x", "r"], 7, .classify (some .Reg) (some .Reg)⟩] ∧
      ∃ log, tangled.timingView.analyzeFrom? marks r =
          some (log, tangled.timingView.analyzeFrom marks r) ∧
        log.searched.Nodup ∧ (log.taken ++ log.ready).Nodup ∧
        log.taken.length ≤ log.searched.length ∧
        ["l", "x", "r"] ⊆ log.searched.map tangled.timingView.name := by
  intro i r marks
  have hmarks : tangled.timingView.Leftover marks := .analyzeFrom .fresh i
  obtain ⟨log, hquery, hsearched, hregion, hready, -, hle⟩ := tangled.exists_queryLog hmarks r
  have hname : tangled.timingView.name r = "r" := by decide +kernel
  have hstart : tangled.IsStartpoint "r" := by decide +kernel
  have hgate : tangled.Reaches "r" "x" := .of_feeds (by decide +kernel)
  have hback : tangled.Reaches "r" "r" := hgate.onward (by decide +kernel) (by decide +kernel)
  have hself : tangled.Reaches "r" "l" := .of_feeds (by decide +kernel)
  rw [hname] at hregion
  refine ⟨hmarks, by decide +kernel, log, hquery, hsearched, hready, hle, fun v hv => ?_⟩
  refine (hregion v).mpr ⟨hstart, ?_⟩
  simp only [List.mem_cons, List.not_mem_nil, or_false] at hv
  rcases hv with rfl | rfl | rfl
  exacts [hself, hgate, hback]

/-- Its loops take the signals in these orders. -/
example :
    let l : Fin tangled.internedSize := ⟨2, by decide +kernel⟩
    let r : Fin tangled.internedSize := ⟨3, by decide +kernel⟩
    let x : Fin tangled.internedSize := ⟨4, by decide +kernel⟩
    (tangled.timingView.analyzeFrom? .fresh r).map (·.1) = some ⟨[l, x, r], [x, r], []⟩ := by
  cbv

end Netlist

end Presynth
