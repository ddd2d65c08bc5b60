import Presynth.Proofs.Timing.Reads
import Presynth.Proofs.Timing.Completeness
import Presynth.Run.Slack
/-!
# When timing fails

A query looks the delay of a signal up when something is offered to it: by the launch, or by a
signal that is expanded, which are the settled ones that are no endpoints. So a missing delay makes
a query fail exactly if such an offer is made; behind an endpoint or a loop it does no harm.

Main statements: `TimingView.undelayed_of_error` and `TimingView.delay_of_ok` (both directions for
one query), `Netlist.analyzeFrom_error_iff` (the same on names) and `Netlist.timing_fails_iff`.
-/

namespace Presynth

variable {α : Type} {n : Nat}

/-- The signals whose delays are looked up from `s`: itself, what it feeds, and what is fed by
settled signals that walks pass. -/
inductive Demanded {V : Type} (feeds : V → V → Prop) (stops : V → Prop) (s : V) : V → Prop where
  | start : Demanded feeds stops s s
  | fed {v : V} (edge : feeds s v) : Demanded feeds stops s v
  | onward {u v : V} (settled : Settled feeds stops s u) (pass : ¬ stops u) (edge : feeds u v) :
      Demanded feeds stops s v

/-- The signals whose delays a query from another one looks up. -/
abbrev Netlist.Demanded (g : Netlist α) : String → String → Prop :=
  Presynth.Demanded g.Feeds g.IsEndpoint

/-- A list of computations fails as some of them does. -/
theorem exists_of_mapM_eq_error {ε β γ : Type} {f : β → Except ε γ} {l : List β} {e : ε}
    (h : l.mapM f = .error e) : ∃ b ∈ l, f b = .error e := by
  induction l with
  | nil => cases h
  | cons b l ih =>
      rw [List.mapM_cons] at h
      cases hb : f b with
      | error e' =>
          rw [hb] at h
          cases h
          exact ⟨b, List.mem_cons_self, hb⟩
      | ok c =>
          -- the head answers, so the failure is one of the rest
          cases hl : l.mapM f with
          | error e' =>
              rw [hb, hl] at h
              cases h
              obtain ⟨b', hmem, hb'⟩ := ih hl
              exact ⟨b', List.mem_cons_of_mem _ hmem, hb'⟩
          | ok cs =>
              rw [hb, hl] at h
              cases h

namespace TimingView

/-- The signals whose delays a query from another one looks up. -/
abbrev Demanded (view : TimingView α n) : Fin n → Fin n → Prop :=
  Presynth.Demanded view.Feeds view.Stops

variable {view : TimingView α n} {start : Fin n}

/-! ### Names -/

theorem IsViewOf.demanded_name {g : Netlist α} (h : view.IsViewOf g) {v : Fin n}
    (hv : view.Demanded start v) : g.Demanded (view.name start) (view.name v) := by
  cases hv with
  | start => exact .start
  | fed edge => exact .fed ((h.feeds_iff _ _).mp edge)
  | onward settled pass edge =>
      exact .onward (h.settled_iff.mpr settled) ((h.stops_iff _).not.mp pass)
        ((h.feeds_iff _ _).mp edge)

/-- What is demanded from a name with a number has a number. -/
theorem IsViewOf.exists_demanded {g : Netlist α} (h : view.IsViewOf g) {v : String}
    (hv : g.Demanded (view.name start) v) : ∃ j, view.name j = v ∧ view.Demanded start j := by
  cases hv with
  | start => exact ⟨start, rfl, .start⟩
  | fed edge =>
      obtain ⟨j, rfl⟩ := h.exists_name edge
      exact ⟨j, rfl, .fed ((h.feeds_iff _ _).mpr edge)⟩
  | @onward u v settled pass edge =>
      obtain ⟨i, rfl⟩ : ∃ i, view.name i = u := by
        obtain ⟨l, w⟩ := (settled_iff_acc.mp settled).1
        obtain ⟨-, i, -, hi, -⟩ := h.exists_walk w
        exact ⟨i, hi.symm⟩
      obtain ⟨j, rfl⟩ := h.exists_name edge
      exact ⟨j, rfl, .onward (h.settled_iff.mp settled) ((h.stops_iff _).not.mpr pass)
        ((h.feeds_iff _ _).mpr edge)⟩

/-! ### One query -/

section Arrivals

variable [Add α] [Sub α] [LT α] [DecidableLT α]

/-- Offers fail at a signal without a delay. -/
theorem exists_of_relaxAll_error {a : Arrival α n} {vs : List (Fin n)} {s : Scratch α n}
    {e : TimingError α} (h : (view.relaxAll a vs s).1 = .error e) :
    ∃ v ∈ vs, view.delay v = .error e := by
  induction vs generalizing s with
  | nil => cases h
  | cons v vs ih =>
      cases hd : view.delay v with
      | error e' =>
          rw [relaxAll_cons_of_error hd] at h
          cases h
          exact ⟨v, List.mem_cons_self, hd⟩
      | ok d =>
          rw [relaxAll_cons_of_ok hd] at h
          obtain ⟨w, hw, he⟩ := ih h
          exact ⟨w, List.mem_cons_of_mem _ hw, he⟩

variable [Zero α]

/-- A failure is that of a signal whose delay is demanded. -/
theorem Outcome.undelayed {r : Except (TimingError α) (List (TimingPath α)) × Scratch α n}
    (h : Outcome view start r) {e : TimingError α} (he : r.1 = .error e) :
    ∃ v, view.Demanded start v ∧ view.delay v = .error e := by
  obtain ⟨region, hr⟩ := exists_isRegion view start
  cases h with
  | noLaunch h =>
      cases he
      exact ⟨start, .start, h⟩
  | noDeparture h =>
      cases he
      obtain ⟨v, hv, hd⟩ := exists_of_relaxAll_error h
      exact ⟨v, .fed hv, hd⟩
  | @noStep d done ready f u e' before next h =>
      cases he
      rw [TimingView.take, expand_fst] at h
      obtain ⟨v, hv, hd⟩ := exists_of_relaxAll_error h
      obtain ⟨pass, edge⟩ := view.mem_onward.mp hv
      have hu : view.Settled start u := before.settled hr u (by simp [next])
      exact ⟨v, .onward hu pass edge, hd⟩
  | paths => cases he

/-- At the end of a sweep everything that is demanded has a delay. -/
theorem Sweeping.delay_of_demanded {d : α} {done : List (Fin n)} {f : Front α n}
    (h : Sweeping view start d done f) (hend : f.ready = []) (hd : view.delay start = .ok d)
    {v : Fin n} (hv : view.Demanded start v) : ∃ dv, view.delay v = .ok dv := by
  obtain ⟨region, hr⟩ := exists_isRegion view start
  have hoffered : ∀ v, (view.Feeds start v ∨ ∃ u ∈ done, v ∈ view.onward u) →
      ∃ dv, view.delay v = .ok dv := by
    intro v hv
    obtain ⟨a, ha⟩ := h.exists_arrival_of_edge hv
    exact (h.arrives hr ha).delay
  cases hv with
  | start => exact ⟨d, hd⟩
  | fed edge => exact hoffered v (.inl edge)
  | onward settled pass edge =>
      refine hoffered v (.inr ⟨_, (h.mem_done_iff hr hend _).mpr settled, ?_⟩)
      exact view.mem_onward.mpr ⟨pass, edge⟩

/-- A query fails only at a signal whose delay it demands. -/
theorem undelayed_of_error {s : Scratch α n} (hs : s.Tidy) {e : TimingError α}
    (he : (view.analyzeFrom s start).1 = .error e) :
    view.isStartpoint start = true ∧ ∃ v, view.Demanded start v ∧ view.delay v = .error e := by
  by_cases hstart : view.isStartpoint start = true
  · rw [analyzeFrom_of_startpoint hs hstart] at he
    exact ⟨hstart, (outcome_launchFrom view start).undelayed he⟩
  · rw [analyzeFrom_of_not_startpoint hs hstart] at he
    cases he

/-- A query that succeeds has read every delay that it demands, not only those on its paths. -/
theorem delay_of_ok {s : Scratch α n} (hs : s.Tidy) (hstart : view.isStartpoint start = true)
    {paths : List (TimingPath α)} (ok : (view.analyzeFrom s start).1 = .ok paths) {v : Fin n}
    (hv : view.Demanded start v) : ∃ d, view.delay v = .ok d := by
  obtain ⟨d, done, f, hd, hsweep, hend, -⟩ := exists_sweep_of_analyzeFrom hs hstart ok
  exact hsweep.delay_of_demanded hend hd hv

/-- The query for all startpoints fails as the query for some startpoint does. -/
theorem exists_start_of_analyzeAll_error {s : Scratch α n} (hs : s.Tidy) {e : TimingError α}
    (he : (view.analyzeAll s).1 = .error e) :
    ∃ start, view.isStartpoint start = true ∧ (view.analyzeFrom .fresh start).1 = .error e := by
  rw [analyzeAll_fst hs] at he
  cases hmap : view.startpoints.mapM fun start => (view.analyzeFrom .fresh start).1 with
  | error e' =>
      rw [hmap] at he
      obtain rfl : e' = e := Except.error.inj he
      obtain ⟨start, -, herr⟩ := exists_of_mapM_eq_error hmap
      exact ⟨start, (undelayed_of_error Scratch.tidy_fresh herr).1, herr⟩
  | ok lists =>
      rw [hmap] at he
      cases he

/-- It fails exactly if one of these does. -/
theorem analyzeAll_error_iff {s : Scratch α n} (hs : s.Tidy) :
    (∃ e, (view.analyzeAll s).1 = .error e) ↔
      ∃ start, view.isStartpoint start = true ∧ ∃ e, (view.analyzeFrom s start).1 = .error e := by
  simp only [hs.analyzeFrom_eq]
  constructor
  · rintro ⟨e, he⟩
    obtain ⟨start, hstart, herr⟩ := exists_start_of_analyzeAll_error hs he
    exact ⟨start, hstart, e, herr⟩
  · rintro ⟨start, hstart, e, he⟩
    rw [analyzeAll_fst hs]
    cases hmap : view.startpoints.mapM fun start => (view.analyzeFrom .fresh start).1 with
    | error e' => exact ⟨e', rfl⟩
    | ok lists =>
        -- the startpoint is one of the list, so its query answered
        have hmem : start ∈ view.startpoints := by
          rw [startpoints, List.mem_mergeSort, List.mem_filter]
          exact ⟨List.mem_finRange start, hstart⟩
        obtain ⟨i, hi, rfl⟩ := List.getElem_of_mem hmem
        have hall := forall₂_of_mapM_eq_ok hmap
        have hok := (hall.get hi (hall.length_eq ▸ hi)).2
        rw [List.get_eq_getElem, he] at hok
        cases hok

end Arrivals

end TimingView

/-! ### Queries on a netlist -/

namespace Netlist

section Arrivals

variable [Zero α] [Add α] [Sub α] [LT α] [DecidableLT α] {g : Netlist α}
variable {s : Scratch α g.internedSize} {start : Fin g.internedSize}

/-- The same by names, with the error that says why there is no delay. -/
theorem undelayed_of_analyzeFrom_error (hs : s.Tidy) {e : TimingError α}
    (he : (g.timingView.analyzeFrom s start).1 = .error e) :
    g.IsStartpoint (g.timingView.name start) ∧
      ∃ v, g.Demanded (g.timingView.name start) v ∧ g.Undelayed v e := by
  have hview := g.isViewOf_timingView
  obtain ⟨hstart, v, hv, hd⟩ := TimingView.undelayed_of_error hs he
  exact ⟨(isStartpoint_iff start).mp hstart, _, hview.demanded_name hv,
    hview.delay_eq_error_iff.mp hd⟩

/-- A query fails exactly if it is for a startpoint and demands a delay that is not there. -/
theorem analyzeFrom_error_iff (hs : s.Tidy) :
    (∃ e, (g.timingView.analyzeFrom s start).1 = .error e) ↔
      g.IsStartpoint (g.timingView.name start) ∧
        ∃ v e, g.Demanded (g.timingView.name start) v ∧ g.Undelayed v e := by
  have hview := g.isViewOf_timingView
  constructor
  · rintro ⟨e, he⟩
    obtain ⟨hstart, v, hv, hd⟩ := undelayed_of_analyzeFrom_error hs he
    exact ⟨hstart, v, e, hv, hd⟩
  · rintro ⟨hstart, v, e, hv, hd⟩
    cases hrun : (g.timingView.analyzeFrom s start).1 with
    | error e' => exact ⟨e', rfl⟩
    | ok paths =>
        obtain ⟨j, rfl, hj⟩ := hview.exists_demanded hv
        obtain ⟨d, hok⟩ :=
          TimingView.delay_of_ok hs ((isStartpoint_iff start).mpr hstart) hrun hj
        have herr := hview.delay_eq_error_iff.mpr hd
        rw [hok] at herr
        cases herr

end Arrivals

/-! ### The remark on the paths -/

theorem remarkedPaths_of_error {g : Netlist Float} {e : TimingError Float}
    (h : g.timingPaths = .error e) (seconds : Float) (remarks : List Diagnostic) :
    (ExceptT.run (Run.remarkedPaths g seconds)).run remarks = (.error (.timing e), remarks) := by
  unfold Run.remarkedPaths
  rw [h]
  rfl

theorem remarkedPaths_of_ok {g : Netlist Float} {paths : List (TimingPath Float)}
    (h : g.timingPaths = .ok paths) (seconds : Float) (remarks : List Diagnostic) :
    (ExceptT.run (Run.remarkedPaths g seconds)).run remarks =
      (.ok paths, remarks ++ [Run.pathsRemark paths.length seconds]) := by
  unfold Run.remarkedPaths
  rw [h]
  rfl

/-- A query fails exactly if it is for a startpoint and demands a delay that is not there, and its
failure names such a signal and what is wrong with it. The analysis of all paths fails exactly if
the query for some startpoint does, as one of them does; then it makes no remark, and otherwise one
on the number of paths. -/
theorem timing_fails_iff (g : Netlist Float) {marks : Scratch Float g.internedSize}
    (hmarks : g.timingView.Leftover marks) :
    (∀ start,
      ((∃ e, (g.timingView.analyzeFrom marks start).1 = .error e) ↔
        g.IsStartpoint (g.timingView.name start) ∧
          ∃ v e, g.Demanded (g.timingView.name start) v ∧ g.Undelayed v e) ∧
      (∀ e, (g.timingView.analyzeFrom marks start).1 = .error e →
        ∃ v, g.Demanded (g.timingView.name start) v ∧ g.Undelayed v e) ∧
      (¬ g.IsStartpoint (g.timingView.name start) →
        (g.timingView.analyzeFrom marks start).1 = .ok [])) ∧
    ∀ seconds remarks,
      let run := (ExceptT.run (Run.remarkedPaths g seconds)).run remarks
      ((∃ fault, run.1 = .error fault) ↔ ∃ start, g.IsStartpoint (g.timingView.name start) ∧
        ∃ e, (g.timingView.analyzeFrom marks start).1 = .error e) ∧
      (∀ fault, run.1 = .error fault → run.2 = remarks ∧
        ∃ start e, (g.timingView.analyzeFrom marks start).1 = .error e ∧ fault = .timing e) ∧
      ∀ paths, run.1 = .ok paths → run.2 = remarks ++ [Run.pathsRemark paths.length seconds] := by
  have htidy := hmarks.tidy
  refine ⟨fun start => ⟨analyzeFrom_error_iff htidy, fun e he => ?_, fun hstart => ?_⟩,
    fun seconds remarks => ?_⟩
  · exact (undelayed_of_analyzeFrom_error htidy he).2
  · rw [TimingView.analyzeFrom_of_not_startpoint htidy ((isStartpoint_iff start).not.mpr hstart)]
  · -- the marks do not matter, so the query of the run may be asked on fresh ones
    have hall : (∃ e, g.timingPaths = .error e) ↔
        ∃ start, g.IsStartpoint (g.timingView.name start) ∧
          ∃ e, (g.timingView.analyzeFrom marks start).1 = .error e := by
      simp only [htidy.analyzeFrom_eq, ← isStartpoint_iff]
      exact TimingView.analyzeAll_error_iff Scratch.tidy_fresh
    cases hpaths : g.timingPaths with
    | error e =>
        simp only [remarkedPaths_of_error hpaths]
        refine ⟨?_, fun fault hfault => ⟨trivial, ?_⟩, nofun⟩
        · rw [← hall]
          exact ⟨fun _ => ⟨e, hpaths⟩, fun _ => ⟨_, rfl⟩⟩
        · cases hfault
          obtain ⟨start, -, herr⟩ :=
            TimingView.exists_start_of_analyzeAll_error Scratch.tidy_fresh hpaths
          exact ⟨start, e, (congrArg Prod.fst (htidy.analyzeFrom_eq _ start)).trans herr, rfl⟩
    | ok paths =>
        simp only [remarkedPaths_of_ok hpaths]
        refine ⟨?_, nofun, fun paths' hpaths' => ?_⟩
        · rw [← hall, hpaths]
          exact ⟨nofun, nofun⟩
        · cases hpaths'
          rfl

/-- A register that feeds a gate, and two signals that nothing registers: the gate feeds one, and a
gate that feeds itself the other. -/
def unlinked : Netlist Float :=
  let node (name : String) (kind : NodeKind) (delay : Float) : Node Float :=
    ⟨name, kind, none, none, some delay, none, 0⟩
  { registry := .ofList [("l", node "l" .Operator 3), ("r", node "r" .Reg 1),
      ("x", node "x" .Operator 2)]
    fanout := .ofList [("l", ["l", "lost"]), ("r", ["x"]), ("x", ["l", "gone"])] }

/-- What fails the query is the signal that no loop leads to. -/
theorem timing_fails_unlinked :
    unlinked.timingView.Leftover .fresh ∧ ∃ start : Fin unlinked.internedSize,
      (unlinked.timingView.analyzeFrom .fresh start).1 = .error (.unknownNode "gone") ∧
        (∃ v e, unlinked.Demanded (unlinked.timingView.name start) v ∧ unlinked.Undelayed v e) ∧
        ∃ fault, (ExceptT.run (Run.remarkedPaths unlinked 0)).run [] = (.error fault, []) := by
  have hmarks : unlinked.timingView.Leftover .fresh := .fresh
  obtain ⟨hqueries, hall⟩ := unlinked.timing_fails_iff hmarks
  let start : Fin unlinked.internedSize := ⟨3, by decide +kernel⟩
  have hrun : (unlinked.timingView.analyzeFrom .fresh start).1 = .error (.unknownNode "gone") := by
    decide +kernel
  have hdemand := (hqueries start).1.mp ⟨_, hrun⟩
  obtain ⟨hfails, hquiet, -⟩ := hall 0 []
  obtain ⟨fault, hfault⟩ := hfails.mpr ⟨start, hdemand.1, _, hrun⟩
  exact ⟨hmarks, start, hrun, hdemand.2, fault, Prod.ext hfault (hquiet fault hfault).1⟩

end Netlist

end Presynth
