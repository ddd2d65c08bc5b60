import Presynth.Proofs.Timing.Locality
import Presynth.Proofs.Timing.Longest
/-!
# The order of reports

Which signal becomes ready next is decided by the edges that are pending, and not by arrivals. So
the sweep takes the signals in the same order whatever their delays are, and netlists that differ in
delays only report paths of the same ends in the same order.

Main statements: `Sweeping.sameOrder` (as many steps of two sweeps take the same signals) and
`Netlist.SameButDelays.ends_eq`.
-/

namespace Presynth

variable {α : Type} {n : Nat}

namespace TimingView

/-! ### Sweeps with other delays -/

/-- The fronts are the same but for arrivals. -/
structure SameOrder (f f' : Front α n) : Prop where
  pending : ∀ v, f.scratch.pending v = f'.scratch.pending v
  ready : f.ready = f'.ready
  reached : f.reached = f'.reached

/-- Which signals become ready, and when, depends on the counts alone and not on the arrivals. -/
theorem SameOrder.followEdges {f f' : Front α n} (h : SameOrder f f') (vs : List (Fin n)) :
    SameOrder (followEdges vs f) (followEdges vs f') := by
  induction vs generalizing f f' with
  | nil => exact h
  | cons v vs ih =>
      rw [followEdges_cons, followEdges_cons]
      have hpending : ∀ w,
          (f.scratch.followEdge v).pending w = (f'.scratch.followEdge v).pending w := by
        intro w
        rw [Scratch.pending_followEdge, Scratch.pending_followEdge, h.pending]
      exact ih ⟨hpending, by simp only [hpending, h.ready], h.reached⟩

section Arrivals

variable [Add α] [Sub α] [LT α] [DecidableLT α] {view view' : TimingView α n} {start : Fin n}

/-- Expanding goes the same way, whatever is offered. -/
theorem SameOrder.expand {f f' : Front α n} (h : SameOrder f f') {vs : List (Fin n)}
    {a a' : Arrival α n} (ok : (view.expand a vs f).1 = .ok ())
    (ok' : (view'.expand a' vs f').1 = .ok ()) :
    SameOrder (view.expand a vs f).2 (view'.expand a' vs f').2 := by
  have hoffered : SameOrder { f with scratch := (view.relaxAll a vs f.scratch).2 }
      { f' with scratch := (view'.relaxAll a' vs f'.scratch).2 } :=
    ⟨fun v => by rw [relaxAll_pending, relaxAll_pending, h.pending], h.ready, h.reached⟩
  rw [expand_snd ok, expand_snd ok']
  exact hoffered.followEdges vs

variable [Zero α] {delays : Vector (Option (Option α)) n} {d d' : α}

/-- The front begins with the same signals, whatever their delays are. -/
theorem sameOrder_launch (ok : (view.launch start d).1 = .ok ())
    (ok' : ((view.withDelays delays).launch start d').1 = .ok ()) :
    SameOrder (view.launch start d).2 ((view.withDelays delays).launch start d').2 := by
  have hlaunched : SameOrder (⟨view.launched start d, [], []⟩ : Front α n)
      ⟨(view.withDelays delays).launched start d', [], []⟩ := by
    refine ⟨fun v => ?_, rfl, rfl⟩
    simp only [launched, Scratch.pending_setArrival, collectRegion_withDelays]
  exact hlaunched.expand ok ok'

theorem SameOrder.take {f f' : Front α n} (h : SameOrder f f') {u : Fin n} {ready : List (Fin n)}
    (ok : (view.take f u ready).1 = .ok ())
    (ok' : ((view.withDelays delays).take f' u ready).1 = .ok ()) :
    SameOrder (view.take f u ready).2 ((view.withDelays delays).take f' u ready).2 := by
  have htaken : SameOrder (view.taken f u ready) ((view.withDelays delays).taken f' u ready) := by
    refine ⟨h.pending, rfl, ?_⟩
    simp only [taken, h.reached]
    rfl
  exact htaken.expand ok ok'

/-- With other delays, as many steps take the same signals. -/
theorem Sweeping.sameOrder {done done' : List (Fin n)} {f f' : Front α n}
    (h : Sweeping view start d done f)
    (h' : Sweeping (view.withDelays delays) start d' done' f')
    (hlength : done.length = done'.length) : done = done' ∧ SameOrder f f' := by
  induction h generalizing done' f' with
  | launch ok =>
      cases h' with
      | launch ok' => exact ⟨rfl, sameOrder_launch ok ok'⟩
      | take => simp at hlength
  | @take done f u ready before next ok ih =>
      cases h' with
      | launch => simp at hlength
      | @take done' f' u' ready' before' next' ok' =>
          obtain ⟨rfl, hsame⟩ := ih before' (by simpa using hlength)
          obtain ⟨rfl, rfl⟩ := List.cons_eq_cons.mp (next.symm.trans (hsame.ready.trans next'))
          exact ⟨rfl, hsame.take ok ok'⟩

/-- With other delays, a query reports paths of the same ends in the same order. -/
theorem ends_withDelays {s s' : Scratch α n} (hs : s.Tidy) (hs' : s'.Tidy)
    {paths paths' : List (TimingPath α)} (ok : (view.analyzeFrom s start).1 = .ok paths)
    (ok' : ((view.withDelays delays).analyzeFrom s' start).1 = .ok paths') :
    paths.map TimingPath.ends = paths'.map TimingPath.ends := by
  by_cases hstart : view.isStartpoint start = true
  · have hstart' : (view.withDelays delays).isStartpoint start = true := hstart
    obtain ⟨d, done, f, hd, hsweep, hready, rfl⟩ := exists_sweep_of_analyzeFrom hs hstart ok
    obtain ⟨d', done', f', hd', hsweep', hready', rfl⟩ :=
      exists_sweep_of_analyzeFrom hs' hstart' ok'
    obtain ⟨region, hr⟩ := exists_isRegion view start
    obtain ⟨region', hr'⟩ := exists_isRegion (view.withDelays delays) start
    -- both sweeps have taken the settled signals
    have hperm : done.Perm done' := by
      refine (List.perm_ext_iff_of_nodup (List.nodup_append.mp (hsweep.swept hr).nodup).1
        (List.nodup_append.mp (hsweep'.swept hr').nodup).1).mpr fun v => ?_
      exact (hsweep.mem_done_iff hr hready v).trans (hsweep'.mem_done_iff hr' hready' v).symm
    obtain ⟨-, hsame⟩ := hsweep.sameOrder hsweep' hperm.length_eq
    rw [← hsame.reached, List.map_map, List.map_map]
    refine List.map_congr_left fun v hv => ?_
    obtain ⟨a, ha, harr⟩ := hsweep.exists_arrives_of_reached hv
    obtain ⟨a', ha', harr'⟩ := hsweep'.exists_arrives_of_reached (hsame.reached ▸ hv)
    rw [Function.comp_apply, Function.comp_apply, arrivalOf_eq ha, arrivalOf_eq ha',
      harr.ends_pathOf hd, harr'.ends_pathOf hd']
    rfl
  · have hstart' : ¬ (view.withDelays delays).isStartpoint start = true := hstart
    rw [analyzeFrom_of_not_startpoint hs hstart] at ok
    rw [analyzeFrom_of_not_startpoint hs' hstart'] at ok'
    exact Except.ok.inj ok ▸ Except.ok.inj ok' ▸ rfl

end Arrivals

end TimingView

/-! ### Netlists with other delays -/

/-- A node without its delay. -/
def Node.undelayed (node : Node α) : Node α := { node with delay := none }

namespace Netlist

/-- Two netlists differ in the delays of their nodes only. -/
structure SameButDelays (g g' : Netlist α) : Prop where
  fanout : g.fanout = g'.fanout
  node : ∀ name, (g.node? name).map Node.undelayed = (g'.node? name).map Node.undelayed

variable {g g' : Netlist α}

/-- Whatever is no delay is the same. -/
theorem SameButDelays.map_eq {β : Type} (h : g.SameButDelays g') {f : Node α → β}
    (hf : ∀ node : Node α, f node.undelayed = f node) (name : String) :
    (g.node? name).map f = (g'.node? name).map f := by
  have hmap := congrArg (Option.map f) (h.node name)
  rw [Option.map_map, Option.map_map] at hmap
  have hcomp : f ∘ Node.undelayed = f := funext hf
  rwa [hcomp] at hmap

theorem SameButDelays.timingKind?_eq (h : g.SameButDelays g') (name : String) :
    g.timingKind? name = g'.timingKind? name := by
  have hfather : ∀ father : Option String,
      (father.bind g.node?).map Node.kind = (father.bind g'.node?).map Node.kind := by
    rintro (_ | father)
    · rfl
    · exact h.map_eq (fun _ => rfl) father
  have hnode := h.map_eq (f := fun node => (node.kind, node.father)) (fun _ => rfl) name
  cases hg : g.node? name with
  | none =>
      rw [hg] at hnode
      have hg' : g'.node? name = none := Option.map_eq_none_iff.mp hnode.symm
      rw [timingKind?, timingKind?, hg, hg']
      rfl
  | some node =>
      rw [hg] at hnode
      obtain ⟨node', hg', hsame⟩ := Option.map_eq_some_iff.mp hnode.symm
      obtain ⟨hkind, hname⟩ := Prod.mk.inj hsame
      rw [timingKind?_of_node? hg, timingKind?_of_node? hg', hfather, hkind, hname]

theorem SameButDelays.neighbors_eq (h : g.SameButDelays g') (u : String) :
    g.neighbors u = g'.neighbors u := by
  rw [neighbors, neighbors, h.fanout]

theorem SameButDelays.sameWalks (h : g.SameButDelays g') : g.SameWalks g' :=
  ⟨fun u v => by rw [Feeds, Feeds, h.neighbors_eq], h.timingKind?_eq⟩

/-- The delays of a netlist by the numbers of another. -/
def delaysOn (g' : Netlist α) (view : TimingView α n) : Vector (Option (Option α)) n :=
  Vector.ofFn fun i => (g'.node? (view.name i)).map (·.delay)

/-- With the delays of the other netlist, the tables of one are a view of the other. -/
theorem SameButDelays.isViewOf (h : g.SameButDelays g') :
    (g.timingView.withDelays (g'.delaysOn g.timingView)).IsViewOf g' where
  name_inj := fun _ _ => g.name_timingView_inj
  map_fanout := fun i => (g.map_fanout_timingView i).trans (h.neighbors_eq _)
  kind := fun i => (g.kind_timingView i).trans (h.timingKind?_eq _)
  delays := fun i => Vector.getElem_ofFn i.isLt

/-- Netlists with the same walks have the same startpoints. -/
theorem SameWalks.startpoints_eq (h : g.SameWalks g') :
    g.timingView.startpoints.map g.timingView.name =
      g'.timingView.startpoints.map g'.timingView.name := by
  have hlt := g.startpoints_name_pairwise
  have hlt' := g'.startpoints_name_pairwise
  have hperm := (List.perm_ext_iff_of_nodup (hlt.imp String.ne_of_lt)
    (hlt'.imp String.ne_of_lt)).mpr fun s => by
      rw [mem_startpoints_name, mem_startpoints_name, h.isStartpoint_iff]
  exact hperm.eq_of_pairwise
    (fun a b _ _ hab hba => absurd (String.lt_trans hab hba) (String.lt_irrefl a)) hlt hlt'

variable [Zero α] [Add α] [Sub α] [LT α] [DecidableLT α]

/-- From the same startpoint, paths of the same ends are reported in the same order. -/
theorem SameButDelays.ends_eq_of_analyzeFrom (h : g.SameButDelays g') {start : Fin g.internedSize}
    {start' : Fin g'.internedSize} (hname : g.timingView.name start = g'.timingView.name start')
    {paths paths' : List (TimingPath α)}
    (ok : (g.timingView.analyzeFrom .fresh start).1 = .ok paths)
    (ok' : (g'.timingView.analyzeFrom .fresh start').1 = .ok paths') :
    paths.map TimingPath.ends = paths'.map TimingPath.ends := by
  rw [← (AgreesAround.refl g' _).analyzeFrom_fst h.isViewOf g'.isViewOf_timingView
    Scratch.tidy_fresh Scratch.tidy_fresh hname rfl] at ok'
  exact TimingView.ends_withDelays Scratch.tidy_fresh Scratch.tidy_fresh ok ok'

/-- Paths are reported startpoint by startpoint. -/
theorem exists_lists_of_timingPaths {paths : List (TimingPath α)} (ok : g.timingPaths = .ok paths) :
    ∃ lists, paths = lists.flatten ∧ List.Forall₂
      (fun s list => ∃ start, g.timingView.name start = s ∧
        (g.timingView.analyzeFrom .fresh start).1 = .ok list)
      (g.timingView.startpoints.map g.timingView.name) lists := by
  rw [timingPaths, TimingView.analyzeAll_fst Scratch.tidy_fresh] at ok
  obtain ⟨lists, hlists, rfl⟩ := exists_of_map_eq_ok ok
  refine ⟨lists, rfl, ?_⟩
  rw [List.forall₂_map_left_iff]
  exact (forall₂_of_mapM_eq_ok hlists).imp fun start list hrun => ⟨start, rfl, hrun.2⟩

/-- Netlists that differ in delays only report paths of the same ends in the same order. -/
theorem SameButDelays.ends_eq (h : g.SameButDelays g') {paths paths' : List (TimingPath α)}
    (ok : g.timingPaths = .ok paths) (ok' : g'.timingPaths = .ok paths') :
    paths.map TimingPath.ends = paths'.map TimingPath.ends := by
  obtain ⟨lists, rfl, hlists⟩ := exists_lists_of_timingPaths ok
  obtain ⟨lists', rfl, hlists'⟩ := exists_lists_of_timingPaths ok'
  clear ok ok'
  rw [← h.sameWalks.startpoints_eq] at hlists'
  generalize g.timingView.startpoints.map g.timingView.name = starts at hlists hlists'
  induction hlists generalizing lists' with
  | nil =>
      cases hlists'
      rfl
  | cons hrun _ ih =>
      obtain ⟨start, rfl, hlist⟩ := hrun
      cases hlists' with
      | cons hrun' hrest' =>
          obtain ⟨start', hname, hlist'⟩ := hrun'
          rw [List.flatten_cons, List.flatten_cons, List.map_append, List.map_append,
            h.ends_eq_of_analyzeFrom hname.symm hlist hlist', ih _ hrest']

end Netlist

end Presynth
