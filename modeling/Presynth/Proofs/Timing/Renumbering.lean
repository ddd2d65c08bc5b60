import Presynth.Proofs.Timing.Isolation
/-!
# Queries under other numbers

A query goes through numbered tables, but what it answers depends neither on the numbers nor on the
signals that it does not get to. Here two views are run side by side that hold the tables of one
netlist around a start, each in numbers of its own. Signals of one name are twins: in every state of
the two runs, twins have the same marks and stand at the same places of the same lists.

The runs take different numbers of steps at most, as many as there are signals; an ended sweep is
the same with more steps.

Main statements: `IsViewAround.exists_pending` (the edges counted are those of the names),
`ViewsAround.take` (one step of the sweeps), `ViewsAround.sweep` (as many steps of both) and
`ViewsAround.analyzeFrom_fst` (the answers are the same).
-/

namespace Presynth

variable {α : Type} {n m : Nat}

namespace Netlist

/-- `v` is `s` or is reached from it. -/
def Near (g : Netlist α) (s v : String) : Prop := v = s ∨ g.Reaches s v

/-- The names that paths go on to from `v`: what it feeds, unless it is an endpoint. -/
def onward (g : Netlist α) (v : String) : List String :=
  if g.IsEndpoint v then [] else g.neighbors v

theorem mem_onward {g : Netlist α} {u v : String} :
    v ∈ g.onward u ↔ ¬ g.IsEndpoint u ∧ g.Feeds u v := by
  unfold onward Feeds
  by_cases h : g.IsEndpoint u <;> simp [h]

end Netlist

namespace TimingView

/-! ### Views around a start -/

/-- Around a start, the tables of a view hold for every number what a netlist holds for its name. -/
structure IsViewAround (view : TimingView α n) (g : Netlist α) (start : Fin n) : Prop where
  /-- No name has two numbers. -/
  name_inj : view.name.Injective
  map_fanout : (view.fanout start).map view.name = g.neighbors (view.name start)
  map_onward : ∀ i, g.Reaches (view.name start) (view.name i) →
    (view.onward i).map view.name = g.onward (view.name i)
  stops_iff : ∀ i, g.Reaches (view.name start) (view.name i) →
    (view.Stops i ↔ g.IsEndpoint (view.name i))
  kind : ∀ i, g.Near (view.name start) (view.name i) → view.kind i = g.timingKind? (view.name i)
  delays : ∀ i, g.Near (view.name start) (view.name i) →
    view.delays.get i = (g.node? (view.name i)).map (·.delay)

theorem IsViewOf.map_onward {view : TimingView α n} {g : Netlist α} (h : view.IsViewOf g)
    (i : Fin n) : (view.onward i).map view.name = g.onward (view.name i) := by
  unfold Netlist.onward
  split
  · rename_i hstops
    rw [view.onward_of_stops ((h.stops_iff i).mpr hstops), List.map_nil]
  · rename_i hpass
    rw [view.onward_of_not_stops ((h.stops_iff i).not.mpr hpass), h.map_fanout]

namespace IsViewAround

variable {view : TimingView α n} {g : Netlist α} {start : Fin n}

/-- What is reached by number is reached by name, also where a view shows only what is around the
start. -/
theorem reaches_name (h : view.IsViewAround g start) {i : Fin n} (hi : view.Reaches start i) :
    g.Reaches (view.name start) (view.name i) := by
  obtain ⟨l, w⟩ := hi
  induction w using Walk.induction_on with
  | first v hf =>
      have hmem : view.name v ∈ (view.fanout start).map view.name := List.mem_map_of_mem hf
      rw [h.map_fanout] at hmem
      exact Reaches.of_feeds hmem
  | onward l u v w hu hf ih =>
      have hmem : view.name v ∈ (view.onward u).map view.name :=
        List.mem_map_of_mem (view.mem_onward.mpr ⟨hu, hf⟩)
      rw [h.map_onward u ih, Netlist.mem_onward] at hmem
      exact ih.onward hmem.1 hmem.2

/-- What is reached from a name with a number has a number. -/
theorem exists_reaches (h : view.IsViewAround g start) {v : String}
    (hv : g.Reaches (view.name start) v) : ∃ i, view.name i = v ∧ view.Reaches start i := by
  obtain ⟨l, w⟩ := hv
  induction w using Walk.induction_on with
  | first v hf =>
      rw [Netlist.Feeds, ← h.map_fanout] at hf
      obtain ⟨i, hi, hname⟩ := List.mem_map.mp hf
      exact ⟨i, hname, Reaches.of_feeds hi⟩
  | onward l u v w hu hf ih =>
      obtain ⟨i, rfl, hi⟩ := ih
      have hmem := Netlist.mem_onward.mpr ⟨hu, hf⟩
      rw [← h.map_onward i ⟨l, w⟩] at hmem
      obtain ⟨j, hj, hname⟩ := List.mem_map.mp hmem
      obtain ⟨hpass, hfeeds⟩ := view.mem_onward.mp hj
      exact ⟨j, hname, hi.onward hpass hfeeds⟩

/-- The edges that are counted around a start are those between the names reached, in whichever
order these were found. -/
theorem exists_pending (h : view.IsViewAround g start) :
    ∃ names : List String, names.Nodup ∧ (∀ v, v ∈ names ↔ g.Reaches (view.name start) v) ∧
      ∀ i, (view.collectRegion .fresh start).pending i =
        (g.neighbors (view.name start) ++ names.flatMap g.onward).count (view.name i) := by
  obtain ⟨region, hr⟩ := exists_isRegion view start
  refine ⟨region.map view.name, hr.nodup.map h.name_inj, fun v => ?_, fun i => ?_⟩
  · rw [List.mem_map]
    constructor
    · rintro ⟨i, hi, rfl⟩
      exact h.reaches_name ((hr.mem_iff i).mp hi)
    · intro hv
      obtain ⟨i, hname, hi⟩ := h.exists_reaches hv
      exact ⟨i, (hr.mem_iff i).mpr hi, hname⟩
  · have honward : (region.flatMap view.onward).map view.name =
        (region.map view.name).flatMap g.onward := by
      rw [List.map_flatMap, List.flatMap_map]
      exact List.flatMap_congr fun u hu =>
        h.map_onward u (h.reaches_name ((hr.mem_iff u).mp hu))
    rw [hr.pending, ← List.count_map_of_injective _ _ h.name_inj, List.map_append, h.map_fanout,
      honward]

end IsViewAround

/-- Two views of one netlist around one start, each in numbers of its own. -/
structure ViewsAround (g : Netlist α) (view : TimingView α n) (start : Fin n)
    (view' : TimingView α m) (start' : Fin m) : Prop where
  left : view.IsViewAround g start
  right : view'.IsViewAround g start'
  name : view.name start = view'.name start'

/-- Signals of one name, place by place. -/
abbrev Twins (view : TimingView α n) (view' : TimingView α m) :
    List (Fin n) → List (Fin m) → Prop :=
  List.Forall₂ fun i i' => view.name i = view'.name i'

theorem twins_iff {view : TimingView α n} {view' : TimingView α m} {l : List (Fin n)}
    {l' : List (Fin m)} : Twins view view' l l' ↔ l.map view.name = l'.map view'.name := by
  rw [← List.forall₂_eq_eq_eq, List.forall₂_map_left_iff, List.forall₂_map_right_iff]

/-- An arrival with the names of the signals on the way. -/
def named (view : TimingView α n) (a : Arrival α n) : α × List String :=
  (a.time, a.trail.map view.name)

/-- Twins have the same edges to be followed and arrivals of the same time along the same names. -/
structure SameMarks (view : TimingView α n) (view' : TimingView α m) (s : Scratch α n)
    (s' : Scratch α m) : Prop where
  pending : ∀ i i', view.name i = view'.name i' → s.pending i = s'.pending i'
  arrival : ∀ i i', view.name i = view'.name i' →
    (s.arrival? i).map view.named = (s'.arrival? i').map view'.named

/-- Two fronts with the same marks, on which twins became ready and were reached in the same order,
all of them reached from the start. -/
structure SameFront (g : Netlist α) (view : TimingView α n) (start : Fin n)
    (view' : TimingView α m) (f : Front α n) (f' : Front α m) : Prop where
  marks : SameMarks view view' f.scratch f'.scratch
  ready : Twins view view' f.ready f'.ready
  reached : Twins view view' f.reached f'.reached
  near_ready : ∀ u ∈ f.ready, g.Reaches (view.name start) (view.name u)
  near_reached : ∀ u ∈ f.reached, g.Reaches (view.name start) (view.name u)

section TwoViews

variable {g : Netlist α} {view : TimingView α n} {start : Fin n} {view' : TimingView α m}
variable {start' : Fin m} {s : Scratch α n} {s' : Scratch α m} {f : Front α n} {f' : Front α m}

/-! ### Twins -/

namespace ViewsAround

variable (h : ViewsAround g view start view' start') {i j : Fin n} {i' j' : Fin m}
include h

theorem eq_iff (hi : view.name i = view'.name i') (hj : view.name j = view'.name j') :
    i = j ↔ i' = j' := by
  rw [← h.left.name_inj.eq_iff, ← h.right.name_inj.eq_iff, hi, hj]

theorem delay_eq (hi : view.name i = view'.name i')
    (hnear : g.Near (view.name start) (view.name i)) : view.delay i = view'.delay i' := by
  have hdelays := h.left.delays i hnear
  rw [h.name, hi] at hnear
  unfold delay
  rw [hdelays, h.right.delays i' hnear, hi]

theorem kind_eq (hi : view.name i = view'.name i')
    (hnear : g.Near (view.name start) (view.name i)) : view.kind i = view'.kind i' := by
  have hkind := h.left.kind i hnear
  rw [h.name, hi] at hnear
  rw [hkind, h.right.kind i' hnear, hi]

theorem twins_fanout : Twins view view' (view.fanout start) (view'.fanout start') := by
  rw [twins_iff, h.left.map_fanout, h.right.map_fanout, h.name]

theorem twins_onward (hi : view.name i = view'.name i')
    (hnear : g.Reaches (view.name start) (view.name i)) :
    Twins view view' (view.onward i) (view'.onward i') := by
  have honward := h.left.map_onward i hnear
  rw [h.name, hi] at hnear
  rw [twins_iff, honward, h.right.map_onward i' hnear, hi]

theorem isEndpoint_eq (hi : view.name i = view'.name i')
    (hnear : g.Reaches (view.name start) (view.name i)) :
    view.isEndpoint i = view'.isEndpoint i' := by
  have hstops := h.left.stops_iff i hnear
  rw [h.name, hi] at hnear
  rw [hi, ← h.right.stops_iff i' hnear] at hstops
  exact Bool.eq_iff_iff.mpr hstops

theorem isStartpoint_eq : view.isStartpoint start = view'.isStartpoint start' := by
  have hempty : (view.fanout start).isEmpty = (view'.fanout start').isEmpty := by
    rw [← List.isEmpty_map, twins_iff.mp h.twins_fanout, List.isEmpty_map]
  unfold isStartpoint
  rw [hempty, h.kind_eq h.name (.inl rfl)]

/-! ### Marks -/

/-- An arrival that is set at signals of one name keeps the marks alike, since no other signals have
this name. -/
theorem sameMarks_setArrival (hs : SameMarks view view' s s') (hi : view.name i = view'.name i')
    {a : Arrival α n} {a' : Arrival α m} (ha : view.named a = view'.named a') :
    SameMarks view view' (s.setArrival (.signal i) a) (s'.setArrival (.signal i') a') where
  pending := fun j j' hj => by
    rw [Scratch.pending_setArrival, Scratch.pending_setArrival, hs.pending j j' hj]
  arrival := fun j j' hj => by
    rw [Scratch.arrival?_setArrival, Scratch.arrival?_setArrival]
    by_cases hij : i = j
    · rw [if_pos hij, if_pos ((h.eq_iff hi hj).mp hij), Option.map_some, Option.map_some, ha]
    · rw [if_neg hij, if_neg ((h.eq_iff hi hj).not.mp hij), hs.arrival j j' hj]

theorem sameMarks_followEdge (hs : SameMarks view view' s s') (hi : view.name i = view'.name i') :
    SameMarks view view' (s.followEdge i) (s'.followEdge i') where
  pending := fun j j' hj => by
    rw [Scratch.pending_followEdge, Scratch.pending_followEdge, hs.pending j j' hj]
    simp only [h.eq_iff hi hj]
  arrival := fun j j' hj => by
    rw [Scratch.arrival?_followEdge, Scratch.arrival?_followEdge, hs.arrival j j' hj]

/-- The collected edges are the same, though the searches may go through them in different
orders. -/
theorem collectRegion_pending (hi : view.name i = view'.name i') :
    (view.collectRegion .fresh start).pending i =
      (view'.collectRegion .fresh start').pending i' := by
  obtain ⟨names, hnodup, hmem, hpending⟩ := h.left.exists_pending
  obtain ⟨names', hnodup', hmem', hpending'⟩ := h.right.exists_pending
  have hperm : names.Perm names' := (List.perm_ext_iff_of_nodup hnodup hnodup').mpr fun v => by
    rw [hmem, hmem', h.name]
  rw [hpending, hpending', h.name, hi]
  exact ((hperm.flatMap_right _).append_left _).count_eq _

/-- A path is written in names and kinds, so it does not show the numbers. -/
theorem pathOf_eq {v : Fin n} {v' : Fin m} {a : Arrival α n} {a' : Arrival α m}
    (hv : view.name v = view'.name v') (hnear : g.Reaches (view.name start) (view.name v))
    (ha : view.named a = view'.named a') :
    view.pathOf start v a = view'.pathOf start' v' a' := by
  obtain ⟨htime, htrail⟩ := Prod.mk.inj ha
  unfold pathOf
  rw [h.name, hv, htime, List.map_reverse, List.map_reverse, htrail,
    h.kind_eq h.name (.inl rfl), h.kind_eq hv (.inr hnear)]

/-- Edges to twins that are followed make twins ready. -/
theorem sameFront_followEdges {vs : List (Fin n)} {vs' : List (Fin m)}
    (hvs : Twins view view' vs vs')
    (hnear : ∀ v ∈ vs, g.Reaches (view.name start) (view.name v))
    (hf : SameFront g view start view' f f') :
    SameFront g view start view' (followEdges vs f) (followEdges vs' f') := by
  -- on the pairs of twins; an edge to one of them is followed in both fronts
  induction hvs generalizing f f' with
  | nil => exact hf
  | @cons v v' vs vs' hv _ ih =>
      rw [followEdges_cons, followEdges_cons]
      have hmarks := h.sameMarks_followEdge hf.marks hv
      have hpending := hmarks.pending v v' hv
      refine ih (fun w hw => hnear w (List.mem_cons_of_mem _ hw)) ⟨hmarks, ?_, hf.reached, ?_,
        hf.near_reached⟩
      · dsimp only
        rw [hpending]
        split
        · exact List.rel_append hf.ready (.cons hv .nil)
        · exact hf.ready
      · dsimp only
        split
        · intro u hu
          rcases List.mem_append.mp hu with hu | hu
          · exact hf.near_ready u hu
          · exact hnear u (List.mem_singleton.mp hu ▸ List.mem_cons_self)
        · exact hf.near_ready

end ViewsAround

/-! ### Arrivals -/

theorem named_through [Add α] {a : Arrival α n} {a' : Arrival α m} {v : Fin n} {v' : Fin m}
    (hv : view.name v = view'.name v') (ha : view.named a = view'.named a') (d : α) :
    view.named (through a v d) = view'.named (through a' v' d) := by
  obtain ⟨htime, htrail⟩ := Prod.mk.inj ha
  simp only [named, through, List.map_cons, htime, htrail, hv]

theorem named_arrivalOf [Zero α] (hmarks : SameMarks view view' f.scratch f'.scratch) {u : Fin n}
    {u' : Fin m} (hu : view.name u = view'.name u') :
    view.named (arrivalOf f u) = view'.named (arrivalOf f' u') := by
  have harrival := hmarks.arrival u u' hu
  unfold arrivalOf
  match f.scratch.arrival? u, f'.scratch.arrival? u', harrival with
  | none, none, _ => rfl
  | some a, some a', ha => exact Option.some.inj ha

/-- The paths to what a sweep has reached. -/
def reachedPaths [Zero α] (view : TimingView α n) (start : Fin n) (f : Front α n) :
    List (TimingPath α) :=
  f.reached.map fun v => view.pathOf start v (arrivalOf f v)

/-- Endpoints that were reached in the same order give the same paths. -/
theorem ViewsAround.reachedPaths_eq [Zero α] (h : ViewsAround g view start view' start')
    (hf : SameFront g view start view' f f') :
    view.reachedPaths start f = view'.reachedPaths start' f' := by
  obtain ⟨hmarks, -, hreached, -, hnear⟩ := hf
  unfold reachedPaths
  generalize f.reached = l at hreached hnear
  generalize f'.reached = l' at hreached
  induction hreached with
  | nil => rfl
  | @cons v v' vs vs' hv _ ih =>
      rw [List.map_cons, List.map_cons, ih fun u hu => hnear u (List.mem_cons_of_mem _ hu),
        h.pathOf_eq hv (hnear v List.mem_cons_self) (named_arrivalOf hmarks hv)]

/-- Launching leaves no arrival at any signal, since the departure is marked at the launch. -/
theorem ViewsAround.sameMarks_launched [Zero α] [Add α]
    (h : ViewsAround g view start view' start') (d : α) :
    SameMarks view view' (view.launched start d) (view'.launched start' d) where
  pending := fun i i' hi => by
    simp only [launched, Scratch.pending_setArrival]
    exact h.collectRegion_pending hi
  arrival := fun i i' _ => by
    obtain ⟨region, hr⟩ := exists_isRegion view start
    obtain ⟨region', hr'⟩ := exists_isRegion view' start'
    simp only [launched, Scratch.arrival?_setArrival_launch]
    rw [Scratch.arrival?_eq, Scratch.arrival?_eq, hr.arrival, hr'.arrival]
    rfl

section Arrivals

variable [Add α] [Sub α] [LT α] [DecidableLT α] {a : Arrival α n} {a' : Arrival α m}

/-- Which of two arrivals is the later depends on their times alone, so the choice is the same. -/
theorem named_later {k : Option (Arrival α n)} {k' : Option (Arrival α m)} {v : Fin n} {v' : Fin m}
    (hk : k.map view.named = k'.map view'.named) (hv : view.name v = view'.name v')
    (ha : view.named a = view'.named a') (d : α) :
    view.named (later k a v d) = view'.named (later k' a' v' d) := by
  have hthrough := named_through hv ha d
  obtain ⟨htime, -⟩ := Prod.mk.inj ha
  match k, k', hk with
  | none, none, _ => exact hthrough
  | some k, some k', hk =>
      have hknown : view.named k = view'.named k' := Option.some.inj hk
      obtain ⟨hktime, -⟩ := Prod.mk.inj hknown
      unfold later
      dsimp only
      rw [hktime, htime]
      split
      · exact hthrough
      · exact hknown

namespace ViewsAround

variable (h : ViewsAround g view start view' start')
include h

/-- Offers to twins are accepted or fail alike. -/
theorem relaxAll {vs : List (Fin n)} {vs' : List (Fin m)} (hvs : Twins view view' vs vs')
    (hnear : ∀ v ∈ vs, g.Reaches (view.name start) (view.name v))
    (ha : view.named a = view'.named a') (hs : SameMarks view view' s s') :
    (view.relaxAll a vs s).1 = (view'.relaxAll a' vs' s').1 ∧
      SameMarks view view' (view.relaxAll a vs s).2 (view'.relaxAll a' vs' s').2 := by
  induction hvs generalizing s s' with
  | nil => exact ⟨rfl, hs⟩
  | @cons v v' vs vs' hv _ ih =>
      have hdelay := h.delay_eq hv (.inr (hnear v List.mem_cons_self))
      cases hd : view.delay v with
      | error e =>
          rw [relaxAll_cons_of_error hd, relaxAll_cons_of_error (hdelay ▸ hd)]
          exact ⟨rfl, hs⟩
      | ok d =>
          rw [relaxAll_cons_of_ok hd, relaxAll_cons_of_ok (hdelay ▸ hd)]
          refine ih (fun w hw => hnear w (List.mem_cons_of_mem _ hw)) ?_
          exact h.sameMarks_setArrival hs hv (named_later (hs.arrival v v' hv) hv ha d)

/-- Expanding two signals of one name keeps the fronts alike, and it fails in both views or in none.
-/
theorem expand {vs : List (Fin n)} {vs' : List (Fin m)} (hvs : Twins view view' vs vs')
    (hnear : ∀ v ∈ vs, g.Reaches (view.name start) (view.name v))
    (ha : view.named a = view'.named a') (hf : SameFront g view start view' f f') :
    (view.expand a vs f).1 = (view'.expand a' vs' f').1 ∧
      ((view.expand a vs f).1 = .ok () →
        SameFront g view start view' (view.expand a vs f).2 (view'.expand a' vs' f').2) := by
  obtain ⟨hfst, hmarks⟩ := h.relaxAll hvs hnear ha hf.marks
  rw [← expand_fst, ← expand_fst] at hfst
  refine ⟨hfst, fun ok => ?_⟩
  rw [expand_snd ok, expand_snd (hfst ▸ ok)]
  exact h.sameFront_followEdges hvs hnear { hf with marks := hmarks }

/-! ### The sweeps -/

variable [Zero α]

/-- Taking twins from the same fronts fails alike or leads to the same fronts. -/
theorem take (hf : SameFront g view start view' f f') {u : Fin n} {ready : List (Fin n)}
    {u' : Fin m} {ready' : List (Fin m)} (next : f.ready = u :: ready)
    (next' : f'.ready = u' :: ready') :
    (view.take f u ready).1 = (view'.take f' u' ready').1 ∧
      ((view.take f u ready).1 = .ok () →
        SameFront g view start view' (view.take f u ready).2 (view'.take f' u' ready').2) := by
  obtain ⟨hu, hready⟩ := List.forall₂_cons.mp (next ▸ next' ▸ hf.ready)
  have hnear := hf.near_ready u (next ▸ List.mem_cons_self)
  -- the heads of the ready lists are twins, so their arrivals and their edges are
  refine h.expand (h.twins_onward hu hnear) (fun v hv => ?_) (named_arrivalOf hf.marks hu)
    ⟨hf.marks, hready, ?_, fun v hv => hf.near_ready v (next ▸ List.mem_cons_of_mem _ hv), ?_⟩
  · have hmem : view.name v ∈ (view.onward u).map view.name := List.mem_map_of_mem hv
    rw [h.left.map_onward u hnear, Netlist.mem_onward] at hmem
    exact hnear.onward hmem.1 hmem.2
  · unfold taken
    dsimp only
    rw [h.isEndpoint_eq hu hnear]
    split
    · exact List.rel_append hf.reached (.cons hu .nil)
    · exact hf.reached
  · unfold taken
    dsimp only
    split
    · intro v hv
      rcases List.mem_append.mp hv with hv | hv
      · exact hf.near_reached v hv
      · exact List.mem_singleton.mp hv ▸ hnear
    · exact hf.near_reached

/-- So do as many steps from the same fronts. -/
theorem sweep (steps : Nat) (hf : SameFront g view start view' f f') :
    (view.sweep steps f).1 = (view'.sweep steps f').1 ∧
      ((view.sweep steps f).1 = .ok () →
        SameFront g view start view' (view.sweep steps f).2 (view'.sweep steps f').2) := by
  induction steps generalizing f f' with
  | zero => exact ⟨rfl, fun _ => hf⟩
  | succ steps ih =>
      cases hnext : f.ready with
      | nil =>
          have hnext' : f'.ready = [] := List.forall₂_nil_left_iff.mp (hnext ▸ hf.ready)
          rw [sweep_of_ready_nil hnext, sweep_of_ready_nil hnext']
          exact ⟨rfl, fun _ => hf⟩
      | cons u ready =>
          obtain ⟨u', ready', -, -, hnext'⟩ := List.forall₂_cons_left_iff.mp (hnext ▸ hf.ready)
          obtain ⟨hfst, hfront⟩ := h.take hf hnext hnext'
          cases hok : (view.take f u ready).1 with
          | error e =>
              rw [sweep_succ_of_error hnext hok, sweep_succ_of_error hnext' (hfst ▸ hok)]
              exact ⟨rfl, nofun⟩
          | ok _ =>
              rw [sweep_succ_of_ok hnext hok, sweep_succ_of_ok hnext' (hfst ▸ hok)]
              exact ih (hfront hok)

end ViewsAround

variable [Zero α]

/-- A sweep that has ended is the same with more steps. -/
theorem sweep_of_le {steps more : Nat} (hle : steps ≤ more)
    (hend : (view.sweep steps f).1 = .ok () → (view.sweep steps f).2.ready = []) :
    view.sweep more f = view.sweep steps f := by
  induction steps generalizing more f with
  | zero => exact sweep_of_ready_nil (hend rfl) more
  | succ steps ih =>
      obtain ⟨more, rfl⟩ := Nat.exists_eq_add_of_lt (Nat.lt_of_succ_le hle)
      cases hnext : f.ready with
      | nil => rw [sweep_of_ready_nil hnext, sweep_of_ready_nil hnext]
      | cons u ready =>
          cases hok : (view.take f u ready).1 with
          | error e => rw [sweep_succ_of_error hnext hok, sweep_succ_of_error hnext hok]
          | ok _ =>
              rw [sweep_succ_of_ok hnext hok] at hend ⊢
              rw [sweep_succ_of_ok hnext hok]
              exact ih (Nat.le_add_right steps more) hend

/-! ### The answers -/

/-- What a query for a start of delay `d` answers, if its sweep may take a number of steps. -/
def answerWithin (view : TimingView α n) (start : Fin n) (d : α) (steps : Nat) :
    Except (TimingError α) (List (TimingPath α)) :=
  match view.departed start d with
  | (.error e, _) => .error e
  | (.ok (), s) =>
    match view.sweep steps (followEdges (view.fanout start) ⟨s, [], []⟩) with
    | (.error e, _) => .error e
    | (.ok (), f) => .ok (view.reachedPaths start f)

/-- A query may as well take more steps than there are signals. -/
theorem launchFrom_fst {d : α} (hd : view.delay start = .ok d) {steps : Nat} (hle : n ≤ steps) :
    (view.launchFrom (view.collectRegion .fresh start) start).1 =
      view.answerWithin start d steps := by
  rw [launchFrom_of_delay hd, answerWithin]
  cases hdeparted : view.departed start d with
  | mk result s =>
      cases result with
      | error e => rfl
      | ok _ =>
          obtain ⟨done, f, hsweep, hrun⟩ := sweep_departed (congrArg Prod.fst hdeparted)
          rw [hdeparted] at hrun
          dsimp only at hrun ⊢
          rcases hrun with ⟨hend, hrun⟩ | ⟨u, ready, e, -, -, hrun⟩
          · rw [sweep_of_le hle (by rw [hrun]; exact fun _ => hend), hrun]
            dsimp only
            rw [pathsTo_eq fun v hv => hsweep.exists_arrives_of_reached hv]
            rfl
          · rw [sweep_of_le hle (by rw [hrun]; exact nofun), hrun]

namespace ViewsAround

variable (h : ViewsAround g view start view' start')
include h

theorem departed (d : α) :
    (view.departed start d).1 = (view'.departed start' d).1 ∧
      SameMarks view view' (view.departed start d).2 (view'.departed start' d).2 := by
  refine h.relaxAll h.twins_fanout (fun v hv => ?_) (named_through h.name rfl d)
    (h.sameMarks_launched d)
  exact h.left.reaches_name (Reaches.of_feeds hv)

theorem answerWithin_eq (d : α) (steps : Nat) :
    view.answerWithin start d steps = view'.answerWithin start' d steps := by
  obtain ⟨hfst, hmarks⟩ := h.departed d
  unfold answerWithin
  match view.departed start d, view'.departed start' d, hfst, hmarks with
  | (.error e, _), (.error _, _), rfl, _ => rfl
  | (.ok _, s), (.ok _, s'), _, hmarks =>
      have hlaunch : SameFront g view start view' (followEdges (view.fanout start) ⟨s, [], []⟩)
          (followEdges (view'.fanout start') ⟨s', [], []⟩) :=
        h.sameFront_followEdges h.twins_fanout
          (fun v hv => h.left.reaches_name (Reaches.of_feeds hv))
          ⟨hmarks, .nil, .nil, nofun, nofun⟩
      obtain ⟨hfst, hfront⟩ := h.sweep steps hlaunch
      dsimp only
      generalize view.sweep steps _ = r at hfst hfront ⊢
      generalize view'.sweep steps _ = r' at hfst hfront ⊢
      match r, r', hfst, hfront with
      | (.error e, _), (.error _, _), rfl, _ => rfl
      | (.ok _, f), (.ok _, f'), _, hfront => exact congrArg _ (h.reachedPaths_eq (hfront rfl))

/-- Twins give the same answers, whatever was asked before in either view. -/
theorem analyzeFrom_fst (hs : s.Tidy) (hs' : s'.Tidy) :
    (view.analyzeFrom s start).1 = (view'.analyzeFrom s' start').1 := by
  by_cases hstart : view.isStartpoint start = true
  · have hdelay := h.delay_eq h.name (.inl rfl)
    rw [analyzeFrom_of_startpoint hs hstart,
      analyzeFrom_of_startpoint hs' (h.isStartpoint_eq ▸ hstart)]
    cases hd : view.delay start with
    | error e => rw [launchFrom, launchFrom, finish_of_error hd, finish_of_error (hdelay ▸ hd)]
    | ok d =>
        -- as many steps as either view has signals end both sweeps
        rw [launchFrom_fst hd (Nat.le_max_left n m),
          launchFrom_fst (hdelay ▸ hd) (Nat.le_max_right n m), h.answerWithin_eq]
  · rw [analyzeFrom_of_not_startpoint hs hstart,
      analyzeFrom_of_not_startpoint hs' (h.isStartpoint_eq ▸ hstart)]

end ViewsAround

end Arrivals

end TwoViews

end TimingView

end Presynth
