import Mathlib.Data.Fintype.EquivFin
import Presynth.Proofs.Netlist.Numbering
import Presynth.Proofs.Walk
import Presynth.Timing.View
/-!
# What the numbered view says about names

Timing runs on numbers, but what it finds is about names. Here are the notions of timing on the
names of a netlist, and the proof that its view has the same ones on numbers: the same fanout lists,
endpoints, startpoints and delays, hence the same walks. Which name has which number does not matter
for that: `TimingView.IsViewOf` says what it takes, and the view of a netlist is one such view.

Main statements: `Netlist.isViewOf_timingView`, `IsViewOf.exists_walk` (the walks of a view are the
walks of the netlist), `IsViewOf.settled_iff` and `IsViewOf.delay_eq_error_iff`.
-/

namespace Presynth

variable {α : Type} {n : Nat}

/-! ### Timing notions on names -/

namespace Netlist

variable (g : Netlist α)

/-- Paths end at what feeds nothing and at what captures them. -/
def IsEndpoint (v : String) : Prop :=
  g.neighbors v = [] ∨ ∃ kind, g.timingKind? v = some kind ∧ kind.capturesPaths = true

/-- Paths start at what feeds something and launches them. -/
def IsStartpoint (s : String) : Prop :=
  g.neighbors s ≠ [] ∧ ∃ kind, g.timingKind? s = some kind ∧ kind.launchesPaths = true

instance : DecidablePred g.IsEndpoint := fun v =>
  decidable_of_iff (g.neighbors v = [] ∨ (g.timingKind? v).any NodeKind.capturesPaths = true) <| by
    rw [IsEndpoint, Option.any_eq_true]

instance : DecidablePred g.IsStartpoint := fun s =>
  decidable_of_iff (g.neighbors s ≠ [] ∧ (g.timingKind? s).any NodeKind.launchesPaths = true) <| by
    rw [IsStartpoint, Option.any_eq_true]

/-- A walk through signals that are no endpoints. -/
abbrev Walk : String → List String → String → Prop := Presynth.Walk g.Feeds g.IsEndpoint

/-- Some walk through signals that are no endpoints leads from one signal to another. -/
abbrev Reaches : String → String → Prop := Presynth.Reaches g.Feeds g.IsEndpoint

/-- A walk from one signal to another may get into a combinational loop. -/
abbrev BehindLoop : String → String → Prop := Presynth.BehindLoop g.Feeds g.IsEndpoint

/-- The signals whose arrival from another can be final: those that are reached, once all drivers
that walks pass are settled. -/
abbrev Settled : String → String → Prop := Presynth.Settled g.Feeds g.IsEndpoint

/-- The annotated delay of a registered signal. -/
def delay? (name : String) : Option α := (g.node? name).bind (·.delay)

/-- What is wrong with a signal that has no delay: it is not registered, or not annotated. -/
inductive Undelayed (v : String) : TimingError α → Prop where
  | unknown (h : g.node? v = none) : Undelayed v (.unknownNode v)
  | missing {node : Node α} (h : g.node? v = some node) (hd : node.delay = none) :
      Undelayed v (.missingDelay v)

variable {g}

/-- A slice has the kind of its father as it is stored, if the father is registered, and else its
own. -/
theorem timingKind?_of_node? {name : String} {node : Node α} (hnode : g.node? name = some node) :
    g.timingKind? name = some (if node.kind.isSlice then
      ((node.father.bind g.node?).map Node.kind).getD node.kind else node.kind) := by
  have hfather : g.father? name = node.father.bind g.node? := by
    rw [father?, hnode]
    rfl
  rw [timingKind?, hnode, Option.map_some, hfather]
  cases node.father.bind g.node? <;> rfl

end Netlist

/-! ### The same notions on numbers -/

namespace TimingView

variable (view : TimingView α n)

/-- `u` feeds `v`. -/
def Feeds (u v : Fin n) : Prop := v ∈ view.fanout u

/-- No path goes on at `u`. -/
def Stops (u : Fin n) : Prop := view.isEndpoint u = true

/-- A walk through signals that are no endpoints. -/
abbrev Walk : Fin n → List (Fin n) → Fin n → Prop := Presynth.Walk view.Feeds view.Stops

/-- Some walk through signals that are no endpoints leads from one signal to another. -/
abbrev Reaches : Fin n → Fin n → Prop := Presynth.Reaches view.Feeds view.Stops

/-- The signals whose arrival from `s` can be final. -/
abbrev Settled : Fin n → Fin n → Prop := Presynth.Settled view.Feeds view.Stops

/-- The signals that paths go on to from `u`: what it feeds, unless it is an endpoint. -/
def onward (u : Fin n) : List (Fin n) := if view.isEndpoint u then [] else view.fanout u

theorem mem_onward {u v : Fin n} : v ∈ view.onward u ↔ ¬ view.Stops u ∧ view.Feeds u v := by
  unfold onward Stops Feeds
  by_cases h : view.isEndpoint u <;> simp [h]

theorem onward_of_stops {u : Fin n} (h : view.Stops u) : view.onward u = [] := if_pos h

theorem onward_of_not_stops {u : Fin n} (h : ¬ view.Stops u) : view.onward u = view.fanout u :=
  if_neg h

end TimingView

/-! ### Views of a netlist -/

/-- The tables of a view hold for every number what a netlist holds for its name. -/
structure TimingView.IsViewOf (view : TimingView α n) (g : Netlist α) : Prop where
  /-- No name has two numbers. -/
  name_inj : view.name.Injective
  /-- A fanout list holds the numbers of the fanout list of the name. -/
  map_fanout : ∀ i, (view.fanout i).map view.name = g.neighbors (view.name i)
  kind : ∀ i, view.kind i = g.timingKind? (view.name i)
  delays : ∀ i, view.delays.get i = (g.node? (view.name i)).map (·.delay)

namespace TimingView.IsViewOf

variable {view : TimingView α n} {g : Netlist α}

theorem delay_eq_ok_iff (h : view.IsViewOf g) {i : Fin n} {d : α} :
    view.delay i = .ok d ↔ g.delay? (view.name i) = some d := by
  unfold TimingView.delay Netlist.delay?
  rw [h.delays]
  cases g.node? (view.name i) with
  | none => simp
  | some node => cases hd : node.delay <;> simp [hd]

/-- A view lacks the delays that the netlist lacks. -/
theorem delay_eq_error_iff (h : view.IsViewOf g) {i : Fin n} {e : TimingError α} :
    view.delay i = .error e ↔ g.Undelayed (view.name i) e := by
  unfold TimingView.delay
  rw [h.delays]
  cases hnode : g.node? (view.name i) with
  | none =>
      constructor
      · intro he
        cases he
        exact .unknown hnode
      · intro he
        cases he with
        | unknown => rfl
        | missing hsome => simp [hnode] at hsome
  | some node =>
      constructor
      · intro he
        cases hd : node.delay with
        | none =>
            simp only [Option.map_some, hd] at he
            cases he
            exact .missing hnode hd
        | some d => simp [hd] at he
      · intro he
        cases he with
        | unknown hnone => simp [hnode] at hnone
        | @missing node' hsome hd =>
            obtain rfl : node = node' := Option.some.inj (hnode.symm.trans hsome)
            simp [hd]

theorem feeds_iff (h : view.IsViewOf g) (i j : Fin n) :
    view.Feeds i j ↔ g.Feeds (view.name i) (view.name j) := by
  unfold TimingView.Feeds Netlist.Feeds
  rw [← h.map_fanout, List.mem_map_of_injective h.name_inj]

/-- What a name with a number feeds has a number. -/
theorem exists_name (h : view.IsViewOf g) {i : Fin n} {v : String}
    (hf : g.Feeds (view.name i) v) : ∃ j, view.name j = v := by
  rw [Netlist.Feeds, ← h.map_fanout] at hf
  obtain ⟨j, -, hj⟩ := List.mem_map.mp hf
  exact ⟨j, hj⟩

theorem stops_iff (h : view.IsViewOf g) (i : Fin n) :
    view.Stops i ↔ g.IsEndpoint (view.name i) := by
  unfold Stops isEndpoint Netlist.IsEndpoint
  rw [← h.map_fanout, h.kind]
  simp [Option.any_eq_true]

theorem isStartpoint_iff (h : view.IsViewOf g) (i : Fin n) :
    view.isStartpoint i = true ↔ g.IsStartpoint (view.name i) := by
  unfold isStartpoint Netlist.IsStartpoint
  rw [← h.map_fanout, h.kind]
  simp [Option.any_eq_true]

/-- The walks of a view are the walks of the netlist. -/
theorem walk_iff (h : view.IsViewOf g) {s e : Fin n} {l : List (Fin n)} :
    g.Walk (view.name s) (l.map view.name) (view.name e) ↔ view.Walk s l e :=
  Walk.map_iff h.feeds_iff h.stops_iff

/-- A walk of the netlist from a name with a number visits names with numbers only. -/
theorem exists_walk (h : view.IsViewOf g) {s : Fin n} {l : List String} {e : String}
    (w : g.Walk (view.name s) l e) :
    ∃ l' e', l = l'.map view.name ∧ e = view.name e' ∧ view.Walk s l' e' :=
  w.exists_map h.feeds_iff h.stops_iff fun _ _ => h.exists_name

theorem reaches_iff (h : view.IsViewOf g) {s e : Fin n} :
    g.Reaches (view.name s) (view.name e) ↔ view.Reaches s e :=
  Presynth.Reaches.map_iff h.name_inj h.feeds_iff h.stops_iff fun _ _ => h.exists_name

theorem settled_iff (h : view.IsViewOf g) {s e : Fin n} :
    g.Settled (view.name s) (view.name e) ↔ view.Settled s e :=
  Presynth.Settled.map_iff h.name_inj h.feeds_iff h.stops_iff fun _ _ => h.exists_name

end TimingView.IsViewOf

/-! ### The view of a netlist -/

namespace Netlist

theorem name_timingView_inj (g : Netlist α) {i j : Fin g.internedSize}
    (h : g.timingView.name i = g.timingView.name j) : i = j := g.numbering_name_inj h

/-- The fanout list of a number holds the numbers of the fanout list of its name. -/
theorem map_fanout_timingView (g : Netlist α) (i : Fin g.internedSize) :
    (g.timingView.fanout i).map g.timingView.name = g.neighbors (g.timingView.name i) := by
  have hfanout : g.timingView.fanout i =
      (g.neighbors (g.timingView.name i)).filterMap g.numbering.id? :=
    Vector.getElem_ofFn i.isLt
  rw [hfanout, List.map_filterMap]
  -- every name of the list has a number, which stands for it
  have hall : ∀ v ∈ g.neighbors (g.timingView.name i),
      (g.numbering.id? v).map g.timingView.name = some v := by
    intro v hv
    obtain ⟨j, hj⟩ := exists_numbering_name_of_mem_neighbors hv
    rw [numbering_id?_eq_some_iff.mpr hj]
    exact congrArg some hj
  rw [List.filterMap_congr hall, List.filterMap_some]

theorem kind_timingView (g : Netlist α) (i : Fin g.internedSize) :
    g.timingView.kind i = g.timingKind? (g.timingView.name i) :=
  Vector.getElem_ofFn i.isLt

/-- The tables that timing runs on are a view of the netlist. -/
theorem isViewOf_timingView (g : Netlist α) : g.timingView.IsViewOf g where
  name_inj := fun _ _ => g.name_timingView_inj
  map_fanout := g.map_fanout_timingView
  kind := g.kind_timingView
  delays := fun i => Vector.getElem_ofFn i.isLt

theorem delay_timingView_eq_ok_iff {g : Netlist α} {i : Fin g.internedSize} {d : α} :
    g.timingView.delay i = .ok d ↔ g.delay? (g.timingView.name i) = some d :=
  g.isViewOf_timingView.delay_eq_ok_iff

/-- Delays that the view has are those annotated. -/
theorem map_delay?_name {g : Netlist α} {l : List (Fin g.internedSize)} {ds : List α}
    (h : l.map g.timingView.delay = ds.map .ok) :
    (l.map g.timingView.name).map g.delay? = ds.map some := by
  induction l generalizing ds with
  | nil =>
      obtain rfl : ds = [] := List.map_eq_nil_iff.mp h.symm
      rfl
  | cons i l ih =>
      cases ds with
      | nil => exact absurd h (by simp)
      | cons d ds =>
          obtain ⟨hd, hl⟩ := List.cons_eq_cons.mp h
          rw [List.map_cons, List.map_cons, List.map_cons, ih hl,
            delay_timingView_eq_ok_iff.mp hd]

theorem feeds_name_iff {g : Netlist α} (i j : Fin g.internedSize) :
    g.timingView.Feeds i j ↔ g.Feeds (g.timingView.name i) (g.timingView.name j) :=
  g.isViewOf_timingView.feeds_iff i j

theorem stops_iff {g : Netlist α} (i : Fin g.internedSize) :
    g.timingView.Stops i ↔ g.IsEndpoint (g.timingView.name i) :=
  g.isViewOf_timingView.stops_iff i

theorem isStartpoint_iff {g : Netlist α} (i : Fin g.internedSize) :
    g.timingView.isStartpoint i = true ↔ g.IsStartpoint (g.timingView.name i) :=
  g.isViewOf_timingView.isStartpoint_iff i

/-- Startpoints are registered, so they have a number. -/
theorem IsStartpoint.exists_name {g : Netlist α} {s : String} (h : g.IsStartpoint s) :
    ∃ i, g.timingView.name i = s := by
  obtain ⟨-, kind, hkind, -⟩ := h
  obtain ⟨node, hnode, -⟩ := Option.map_eq_some_iff.mp hkind
  exact exists_numbering_name_of_node? hnode

theorem walk_name_iff {g : Netlist α} {s e : Fin g.internedSize} {l : List (Fin g.internedSize)} :
    g.Walk (g.timingView.name s) (l.map g.timingView.name) (g.timingView.name e) ↔
      g.timingView.Walk s l e :=
  g.isViewOf_timingView.walk_iff

/-- All that is fed has a name that is mentioned, so a walk between names never leaves the numbers.
-/
theorem exists_walk_of_name {g : Netlist α} {s : Fin g.internedSize} {l : List String} {e : String}
    (w : g.Walk (g.timingView.name s) l e) :
    ∃ l' e', l = l'.map g.timingView.name ∧ e = g.timingView.name e' ∧ g.timingView.Walk s l' e' :=
  g.isViewOf_timingView.exists_walk w

theorem reaches_name_iff {g : Netlist α} {s e : Fin g.internedSize} :
    g.Reaches (g.timingView.name s) (g.timingView.name e) ↔ g.timingView.Reaches s e :=
  g.isViewOf_timingView.reaches_iff

/-- The names that are reached are those of the numbers that are reached. -/
theorem reaches_iff_exists {g : Netlist α} {s : Fin g.internedSize} {u : String} :
    g.Reaches (g.timingView.name s) u ↔
      ∃ i, g.timingView.name i = u ∧ g.timingView.Reaches s i := by
  constructor
  · rintro ⟨l, w⟩
    obtain ⟨l', i, -, rfl, w'⟩ := exists_walk_of_name w
    exact ⟨i, rfl, l', w'⟩
  · rintro ⟨i, rfl, hi⟩
    exact reaches_name_iff.mpr hi

/-- What settles is what is reached without a loop on the way. -/
theorem settled_name_iff {g : Netlist α} {s e : Fin g.internedSize} :
    g.timingView.Settled s e ↔ g.Reaches (g.timingView.name s) (g.timingView.name e) ∧
      ¬ g.BehindLoop (g.timingView.name s) (g.timingView.name e) := by
  refine Presynth.settled_iff.trans ?_
  rw [reaches_name_iff, and_congr_right_iff, not_iff_not]
  intro _
  constructor
  · rintro ⟨c, hc, h₁, h₂, h₃⟩
    exact ⟨_, (stops_iff c).not.mp hc, reaches_name_iff.mpr h₁, reaches_name_iff.mpr h₂,
      reaches_name_iff.mpr h₃⟩
  · rintro ⟨c, hc, h₁, h₂, h₃⟩
    obtain ⟨c', rfl, h₁'⟩ := reaches_iff_exists.mp h₁
    exact ⟨c', (stops_iff c').not.mpr hc, h₁', reaches_name_iff.mp h₂, reaches_name_iff.mp h₃⟩

end Netlist

end Presynth
