import Presynth.Proofs.Timing.Renumbering
import Presynth.Quantity
/-!
# Timing is local

What a query answers is decided by the signals that walks from its start get to: by their kinds
and delays, by what those of them feed that are no endpoints, and by whether the endpoints feed
anything. So two netlists that agree there give the same paths in the same order, or the same
failure, whatever else they hold and whatever numbers their signals have.

Main statements: `Netlist.AgreesAround.isViewAround` (where netlists agree, the tables of one hold
what the other does) and `Netlist.analyzeFrom_local`.
-/

namespace Presynth

variable {α : Type} {n m : Nat}

namespace Netlist

/-- Two netlists are the same as far as walks from `s` get in the first. -/
structure AgreesAround (g : Netlist α) (s : String) (g' : Netlist α) : Prop where
  kind : ∀ v, g.Near s v → g.timingKind? v = g'.timingKind? v
  /-- Both do not register the signal, or both have no delay for it, or the same. -/
  delay : ∀ v, g.Near s v → (g.node? v).map (·.delay) = (g'.node? v).map (·.delay)
  start : g.neighbors s = g'.neighbors s
  fanout : ∀ v, g.Near s v → ¬ g.IsEndpoint v → g.neighbors v = g'.neighbors v
  /-- What an endpoint feeds may differ, but not whether it feeds anything. -/
  bare : ∀ v, g.Near s v → g.IsEndpoint v → (g.neighbors v = [] ↔ g'.neighbors v = [])

/-- Near `s` is nothing else than what is in a list that walks from `s` do not leave. -/
theorem Near.mem_of_closed {g : Netlist α} {s v : String} {l : List String} (h : g.Near s v)
    (hs : s ∈ l) (hfed : ∀ v ∈ g.neighbors s, v ∈ l)
    (honward : ∀ u ∈ l, ∀ v ∈ g.onward u, v ∈ l) : v ∈ l := by
  rcases h with rfl | ⟨between, w⟩
  · exact hs
  · -- along the walk: it starts within the list, and no signal of the list leads out of it
    induction w using Walk.induction_on with
    | first v hf => exact hfed v hf
    | onward between u v w hu hf ih => exact honward u ih v (mem_onward.mpr ⟨hu, hf⟩)

namespace AgreesAround

variable {g g' : Netlist α} {s : String}

/-- Whether a signal is an endpoint depends on its kind and on whether it feeds anything, and both
agree around the start. -/
theorem isEndpoint_iff (h : g.AgreesAround s g') {v : String} (hv : g.Near s v) :
    g.IsEndpoint v ↔ g'.IsEndpoint v := by
  have hbare : g.neighbors v = [] ↔ g'.neighbors v = [] := by
    by_cases hend : g.IsEndpoint v
    · exact h.bare v hv hend
    · rw [h.fanout v hv hend]
  unfold IsEndpoint
  rw [hbare, h.kind v hv]

theorem onward_eq (h : g.AgreesAround s g') {v : String} (hv : g.Near s v) :
    g.onward v = g'.onward v := by
  unfold onward
  by_cases hend : g.IsEndpoint v
  · rw [if_pos hend, if_pos ((h.isEndpoint_iff hv).mp hend)]
  · rw [if_neg hend, if_neg ((h.isEndpoint_iff hv).not.mp hend), h.fanout v hv hend]

/-- The tables of one netlist hold what the other one does around a start. -/
theorem isViewAround (h : g.AgreesAround s g') {view : TimingView α n} (hview : view.IsViewOf g')
    {start : Fin n} (hstart : view.name start = s) : view.IsViewAround g start where
  name_inj := hview.name_inj
  map_fanout := by rw [hview.map_fanout, hstart, h.start]
  map_onward := fun i hi => by rw [hview.map_onward, h.onward_eq (.inr (hstart ▸ hi))]
  stops_iff := fun i hi => by rw [hview.stops_iff, h.isEndpoint_iff (.inr (hstart ▸ hi))]
  kind := fun i hi => by rw [hview.kind, h.kind _ (hstart ▸ hi)]
  delays := fun i hi => by rw [hview.delays, h.delay _ (hstart ▸ hi)]

theorem refl (g : Netlist α) (s : String) : g.AgreesAround s g :=
  ⟨fun _ _ => rfl, fun _ _ => rfl, rfl, fun _ _ _ => rfl, fun _ _ _ => Iff.rfl⟩

variable [Zero α] [Add α] [Sub α] [LT α] [DecidableLT α]

/-- Two netlists that agree around a start are seen alike from it, so the answers are the same,
although the numbers of the signals need not be. -/
theorem analyzeFrom_fst (h : g.AgreesAround s g') {view : TimingView α n} {view' : TimingView α m}
    (hview : view.IsViewOf g) (hview' : view'.IsViewOf g') {marks : Scratch α n}
    {marks' : Scratch α m} (hmarks : marks.Tidy) (hmarks' : marks'.Tidy) {start : Fin n}
    {start' : Fin m} (hstart : view.name start = s) (hstart' : view'.name start' = s) :
    (view.analyzeFrom marks start).1 = (view'.analyzeFrom marks' start').1 := by
  have htwins : TimingView.ViewsAround g view start view' start' :=
    ⟨(refl g s).isViewAround hview hstart, h.isViewAround hview' hstart',
      hstart.trans hstart'.symm⟩
  exact htwins.analyzeFrom_fst hmarks hmarks'

end AgreesAround

/-- Netlists that agree around a signal answer a query for it alike, with the same paths in the same
order or with the same failure. This depends neither on how their signals are numbered nor on what
was asked before. -/
theorem analyzeFrom_local [Zero α] [Add α] [Sub α] [LT α] [DecidableLT α] {g g' : Netlist α}
    {s : String} (agree : g.AgreesAround s g') :
    (∀ marks marks', g.timingView.Leftover marks → g'.timingView.Leftover marks' →
      ∀ start start', g.timingView.name start = s → g'.timingView.name start' = s →
        (g.timingView.analyzeFrom marks start).1 = (g'.timingView.analyzeFrom marks' start').1) ∧
    ∀ {n m : Nat} (view : TimingView α n) (view' : TimingView α m),
      view.IsViewOf g → view'.IsViewOf g' →
      ∀ marks marks', view.Leftover marks → view'.Leftover marks' →
      ∀ start start', view.name start = s → view'.name start' = s →
        (view.analyzeFrom marks start).1 = (view'.analyzeFrom marks' start').1 := by
  constructor
  · intro marks marks' hmarks hmarks' start start' hstart hstart'
    exact agree.analyzeFrom_fst g.isViewOf_timingView g'.isViewOf_timingView hmarks.tidy
      hmarks'.tidy hstart hstart'
  · intro n m view view' hview hview' marks marks' hmarks hmarks' start start' hstart hstart'
    exact agree.analyzeFrom_fst hview hview' hmarks.tidy hmarks'.tidy hstart hstart'

/-- A register that a gate passes on to a second one, which feeds the gate in turn. -/
def relayed : Netlist Float :=
  let node (name : String) (kind : NodeKind) (delay : Float) : Node Float :=
    ⟨name, kind, none, none, some delay, none, 0⟩
  { registry := .ofList
      [("q", node "q" .Reg 1), ("r", node "r" .Reg 1), ("x", node "x" .Operator 2)]
    fanout := .ofList [("q", ["x"]), ("r", ["x"]), ("x", ["q"])] }

/-- The same, but that the second register feeds something else, and that there is more to it. -/
def rewired : Netlist Float :=
  { registry := (relayed.registry.insert "a" ⟨"a", .Input, none, none, none, none, 0⟩)
    fanout := .ofList [("a", ["b", "x", "r"]), ("q", ["c", "d"]), ("r", ["x"]), ("x", ["q"])] }

/-- A netlist and one in which everything that is not reached was changed, so that even the number
of the start is another. -/
theorem analyzeFrom_local_rewired :
    relayed.AgreesAround "r" rewired ∧ ∃ (start : Fin relayed.internedSize)
      (start' : Fin rewired.internedSize), start.val ≠ start'.val ∧
        (relayed.timingView.analyzeFrom .fresh start).1 =
            .ok [⟨"r", "q", ["r", "x", "q"], 4, .RegToReg⟩] ∧
          (rewired.timingView.analyzeFrom .fresh start').1 =
            .ok [⟨"r", "q", ["r", "x", "q"], 4, .RegToReg⟩] := by
  have hnear : ∀ v, relayed.Near "r" v → v ∈ ["r", "x", "q"] := fun v hv =>
    hv.mem_of_closed (by decide) (by decide +kernel) (by decide +kernel)
  have agree : relayed.AgreesAround "r" rewired :=
    { kind := fun v hv => (by decide +kernel : ∀ v ∈ ["r", "x", "q"],
        relayed.timingKind? v = rewired.timingKind? v) v (hnear v hv)
      delay := fun v hv => (by decide +kernel : ∀ v ∈ ["r", "x", "q"],
        (relayed.node? v).map (·.delay) = (rewired.node? v).map (·.delay)) v (hnear v hv)
      start := by decide +kernel
      fanout := fun v hv => (by decide +kernel : ∀ v ∈ ["r", "x", "q"], ¬ relayed.IsEndpoint v →
        relayed.neighbors v = rewired.neighbors v) v (hnear v hv)
      bare := fun v hv => (by decide +kernel : ∀ v ∈ ["r", "x", "q"], relayed.IsEndpoint v →
        (relayed.neighbors v = [] ↔ rewired.neighbors v = [])) v (hnear v hv) }
  have hrun : (relayed.timingView.analyzeFrom .fresh ⟨1, by decide +kernel⟩).1 =
      .ok [⟨"r", "q", ["r", "x", "q"], 4, .RegToReg⟩] := by decide +kernel
  have hsame := (analyzeFrom_local agree).1 .fresh .fresh .fresh .fresh
    ⟨1, by decide +kernel⟩ ⟨5, by decide +kernel⟩ (by decide +kernel) (by decide +kernel)
  exact ⟨agree, _, _, by decide, hrun, hsame ▸ hrun⟩

end Netlist

end Presynth
