import Presynth.Netlist.Interning
import Presynth.Timing.Error
/-!
# The numbered view of a netlist

What timing reads of a netlist, in tables over the numbers of its signals: delays, the kinds by
which paths start and end, and fanout lists.
-/

namespace Presynth

variable {α : Type} {n : Nat}

/-- The tables of a netlist with `n` signals. -/
structure TimingView (α : Type) (n : Nat) where
  numbering : Numbering n
  /-- Nothing for a signal that is not registered, else its delay, if it has one. -/
  delays : Vector (Option (Option α)) n
  /-- The kind by which a signal starts and ends paths. -/
  kinds : Vector (Option NodeKind) n
  /-- The signals that a signal feeds, in order and with repetitions. -/
  fanouts : Vector (List (Fin n)) n

/-- The tables of a netlist. -/
def Netlist.timingView (g : Netlist α) : TimingView α g.internedSize :=
  let numbering := g.numbering
  { numbering
    delays := Vector.ofFn fun i => (g.node? (numbering.name i)).map (·.delay)
    kinds := Vector.ofFn fun i => g.timingKind? (numbering.name i)
    fanouts := Vector.ofFn fun i => (g.neighbors (numbering.name i)).filterMap numbering.id? }

namespace TimingView

variable (view : TimingView α n)

/-- The name of a signal. -/
def name (i : Fin n) : String := view.numbering.name i

/-- The signals that a signal feeds. -/
def fanout (i : Fin n) : List (Fin n) := view.fanouts.get i

/-- The kind by which a signal starts and ends paths. -/
def kind (i : Fin n) : Option NodeKind := view.kinds.get i

/-- The delay of a signal, without which nothing can be said about paths through it. -/
def delay (i : Fin n) : Except (TimingError α) α :=
  match view.delays.get i with
  | none => .error (.unknownNode (view.name i))
  | some none => .error (.missingDelay (view.name i))
  | some (some d) => .ok d

/-- Paths end where there is nothing further to feed and at every capturing signal. -/
def isEndpoint (i : Fin n) : Bool :=
  (view.fanout i).isEmpty || (view.kind i).any NodeKind.capturesPaths

/-- Paths start at launching signals that feed something. -/
def isStartpoint (i : Fin n) : Bool :=
  !(view.fanout i).isEmpty && (view.kind i).any NodeKind.launchesPaths

/-- The startpoints in name order. -/
def startpoints : List (Fin n) :=
  ((List.finRange n).filter view.isStartpoint).mergeSort fun i j => view.name i ≤ view.name j

end TimingView

end Presynth
