import Presynth.Netlist.Basic
/-!
# Classes of signals

Every signal belongs to one coarse class, by which signals are counted and coloured. A slice belongs
to the class of the signal that it selects from.
-/

namespace Presynth

variable {α : Type}

/-- The coarse classes of signals. -/
inductive SignalClass where
  | Sequential
  | Wire
  | Combinational
  | Input
  | Output
  | Constant
  | Other
  deriving DecidableEq, Repr

/-- The name of a class. -/
def SignalClass.name : SignalClass → String
  | Sequential => "Sequential"
  | Wire => "Wire"
  | Combinational => "Combinational"
  | Input => "Input"
  | Output => "Output"
  | Constant => "Constant"
  | Other => "Other"

/-- The number of signals of each class, with the sizes of a netlist. -/
structure Census where
  signals : Nat
  registered : Nat
  edges : Nat
  sequential : Nat
  wires : Nat
  combinational : Nat
  inputs : Nat
  outputs : Nat
  constants : Nat
  other : Nat
  deriving DecidableEq, Repr

namespace Netlist

/-- The class of a signal. Registers, wires and ports lend their class to what is selected from
them, in this order; an unregistered signal is of no class in particular. -/
def classify (g : Netlist α) (name : String) : SignalClass :=
  match g.node? name with
  | none => .Other
  | some node =>
    let father := (g.father? name).map (·.kind)
    let is (kind : NodeKind) : Bool := node.kind == kind || father == some kind
    if is .Reg then .Sequential
    else if is .Wire then .Wire
    else if is .Input then .Input
    else if is .Output then .Output
    else if node.kind == .Constant then .Constant
    else if node.kind.isCombinational then .Combinational
    else .Other

/-- Counts the signals of the fanout lists by class. -/
def census (g : Netlist α) : Census :=
  let count (c : SignalClass) : Nat := g.signals.countP fun name => g.classify name == c
  { signals := g.signals.length
    registered := g.registry.size
    edges := g.edgeCount
    sequential := count .Sequential
    wires := count .Wire
    combinational := count .Combinational
    inputs := count .Input
    outputs := count .Output
    constants := count .Constant
    other := count .Other }

end Netlist

end Presynth
