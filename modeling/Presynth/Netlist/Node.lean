/-!
# Nodes of a netlist

A node is a signal or an operator instance. What it is connected to is not part of it; nodes are
known to each other by name.
-/

namespace Presynth

variable {α : Type}

/-- What a node is. -/
inductive NodeKind where
  /-- A primary input port. -/
  | Input
  /-- A primary output port. -/
  | Output
  /-- A port of both directions. -/
  | Inout
  /-- A register. -/
  | Reg
  /-- A declared wire. -/
  | Wire
  /-- A literal constant. -/
  | Constant
  /-- A binary operator instance. -/
  | Operator
  /-- A unary operator instance. -/
  | UnaryOperator
  /-- A concatenation. -/
  | Concat
  /-- A replication. -/
  | Repeat
  /-- A part of a vector. -/
  | Partselect
  /-- A bit of a vector, selected by an index. -/
  | Pointer
  deriving DecidableEq, Repr, Inhabited

namespace NodeKind

/-- All kinds, in the order of their numbers in files. -/
def all : List NodeKind :=
  [Input, Output, Inout, Reg, Wire, Constant, Operator, UnaryOperator, Concat, Repeat, Partselect,
    Pointer]

/-- The name of a kind. -/
def name : NodeKind → String
  | Input => "Input"
  | Output => "Output"
  | Inout => "Inout"
  | Reg => "Reg"
  | Wire => "Wire"
  | Constant => "Constant"
  | Operator => "Operator"
  | UnaryOperator => "UnaryOperator"
  | Concat => "Concat"
  | Repeat => "Repeat"
  | Partselect => "Partselect"
  | Pointer => "Pointer"

/-- The kind of a name; case counts. -/
def ofName? (name : String) : Option NodeKind := all.find? (fun kind => kind.name == name)

theorem mem_all (kind : NodeKind) : kind ∈ all := by cases kind <;> decide

theorem ofName?_name (kind : NodeKind) : ofName? kind.name = some kind := by cases kind <;> decide

/-- Is this logic that takes area and power? -/
def isCombinational : NodeKind → Bool
  | Operator | UnaryOperator | Concat | Repeat => true
  | _ => false

/-- Is this a selection of bits of another signal? -/
def isSlice : NodeKind → Bool
  | Partselect | Pointer => true
  | _ => false

/-- May timing paths start here? -/
def launchesPaths : NodeKind → Bool
  | Reg | Input | Inout => true
  | _ => false

/-- Do timing paths end here? -/
def capturesPaths : NodeKind → Bool
  | Reg | Output | Inout => true
  | _ => false

/-- Is this a port of the design? -/
def isPort : NodeKind → Bool
  | Input | Output | Inout => true
  | _ => false

end NodeKind

/-- A signal or an operator instance of a netlist. -/
structure Node (α : Type) where
  name : String
  kind : NodeKind
  /-- The number of bits, absent or zero until it is declared or inferred. -/
  width : Option UInt32
  /-- The signal that a slice selects from. A name that is not registered counts as none. -/
  father : Option String
  /-- The propagation delay in nanoseconds, once estimated. -/
  delay : Option α
  /-- How often the signal changes, once known. -/
  toggleRate : Option α
  /-- The probability that the signal is 1. -/
  steadyProbability : α
  deriving DecidableEq, BEq, Repr

namespace Node

/-- The probability that is assumed of a signal about which nothing is known. -/
def evenOdds [NatCast α] [Div α] : α := ((1 : Nat) : α) / ((2 : Nat) : α)

/-- A node of which only declarations are known. -/
def declared [NatCast α] [Div α] (name : String) (kind : NodeKind) (width : Option UInt32)
    (father : Option String) : Node α :=
  ⟨name, kind, width, father, none, none, evenOdds⟩

/-- The width, if it is known; a width of zero is not. -/
def knownWidth? (node : Node α) : Option UInt32 := node.width.filter (0 < ·)

end Node

end Presynth
