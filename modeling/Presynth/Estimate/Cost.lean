import Presynth.Netlist.Basic
import Presynth.Technology.Basic
import Presynth.Estimate.Features
import Presynth.Estimate.Mnemonic
/-!
# The cost of a netlist

Every registered node that takes part in the fanout lists adds to the cost: registers and operators
by their width and the coefficients of the technology, ports by their width alone. The sums are
rounded to integers at the end.
-/

namespace Presynth

variable {α : Type}

/-- The sums over the nodes seen so far. -/
structure CostTally (α : Type) where
  seqBits : Nat
  fanoutSum : Nat
  ioBits : Nat
  combBits : Nat
  /-- The number of operators of each gate family. -/
  gates : GateFamily → Nat
  seqArea : α
  combArea : α
  staticPower : α
  dynamicPower : α

namespace CostTally

variable [Zero α] [Add α] [Mul α] [NatCast α]

/-- No node was seen. -/
def zero : CostTally α := ⟨0, 0, 0, 0, fun _ => 0, 0, 0, 0, 0⟩

/-- Adds a register with a number of drivers. -/
def addRegister (t : CostTally α) (c : Coefficients α) (width drivers : Nat) : CostTally α :=
  { t with
    seqBits := t.seqBits + width
    fanoutSum := t.fanoutSum + drivers
    seqArea := t.seqArea + c.area * (width : α)
    staticPower := t.staticPower + c.staticPower * (width : α)
    dynamicPower := t.dynamicPower + c.dynamicPower * (width : α) }

/-- Adds an operator. -/
def addOperator (t : CostTally α) (c : Coefficients α) (width : Nat) (op : Operator) :
    CostTally α :=
  { t with
    combBits := t.combBits + width
    gates := fun family => t.gates family + if op.family? = some family then 1 else 0
    combArea := t.combArea + c.area * (width : α)
    staticPower := t.staticPower + c.staticPower * (width : α)
    dynamicPower := t.dynamicPower + c.dynamicPower * (width : α) }

/-- Adds a port. -/
def addPort (t : CostTally α) (width : Nat) : CostTally α := { t with ioBits := t.ioBits + width }

/-- Rounds the sums, and adds up the rounded parts. -/
def features [Quantity α] (t : CostTally α) : AreaFeatures α :=
  let seqArea := Quantity.roundEven t.seqArea
  let combArea := Quantity.roundEven t.combArea
  let staticPower := Quantity.roundEven t.staticPower
  let dynamicPower := Quantity.roundEven t.dynamicPower
  { seqBits := t.seqBits
    fanoutSum := t.fanoutSum
    ioBits := t.ioBits
    andCount := t.gates .And
    orCount := t.gates .Or
    notCount := t.gates .Not
    xorCount := t.gates .Xor
    muxCount := t.gates .Mux
    combBits := t.combBits
    seqArea
    combArea
    totalArea := seqArea + combArea
    staticPower
    dynamicPower
    totalPower := staticPower + dynamicPower }

end CostTally

namespace Technology

/-- The width of a node that costs by width. -/
def costedWidth (node : Node α) : Except CostError Nat :=
  match node.knownWidth? with
  | some width => .ok width.toNat
  | none => .error (.missingWidth node.name)

/-- The operator of a combinational node with its cost. -/
def operatorCost (tech : Technology α) (node : Node α) :
    Except CostError (Operator × Coefficients α) := do
  let op ← Operator.ofInstanceName node.name
  match tech.operators op with
  | some c => return (op, c)
  | none => throw (.unknownOperator node.name op.mnemonic)

section Arithmetic

variable [Zero α] [Add α] [Mul α] [NatCast α]

/-- Adds a node to the sums. Its width is looked at before its operator, the operator before the
cost. -/
def addNode (tech : Technology α) (g : Netlist α) (t : CostTally α) (node : Node α) :
    Except CostError (CostTally α) :=
  if node.kind = .Reg then do
    let width ← costedWidth node
    return t.addRegister tech.sequential width (g.fanin node.name)
  else if node.kind.isCombinational then do
    let width ← costedWidth node
    let (op, c) ← tech.operatorCost node
    return t.addOperator c width op
  else if node.kind.isPort then do
    let width ← costedWidth node
    return t.addPort width
  else return t

/-- The registered nodes whose names take part in the fanout lists, in the order of their keys. -/
def costedNodes (g : Netlist α) : List (Node α) :=
  let signals := g.signals
  g.nodes.filter fun node => signals.contains node.name

/-- The features of a netlist, or the first node without a cost. -/
def evaluate [Quantity α] (tech : Technology α) (g : Netlist α) :
    Except CostError (AreaFeatures α) :=
  ((costedNodes g).foldlM (tech.addNode g) .zero).map CostTally.features

end Arithmetic

end Technology

end Presynth
