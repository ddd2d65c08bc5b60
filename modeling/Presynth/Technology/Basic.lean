import Presynth.Operator
import Presynth.Frequency
/-!
# Technologies

A technology tells what registers and operators cost per bit, how slow they are, what the clock
demands, and how slack estimates are calibrated.
-/

namespace Presynth

variable {α β : Type}

/-- The cost of one bit of a cell. -/
structure Coefficients (α : Type) where
  area : α
  staticPower : α
  dynamicPower : α
  deriving DecidableEq, Repr, BEq

/-- Values for some of the operators. -/
abbrev OperatorTable (β : Type) := Operator → Option β

namespace OperatorTable

/-- The table without values. -/
def empty : OperatorTable β := fun _ => none

/-- Gives an operator a value. -/
def insert (table : OperatorTable β) (op : Operator) (value : β) : OperatorTable β :=
  fun other => if other = op then some value else table other

/-- Takes the value of an operator away. -/
def erase (table : OperatorTable β) (op : Operator) : OperatorTable β :=
  fun other => if other = op then none else table other

/-- The values with their operators, in the order of the operators. -/
def entries (table : OperatorTable β) : List (Operator × β) :=
  Operator.all.filterMap fun op => (table op).map fun value => (op, value)

theorem mem_entries {table : OperatorTable β} {op : Operator} {value : β} :
    (op, value) ∈ table.entries ↔ table op = some value := by
  simp [entries, Operator.mem_all]

end OperatorTable

/-- The clock, the delays at its edges and the delays of cells, in nanoseconds. -/
structure TimingRules (α : Type) where
  frequency : Frequency α
  clockUncertainty : α
  setup : α
  inputDelay : α
  outputDelay : α
  registerDelay : α
  gateDelays : OperatorTable α

/-- The time that a path may take within a clock cycle. -/
def TimingRules.requiredTime [Sub α] [Mul α] [Div α] [NatCast α] (t : TimingRules α) : α :=
  t.frequency.periodNs - t.clockUncertainty - t.setup

/-- How many predicted slacks a calibration looks at, and which of them it trusts. -/
structure CalibrationPolicy (α : Type) where
  /-- Samples per register bit. -/
  sampleRatio : α
  /-- Below this many samples by ratio, `minSamples` are taken instead. -/
  sparseFloor : α
  minSamples : Nat
  maxSamples : Nat
  /-- The greatest number of thousands of register bits of a small design. -/
  smallScale : α
  /-- The greatest number of thousands of register bits of a medium design. -/
  mediumScale : α
  deriving DecidableEq, Repr, BEq

/-- What estimates need to know of a technology. -/
structure Technology (α : Type) where
  /-- The cost of a register bit. -/
  sequential : Coefficients α
  operators : OperatorTable (Coefficients α)
  timing : TimingRules α
  calibration : CalibrationPolicy α

end Presynth
