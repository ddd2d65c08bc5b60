import Presynth.Technology.Basic
/-!
# The built-in technology

The characterised values that hold wherever a technology file says nothing else: areas and powers in
library units per bit, delays in nanoseconds. Every operator has a cost; gates that were not
characterised have no delay.
-/

namespace Presynth

namespace Builtin

/-- A register bit. -/
def register : Coefficients Float := ⟨4.522, 0.07911, 3.1⟩

/-- The cost of a bit of each operator. -/
def operatorCost : Operator → Coefficients Float
  | .And => ⟨1.064, 0.02507, 3.1⟩
  | .Land => ⟨1.064, 0.02507, 1.064⟩
  | .Xor => ⟨1.596, 0.03616, 2.45⟩
  | .Xnor | .Uxor => ⟨1.596, 0.03616, 2.43⟩
  | .Or => ⟨1.064, 0.02269, 3.1⟩
  | .Unor => ⟨0.798, 0.01282, 1.74⟩
  | .Lor | .Uor | .Uand => ⟨1.064, 0.02269, 2.71⟩
  | .Unot | .Ulnot => ⟨0.798, 0.106, 1.8⟩
  | .Cond | .Mux => ⟨1.862, 0.03593, 2.6⟩
  | .Eq | .Concat | .Repeat | .Than => ⟨0.0, 0.0, 0.0⟩
  | .Plus | .Minus | .Uminus => ⟨4.256, 0.07576, 4.95⟩
  | .Divide => ⟨40.0, 0.1, 40.0⟩
  | .Mod => ⟨35.0, 0.1, 35.0⟩
  | .Times => ⟨37.5, 0.1, 37.5⟩
  | .Sra | .Sla | .Sll | .Srl => ⟨3.0, 0.03, 3.0⟩
  | .Case => ⟨1.862, 0.03593, 3.38⟩

/-- The delay of the characterised gates. -/
def gateDelay : OperatorTable Float
  | .And => some 0.0496
  | .Or => some 0.0323
  | .Ulnot | .Unot => some 0.0328
  | .Mux | .Cond => some 0.0498
  | .Xor => some 0.0882
  | .Concat => some 0.0
  | _ => none

/-- A clock of two gigahertz. -/
def timing : TimingRules Float :=
  { frequency := .ofGhz 2.0
    clockUncertainty := 0.05
    setup := 0.032
    inputDelay := 0.0
    outputDelay := 0.0
    registerDelay := 0.1187
    gateDelays := gateDelay }

/-- Two samples per hundred register bits, but a hundred at least and a thousand at most. -/
def calibration : CalibrationPolicy Float :=
  { sampleRatio := 0.02
    sparseFloor := 10.0
    minSamples := 100
    maxSamples := 1000
    smallScale := 3.0
    mediumScale := 5.0 }

end Builtin

/-- The built-in technology. -/
def Technology.builtin : Technology Float :=
  { sequential := Builtin.register
    operators := fun op => some (Builtin.operatorCost op)
    timing := Builtin.timing
    calibration := Builtin.calibration }

end Presynth
