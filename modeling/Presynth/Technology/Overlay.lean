import Presynth.NameMap
import Presynth.Technology.Builtin
import Presynth.Technology.Error
/-!
# Overlaying a technology

A technology file gives some values. They are laid over a base technology field by field, so that
what is not given stays as it is; then the whole is checked. Tables are taken in name order, so the
first unknown operator by name is the one that is reported.
-/

namespace Presynth

/-- The given fields of the cost of a cell. -/
structure CoefficientOverrides where
  area : Option Float := none
  staticPower : Option Float := none
  dynamicPower : Option Float := none

/-- The given timing values. -/
structure TimingOverrides where
  frequency : Option (Frequency Float) := none
  clockUncertainty : Option Float := none
  setup : Option Float := none
  inputDelay : Option Float := none
  outputDelay : Option Float := none
  registerDelay : Option Float := none

/-- The given calibration values. -/
structure CalibrationOverrides where
  sampleRatio : Option Float := none
  sparseFloor : Option Float := none
  minSamples : Option Nat := none
  maxSamples : Option Nat := none
  smallScale : Option Float := none
  mediumScale : Option Float := none

/-- All values that a technology file gives. -/
structure TechnologyOverrides where
  sequential : CoefficientOverrides := {}
  operators : NameMap CoefficientOverrides := .empty
  timing : TimingOverrides := {}
  gateDelays : NameMap Float := .empty
  calibration : CalibrationOverrides := {}

/-- The given fields over the others of a base. -/
def CoefficientOverrides.over (o : CoefficientOverrides) (base : Coefficients Float) :
    Coefficients Float :=
  { area := o.area.getD base.area
    staticPower := o.staticPower.getD base.staticPower
    dynamicPower := o.dynamicPower.getD base.dynamicPower }

/-- The given timing values over those of a base; gate delays have a table of their own. -/
def TimingOverrides.over (o : TimingOverrides) (base : TimingRules Float) : TimingRules Float :=
  { frequency := o.frequency.getD base.frequency
    clockUncertainty := o.clockUncertainty.getD base.clockUncertainty
    setup := o.setup.getD base.setup
    inputDelay := o.inputDelay.getD base.inputDelay
    outputDelay := o.outputDelay.getD base.outputDelay
    registerDelay := o.registerDelay.getD base.registerDelay
    gateDelays := base.gateDelays }

/-- The given calibration values over those of a base. -/
def CalibrationOverrides.over (o : CalibrationOverrides) (base : CalibrationPolicy Float) :
    CalibrationPolicy Float :=
  { sampleRatio := o.sampleRatio.getD base.sampleRatio
    sparseFloor := o.sparseFloor.getD base.sparseFloor
    minSamples := o.minSamples.getD base.minSamples
    maxSamples := o.maxSamples.getD base.maxSamples
    smallScale := o.smallScale.getD base.smallScale
    mediumScale := o.mediumScale.getD base.mediumScale }

namespace Technology

/-- The operator of a mnemonic in a technology file. -/
def operatorNamed (mnemonic : String) : Except TechnologyError Operator :=
  match Operator.ofMnemonic? mnemonic with
  | some op => .ok op
  | none => .error (.unknownOperator mnemonic)

/-- Lays given costs over a table of costs. An operator without a cost starts from zero. -/
def overlayCosts (base : OperatorTable (Coefficients Float)) :
    List (String × CoefficientOverrides) →
      Except TechnologyError (OperatorTable (Coefficients Float))
  | [] => .ok base
  | (mnemonic, given) :: rest => do
    let op ← operatorNamed mnemonic
    overlayCosts (base.insert op (given.over ((base op).getD ⟨0.0, 0.0, 0.0⟩))) rest

/-- Lays given delays over a table of delays. -/
def overlayDelays (base : OperatorTable Float) :
    List (String × Float) → Except TechnologyError (OperatorTable Float)
  | [] => .ok base
  | (mnemonic, given) :: rest => do
    let op ← operatorNamed mnemonic
    overlayDelays (base.insert op given) rest

/-- Lays all given values over a technology. -/
def overlay (base : Technology Float) (given : TechnologyOverrides) :
    Except TechnologyError (Technology Float) := do
  let operators ← overlayCosts base.operators given.operators.toList
  let gateDelays ← overlayDelays base.timing.gateDelays given.gateDelays.toList
  return {
    sequential := given.sequential.over base.sequential
    operators
    timing := { given.timing.over base.timing with gateDelays }
    calibration := given.calibration.over base.calibration }

/-! ### Ranges -/

/-- A finite number that is not negative. -/
def checkNonNegative (what : String) (value : Float) : Except TechnologyError Unit :=
  if value.isFinite && 0.0 ≤ value then .ok ()
  else
    .error (.outOfRange (what ++ " must be a non-negative number, got " ++ Decimal.plainText value))

/-- No cost is negative. -/
def checkCost (what : String) (c : Coefficients Float) : Except TechnologyError Unit := do
  checkNonNegative (what ++ ".area") c.area
  checkNonNegative (what ++ ".static_power") c.staticPower
  checkNonNegative (what ++ ".dynamic_power") c.dynamicPower

/-- The clock runs, no delay is negative, and a cycle leaves time for paths. -/
def checkTiming (t : TimingRules Float) : Except TechnologyError Unit := do
  if t.frequency.hz ≤ 0.0 || !t.frequency.hz.isFinite then
    throw (.outOfRange ("timing.frequency must be positive, got " ++ t.frequency.text))
  checkNonNegative "timing.clock_uncertainty_ns" t.clockUncertainty
  checkNonNegative "timing.setup_ns" t.setup
  checkNonNegative "timing.input_delay_ns" t.inputDelay
  checkNonNegative "timing.output_delay_ns" t.outputDelay
  checkNonNegative "timing.register_delay_ns" t.registerDelay
  t.gateDelays.entries.forM fun e => checkNonNegative ("gate_delays." ++ e.1.mnemonic) e.2
  -- checked last, when all parts of the sum are known to be numbers
  if t.requiredTime ≤ 0.0 then
    throw (.outOfRange ("clock period " ++ Decimal.fixedText 4 t.frequency.periodNs ++
      " ns leaves no time after uncertainty and setup"))

/-- The ratio of samples is positive, and the bounds are in order. -/
def checkCalibration (p : CalibrationPolicy Float) : Except TechnologyError Unit := do
  if p.sampleRatio ≤ 0.0 || !p.sampleRatio.isFinite then
    throw (.outOfRange "calibration.sample_ratio must be positive")
  if p.minSamples = 0 ∨ p.maxSamples < p.minSamples then
    throw (.outOfRange
      ("calibration sample bounds must satisfy 0 < min_samples <= max_samples, got " ++
        toString p.minSamples ++ ".." ++ toString p.maxSamples))
  if p.smallScale > p.mediumScale then
    throw (.outOfRange "calibration.small_scale_kilo must not exceed medium_scale_kilo")

/-- Checks all values of a technology, costs first, then timing, then calibration. -/
def check (t : Technology Float) : Except TechnologyError Unit := do
  checkCost "sequential" t.sequential
  t.operators.entries.forM fun e => checkCost ("operators." ++ e.1.mnemonic) e.2
  checkTiming t.timing
  checkCalibration t.calibration

/-- The built-in technology with the given values, if these are acceptable. -/
def ofOverrides (given : TechnologyOverrides) : Except TechnologyError (Technology Float) := do
  let t ← builtin.overlay given
  t.check
  return t

end Technology

end Presynth
