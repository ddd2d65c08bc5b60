import Presynth.Storage.FileTree
import Presynth.Technology.Overlay
import Presynth.Toml.Reader
/-!
# Technology files

A technology file is a TOML document with up to five sections. A section is a record: a table that
gives some of its fields, or an array that gives all of them in order. Names that no section knows,
and values of the wrong kind, make the file malformed.
-/

namespace Presynth

namespace Technology

/-- The given fields of a record, by name. -/
abbrev Fields := String → Option Toml

/-! ### Values -/

/-- A number, with or without a fraction. -/
def number? : Toml → Option Float
  | .float x => some x
  | .integer n => some (Float.ofInt n)
  | _ => none

/-- A whole number that is not negative. -/
def count? : Toml → Option Nat
  | .integer (.ofNat n) => some n
  | _ => none

/-- A frequency: a text with a unit, or a number of gigahertz. -/
def frequency? : Toml → Option (Frequency Float)
  | .string text => Frequency.parse? text
  | v => (number? v).map Frequency.ofGhz

/-- The fields of a record. A table gives some of its fields and nothing else. An array gives all of
them in order; what follows the last is not looked at. -/
def record? (names : List String) : Toml → Option Fields
  | .table _ entries =>
    if entries.all (names.contains ·.1) then some fun name => entries.lookup name else none
  | .array items =>
    if items.length < names.length then none else some fun name => (names.zip items).lookup name
  | _ => none

/-- A field that may be left out. -/
def optional? {β : Type} (read : Toml → Option β) (fields : Fields) (name : String) :
    Option (Option β) :=
  match fields name with
  | none => some none
  | some v => (read v).map some

/-- A table with any keys. -/
def tableOf? {β : Type} (read : Toml → Option β) : Toml → Option (NameMap β)
  | .table _ entries =>
    (entries.mapM fun e => (read e.2).map fun v => (e.1, v)).map NameMap.ofList
  | _ => none

/-! ### Sections -/

/-- The given costs of a cell. -/
def coefficients? (v : Toml) : Option CoefficientOverrides := do
  let fields ← record? ["area", "static_power", "dynamic_power"] v
  let area ← optional? number? fields "area"
  let staticPower ← optional? number? fields "static_power"
  let dynamicPower ← optional? number? fields "dynamic_power"
  return { area, staticPower, dynamicPower }

/-- The given timing values. -/
def timing? (v : Toml) : Option TimingOverrides := do
  let fields ← record? ["frequency", "clock_uncertainty_ns", "setup_ns", "input_delay_ns",
    "output_delay_ns", "register_delay_ns"] v
  let frequency ← optional? frequency? fields "frequency"
  let clockUncertainty ← optional? number? fields "clock_uncertainty_ns"
  let setup ← optional? number? fields "setup_ns"
  let inputDelay ← optional? number? fields "input_delay_ns"
  let outputDelay ← optional? number? fields "output_delay_ns"
  let registerDelay ← optional? number? fields "register_delay_ns"
  return { frequency, clockUncertainty, setup, inputDelay, outputDelay, registerDelay }

/-- The given calibration values. -/
def calibration? (v : Toml) : Option CalibrationOverrides := do
  let fields ← record? ["sample_ratio", "sparse_floor", "min_samples", "max_samples",
    "small_scale_kilo", "medium_scale_kilo"] v
  let sampleRatio ← optional? number? fields "sample_ratio"
  let sparseFloor ← optional? number? fields "sparse_floor"
  let minSamples ← optional? count? fields "min_samples"
  let maxSamples ← optional? count? fields "max_samples"
  let smallScale ← optional? number? fields "small_scale_kilo"
  let mediumScale ← optional? number? fields "medium_scale_kilo"
  return { sampleRatio, sparseFloor, minSamples, maxSamples, smallScale, mediumScale }

/-- All that a document gives. -/
def overrides? (entries : Toml.Entries) : Option TechnologyOverrides := do
  let fields ← record? ["sequential", "operators", "timing", "gate_delays", "calibration"]
    (.table .header entries)
  let sequential ← optional? coefficients? fields "sequential"
  let operators ← optional? (tableOf? coefficients?) fields "operators"
  let timing ← optional? timing? fields "timing"
  let gateDelays ← optional? (tableOf? number?) fields "gate_delays"
  let calibration ← optional? calibration? fields "calibration"
  return {
    sequential := sequential.getD {}
    operators := operators.getD .empty
    timing := timing.getD {}
    gateDelays := gateDelays.getD .empty
    calibration := calibration.getD {} }

/-! ### Files -/

/-- The built-in technology under what a text gives. -/
def ofText (text : String) : Except TechnologyError (Technology Float) :=
  match (Toml.parse? text).bind overrides? with
  | some given => ofOverrides given
  | none => .error .malformed

/-- The built-in technology under what a file gives. -/
def load (files : FileTree) (path : Path) : Except TechnologyError (Technology Float) :=
  match files.readText path with
  | .ok text => ofText text
  | .error fault => .error (.unreadable fault)

end Technology

end Presynth
