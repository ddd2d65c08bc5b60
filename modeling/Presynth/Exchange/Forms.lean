import Presynth.Diagnostic
import Presynth.Digest.Basic
import Presynth.Estimate.Features
import Presynth.Exchange.Record
import Presynth.Frequency
import Presynth.Operator
import Presynth.Slack.Validation
/-!
# Exchange forms

The forms of designs' features, findings and remarks in exchange texts. Fields are written in a
fixed order and under fixed names.
-/

namespace Presynth.Exchange

open Json.Printer (object)

/-! ### Names and choices -/

instance : Exchange Operator := ofCases Operator.all Operator.mnemonic

instance : Exchange NodeKind := ofCases NodeKind.all NodeKind.name

instance : Exchange PathBoundary := ofCases PathBoundary.all PathBoundary.name

/-- A severity as it is exchanged. -/
def severityTag : Severity → String
  | .note => "Note"
  | .warning => "Warning"

instance : Exchange Severity := ofCases [.note, .warning] severityTag

/-- A category as it is exchanged. -/
def categoryTag : Diagnostic.Category → String
  | .Graph => "Graph"
  | .Cost => "Cost"
  | .Timing => "Timing"
  | .Calibration => "Calibration"
  | .Report => "Report"

instance : Exchange Diagnostic.Category :=
  ofCases [.Graph, .Cost, .Timing, .Calibration, .Report] categoryTag

/-- A percentile as it is exchanged. -/
def percentileTag : Percentile → String
  | .P10 => "P10"
  | .P50 => "P50"
  | .P90 => "P90"

instance : Exchange Percentile := ofCases [.P10, .P50, .P90] percentileTag

/-! ### Values -/

/-- A frequency is its number of hertz. -/
instance : Exchange (Frequency Float) where
  read? v := (read? v).map Frequency.mk
  write f := write f.hz

/-- A digest is an array of its sixteen bytes. -/
instance : Exchange Digest where
  read? v := do
    let bytes : List UInt8 ← read? v
    if h : bytes.length = 16 then return ⟨⟨bytes.toArray, by simpa using h⟩⟩ else none
  write d := write d.bytes.toList

/-- A spread is an array of its three values. -/
instance : Exchange (Spread Float) where
  read? v := do
    match (← read? v : List Float) with
    | [p10, p50, p90] => return ⟨p10, p50, p90⟩
    | _ => none
  write s := write s.toVector

/-! ### Remarks -/

instance : Exchange Diagnostic.Code where
  read? v := do
    let given ← given? [("category", .refused), ("number", .refused)] v
    let category ← given.needed? "category"
    let number ← given.needed? "number"
    return { category, number }
  write code := object [("category", write code.category), ("number", write code.number)]

instance : Exchange Diagnostic where
  read? v := do
    let given ← given? [("severity", .refused), ("code", .refused), ("message", .refused),
      ("subject", .null), ("notes", .refused)] v
    let severity ← given.needed? "severity"
    let code ← given.needed? "code"
    let message ← given.needed? "message"
    let subject ← given.nullable? "subject"
    let notes ← given.needed? "notes"
    return { severity, code, message, subject, notes }
  write d := object [("severity", write d.severity), ("code", write d.code),
    ("message", write d.message), ("subject", write d.subject), ("notes", write d.notes)]

/-! ### Nodes -/

instance : Exchange (Node Float) where
  read? v := do
    let given ← given? [("name", .refused), ("kind", .refused), ("width", .known),
      ("father", .known), ("delay", .known), ("toggle_rate", .known),
      ("steady_state_probability", .known)] v
    let name ← given.needed? "name"
    let kind ← given.needed? "kind"
    let width ← given.nullable? "width"
    let father ← given.nullable? "father"
    let delay ← given.nullable? "delay"
    let toggleRate ← given.nullable? "toggle_rate"
    let steadyProbability ← given.orElse? "steady_state_probability" Node.evenOdds
    return { name, kind, width, father, delay, toggleRate, steadyProbability }
  write node := object [("name", write node.name), ("kind", write node.kind),
    ("width", write node.width), ("father", write node.father), ("delay", write node.delay),
    ("toggle_rate", write node.toggleRate),
    ("steady_state_probability", write node.steadyProbability)]

/-! ### Features -/

instance : Exchange (AreaFeatures Float) where
  read? v := do
    let given ← given? [("seq_bits", .refused), ("fanout_sum", .refused), ("io_bits", .refused),
      ("and_count", .refused), ("or_count", .refused), ("not_count", .refused),
      ("xor_count", .refused), ("mux_count", .refused), ("comb_bits", .known),
      ("seq_area", .refused), ("comb_area", .refused), ("total_area", .refused),
      ("static_power", .refused), ("dynamic_power", .refused), ("total_power", .refused)] v
    let seqBits ← given.needed? "seq_bits"
    let fanoutSum ← given.needed? "fanout_sum"
    let ioBits ← given.needed? "io_bits"
    let andCount ← given.needed? "and_count"
    let orCount ← given.needed? "or_count"
    let notCount ← given.needed? "not_count"
    let xorCount ← given.needed? "xor_count"
    let muxCount ← given.needed? "mux_count"
    let combBits ← given.orElse? "comb_bits" 0
    let seqArea ← given.needed? "seq_area"
    let combArea ← given.needed? "comb_area"
    let totalArea ← given.needed? "total_area"
    let staticPower ← given.needed? "static_power"
    let dynamicPower ← given.needed? "dynamic_power"
    let totalPower ← given.needed? "total_power"
    return { seqBits, fanoutSum, ioBits, andCount, orCount, notCount, xorCount, muxCount, combBits,
             seqArea, combArea, totalArea, staticPower, dynamicPower, totalPower }
  write f := object [("seq_bits", write f.seqBits), ("fanout_sum", write f.fanoutSum),
    ("io_bits", write f.ioBits), ("and_count", write f.andCount), ("or_count", write f.orCount),
    ("not_count", write f.notCount), ("xor_count", write f.xorCount),
    ("mux_count", write f.muxCount), ("comb_bits", write f.combBits), ("seq_area", write f.seqArea),
    ("comb_area", write f.combArea), ("total_area", write f.totalArea),
    ("static_power", write f.staticPower), ("dynamic_power", write f.dynamicPower),
    ("total_power", write f.totalPower)]

instance : Exchange (PowerFeatures Float) where
  read? v := do
    let given ← given? [("area", .refused), ("toggle_rate_sum", .refused),
      ("toggle_rate_avg", .refused), ("module_power", .refused)] v
    let area ← given.needed? "area"
    let toggleRateSum ← given.needed? "toggle_rate_sum"
    let toggleRateAvg ← given.needed? "toggle_rate_avg"
    let modulePower ← given.needed? "module_power"
    return { area, toggleRateSum, toggleRateAvg, modulePower }
  write f := object [("area", write f.area), ("toggle_rate_sum", write f.toggleRateSum),
    ("toggle_rate_avg", write f.toggleRateAvg), ("module_power", write f.modulePower)]

/-! ### Slacks -/

instance : Exchange (TimingSummary Float) where
  read? v := do
    let given ← given? [("wns", .refused), ("tns", .refused)] v
    let wns ← given.needed? "wns"
    let tns ← given.needed? "tns"
    return { wns, tns }
  write s := object [("wns", write s.wns), ("tns", write s.tns)]

instance : Exchange (Calibration Float) where
  read? v := do
    let given ← given? [("sample_len", .refused), ("calibrated_wns", .refused),
      ("percentile", .refused), ("spread", .refused), ("median", .refused), ("mean", .refused)] v
    let sampleLen ← given.needed? "sample_len"
    let calibratedWns ← given.needed? "calibrated_wns"
    let percentile ← given.needed? "percentile"
    let spread ← given.needed? "spread"
    let median ← given.needed? "median"
    let mean ← given.needed? "mean"
    return { sampleLen, calibratedWns, percentile, spread, median, mean }
  write c := object [("sample_len", write c.sampleLen), ("calibrated_wns", write c.calibratedWns),
    ("percentile", write c.percentile), ("spread", write c.spread), ("median", write c.median),
    ("mean", write c.mean)]

instance : Exchange (ValidationRecord Float) where
  read? v := do
    let given ← given? [("design", .refused), ("reference_wns", .refused),
      ("reference_best", .refused), ("calibrated_wns", .refused), ("predicted_mean", .refused)] v
    let design ← given.needed? "design"
    let referenceWns ← given.needed? "reference_wns"
    let referenceBest ← given.needed? "reference_best"
    let calibratedWns ← given.needed? "calibrated_wns"
    let predictedMean ← given.needed? "predicted_mean"
    return { design, referenceWns, referenceBest, calibratedWns, predictedMean }
  write r := object [("design", write r.design), ("reference_wns", write r.referenceWns),
    ("reference_best", write r.referenceBest), ("calibrated_wns", write r.calibratedWns),
    ("predicted_mean", write r.predictedMean)]

instance : Exchange ValidationSummary where
  read? v := do
    let given ← given? [("designs", .refused), ("pearson_r", .null), ("mape", .refused),
      ("rrse", .null)] v
    let designs ← given.needed? "designs"
    let pearsonR ← given.nullable? "pearson_r"
    let mape ← given.needed? "mape"
    let rrse ← given.nullable? "rrse"
    return { designs, pearsonR, mape, rrse }
  write s := object [("designs", write s.designs), ("pearson_r", write s.pearsonR),
    ("mape", write s.mape), ("rrse", write s.rrse)]

end Presynth.Exchange
