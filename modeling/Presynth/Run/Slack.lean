import Presynth.Run.Basic
import Presynth.Slack.Report
import Presynth.Slack.Validation
import Presynth.Timing.Delay
import Presynth.Timing.Sweep
/-!
# Runs on the timing of a design

Two runs: static timing analysis of a stored netlist, and calibration of slacks that were predicted
for it, with a reference report to compare with where there is one.
-/

namespace Presynth.Run

/-! ### Timing -/

/-- The remark on a timing analysis that found a number of paths in some seconds. -/
def pathsRemark (paths : Nat) (seconds : Float) : Diagnostic :=
  { severity := .note
    code := ⟨.Timing, 1⟩
    message := "static timing analysis found " ++ toString paths ++ " path(s) in " ++
      Decimal.fixedText 2 seconds ++ "s" }

/-- The remark on a design that is late. -/
def lateRemark (rules : TimingRules Float) (s : TimingSummary Float) (key : DesignKey) :
    Diagnostic :=
  { severity := .warning
    code := ⟨.Timing, 2⟩
    message := "timing not met at " ++ rules.frequency.text ++ ": WNS " ++
      Decimal.fixedText 4 s.wns ++ " ns, TNS " ++ Decimal.fixedText 4 s.tns ++ " ns"
    subject := some key.stem }

/-- The worst timing paths of a netlist, with a remark that says how long they took to find. -/
def remarkedPaths (g : Netlist Float) (seconds : Float) : Analysis (List (TimingPath Float)) := do
  let paths ← .orFail .timing g.timingPaths
  .remark (pathsRemark paths.length seconds)
  return paths

/-- The worst timing paths of a stored netlist, and its slacks in sum. -/
def slackOfPaths (files : FileTree) (netlistDir : Path) (key : DesignKey)
    (rules : TimingRules Float) (source : DelaySource Float) (seconds : Float) :
    Analysis (TimingSummary Float × List (TimingPath Float)) := do
  let g ← .netlist files netlistDir key
  let (annotated, g) := g.annotateDelays source
  let _ ← .orFail .timing annotated
  let paths ← remarkedPaths g seconds
  let summary := (SlackBudget.ofRules rules).summarizePaths paths
  unless summary.isMet do .remark (lateRemark rules summary key)
  return (summary, paths)

/-- Analyses the timing of a design and writes its timing vector. `seconds` is the time that the
remark on the analysis tells. -/
def timing (files : FileTree) (netlistDir outDir : Path) (key : DesignKey)
    (rules : TimingRules Float) (source : DelaySource Float) (seconds : Float) :
    RunOutcome (TimingSummary Float × List (TimingPath Float)) :=
  (slackOfPaths files netlistDir key rules source seconds).run key.design files
    fun (summary, _) => [.vector (outDir.below key.timingVectorFile) summary.toVector]

/-! ### Calibration -/

/-- Where a calibration finds its inputs and puts its outputs. -/
structure CalibrationPlaces where
  /-- The directory of the stored registry. -/
  registry : Path
  /-- The directory of the predicted slacks. -/
  predicted : Path
  /-- The directory for the calibrated slacks. -/
  output : Path
  /-- The directory of the reference reports, if there are any. -/
  reference : Option Path
  deriving DecidableEq, Repr

/-- What a calibration run finds. -/
structure CalibrationOutcome where
  /-- The number of register bits of the design. -/
  seqBits : Nat
  calibration : Calibration Float
  /-- The comparison with the reference, if there is one. -/
  validation : Option (ValidationRecord Float)

/-- The first slacks of a reference report. Lines without a slack are remarked on, also beyond
those. -/
def referenceSlacks (files : FileTree) (path : Path) (limit : Nat) : Analysis (List Float) := do
  let text ← .orFail (.report path) (files.readText path)
  let (slacks, remarks) := reportSlacks text
  .remarkAll remarks
  return slacks.take limit

/-- Calibrates predicted slacks, with a remark. -/
def calibrated (seqBits : Nat) (predicted : List Float) (policy : CalibrationPolicy Float) :
    Analysis (Calibration Float) := do
  let c ← .orFail .calibration (policy.calibrate seqBits predicted)
  .remark (c.remark seqBits predicted.length)
  return c

/-- Calibrates the predicted slacks of a design and compares them with the reference. -/
def calibratedDesign (files : FileTree) (places : CalibrationPlaces) (key : DesignKey)
    (policy : CalibrationPolicy Float) : Analysis CalibrationOutcome := do
  let registry : NameMap (Node Float) ←
    .orFail .archive (Archive.readRegistryFile files places.registry key)
  let seqBits := Netlist.sequentialBits ⟨registry, .empty⟩
  let predicted ← .orFail id (readVector files (places.predicted.below key.slackFile))
  let calibration ← calibrated seqBits predicted policy
  match places.reference with
  | none => return { seqBits, calibration, validation := none }
  | some dir =>
    let reference ←
      referenceSlacks files (dir.below key.referenceReportFile) calibration.sampleLen
    let record ←
      .orFail .calibration (ValidationRecord.ofReference key.design reference calibration)
    return { seqBits, calibration, validation := some record }

/-- Calibrates the predicted slacks of a design and writes the calibrated slack, then its spread. -/
def calibration (files : FileTree) (places : CalibrationPlaces) (key : DesignKey)
    (policy : CalibrationPolicy Float) : RunOutcome CalibrationOutcome :=
  (calibratedDesign files places key policy).run key.design files fun found =>
    [.vector (places.output.below key.slackFile) [found.calibration.calibratedWns],
      .vector (places.output.below key.slackSpreadFile) found.calibration.spread.toVector]

end Presynth.Run
