import Presynth.Proofs.Run.Analysis
import Presynth.Run.Features
import Presynth.Run.Slack
/-!
# All runs

The runs as values, so that what holds of every run can be said once. Each computes first and then
publishes its outputs, so a failure of the computation changes no file.

Main statement: `Run.Task.files_outcome`.
-/

namespace Presynth.Run

/-- A run with all that it is given. -/
inductive Task where
  | census (netlistDir : Path) (drawingDir : Option Path) (key : DesignKey)
  | area (netlistDir outDir : Path) (key : DesignKey) (tech : Technology Float)
  | timing (netlistDir outDir : Path) (key : DesignKey) (rules : TimingRules Float)
    (source : DelaySource Float) (seconds : Float)
  | power (featureDir toggleDir outDir : Path) (key : DesignKey) (modulePower : Float)
  | calibration (places : CalibrationPlaces) (key : DesignKey) (policy : CalibrationPolicy Float)

namespace Task

/-- What a run finds. -/
def Found : Task → Type
  | census .. => Netlist Float × Census
  | area .. => AreaFeatures Float
  | timing .. => TimingSummary Float × List (TimingPath Float)
  | power .. => List Float × PowerFeatures Float
  | calibration .. => CalibrationOutcome

/-- What a run leaves. -/
def outcome (files : FileTree) : (task : Task) → RunOutcome task.Found
  | census netlistDir drawingDir key => Run.census files netlistDir drawingDir key
  | area netlistDir outDir key tech => Run.area files netlistDir outDir key tech
  | timing netlistDir outDir key rules source seconds =>
    Run.timing files netlistDir outDir key rules source seconds
  | power featureDir toggleDir outDir key modulePower =>
    Run.power files featureDir toggleDir outDir key modulePower
  | calibration places key policy => Run.calibration files places key policy

/-- The files that a run writes. -/
def outputs : Task → List Path
  | census _ drawingDir key => drawingDir.toList.map fun dir => dir.below key.dotFile
  | area _ outDir key _ => [outDir.below key.areaVectorFile]
  | timing _ outDir key _ _ _ => [outDir.below key.timingVectorFile]
  | power _ _ outDir key _ => [outDir.below key.powerVectorFile]
  | calibration places key _ =>
    [places.output.below key.slackFile, places.output.below key.slackSpreadFile]

/-- A run that fails, and not because one of its outputs cannot be written, leaves the files as they
were. A run that succeeds changes no files but its outputs, and makes no directories but those on
the way to them. -/
theorem files_outcome (task : Task) (files : FileTree) :
    (∀ e, (task.outcome files).result = .error e →
        (∃ path ∈ task.outputs, ∃ fault, e.fault = .file path fault) ∨
          (task.outcome files).files = files) ∧
      ∀ found, (task.outcome files).result = .ok found →
        files.ConfinedTo (task.outcome files).files task.outputs := by
  cases task with
  | census netlistDir drawingDir key =>
      refine Analysis.files_run (fun found => ?_) fun found output hmem => ?_
      · simp [outputs, drawnIn]
      · obtain ⟨dir, -, rfl⟩ := List.mem_map.mp hmem
        exact Path.isAncestor_below
  | area | calibration =>
      exact Analysis.files_run (fun found => rfl) fun found => by simp [Output.isPlaced_vector]
  | timing | power =>
      exact Analysis.files_run (fun found => rfl) fun (_, _) => by simp [Output.isPlaced_vector]

/-- A directory with all that the power features of one design need, and with no toggle rates of
another. -/
def measured : FileTree where
  entries := [("f", .directory [
    ("spi_sog_vec_area.json", .file (Archive.utf8 "[0,0,0,0,0,0,0,0,0,0,0,0,0,0]")),
    ("uart_sog_vec_area.json", .file (Archive.utf8 "[0,0,0,0,0,0,0,0,0,0,0,0,0,0]")),
    ("uart_tc_avr_all.json", .file (Archive.utf8 "0")),
    ("uart_tc_sum_all.json", .file (Archive.utf8 "0"))])]

/-- The power features of a design, with an output in a new directory below the inputs. -/
def powerOf (design : String) (modulePower : Float) : Task :=
  .power (.ofText "f") (.ofText "f") (.ofText "f/new/power") ⟨design, "sog"⟩ modulePower

/-- The run on one design writes below its own inputs. That on the other lacks a toggle rate, and
leaves all files as they were. -/
theorem files_outcome_measured :
    (∃ found, ((powerOf "uart" 0.5).outcome measured).result = .ok found ∧
      measured.ConfinedTo ((powerOf "uart" 0.5).outcome measured).files
        [.ofText "f/new/power/uart_sog_vec_pwr.json"]) ∧
    ∃ e, ((powerOf "spi" 0.5).outcome measured).result = .error e ∧
      e.fault = .file (.ofText "f/spi_tc_sum_all.json") .notFound ∧
      ((powerOf "spi" 0.5).outcome measured).files = measured := by
  constructor
  · have hok : ((powerOf "uart" 0.5).outcome measured).fault? = none := by decide +kernel
    obtain ⟨found, huart⟩ := RunOutcome.fault?_eq_none_iff.mp hok
    exact ⟨found, huart, (files_outcome (powerOf "uart" 0.5) measured).2 found huart⟩
  · have hfault : ((powerOf "spi" 0.5).outcome measured).fault? =
        some (.file (.ofText "f/spi_tc_sum_all.json") .notFound) := by decide +kernel
    obtain ⟨e, hspi, he⟩ := RunOutcome.fault?_eq_some_iff.mp hfault
    refine ⟨e, hspi, he, ?_⟩
    rcases (files_outcome (powerOf "spi" 0.5) measured).1 e hspi with
      ⟨path, hmem, fault, he'⟩ | hsame
    · obtain rfl := List.mem_singleton.mp hmem
      rw [he, RunFault.file.injEq] at he'
      exact absurd he'.1 (by decide)
    · exact hsame

end Task

end Presynth.Run
