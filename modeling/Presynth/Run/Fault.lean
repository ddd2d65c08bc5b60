import Presynth.Archive.Store
import Presynth.Estimate.Mnemonic
import Presynth.Netlist.Width
import Presynth.Slack.Calibration
import Presynth.Timing.Error
/-!
# Failed runs

A run on a design fails for a cause in one of the analyses or in one of its files. The failure names
the design.
-/

namespace Presynth

/-- Why a run fails. -/
inductive RunFault where
  /-- Some nodes have no width. -/
  | width (stall : WidthStall)
  /-- The stored netlist cannot be used. -/
  | archive (cause : ArchiveError)
  /-- Some node has no cost. -/
  | cost (cause : CostError)
  /-- Some signal cannot take part in timing. -/
  | timing (cause : TimingError Float)
  /-- The predicted or the reference slacks cannot be used. -/
  | calibration (cause : CalibrationError Float)
  /-- The reference report cannot be read. -/
  | report (path : Path) (fault : Fault)
  /-- Another file cannot be read or written. -/
  | file (path : Path) (fault : Fault)
  /-- A file does not hold numbers. -/
  | malformed (path : Path)
  /-- A file holds a vector of another length. -/
  | vectorLength (path : Path) (found expected : Nat)
  deriving DecidableEq, Repr

/-- The report of a fault, with paths below `root`. -/
def RunFault.message (root : String) : RunFault → String
  | width stall => stall.message
  | archive cause => cause.message root
  | cost cause => cause.message
  | timing cause => cause.message
  | calibration cause => cause.message
  | report path _ => "I/O error at " ++ path.shown root
  | file path _ => "I/O error at " ++ path.shown root
  | malformed path => "invalid JSON in " ++ path.shown root
  | vectorLength path found expected =>
    path.shown root ++ " holds " ++ toString found ++ " value(s), expected " ++ toString expected

/-- A failed run on a design. -/
structure RunError where
  design : String
  fault : RunFault
  deriving DecidableEq, Repr

namespace RunError

/-- How the report of a failed run begins. -/
def opening (e : RunError) : String := "design '" ++ e.design ++ "': "

/-- The report of a failed run. -/
def message (root : String) (e : RunError) : String := e.opening ++ e.fault.message root

end RunError

end Presynth
