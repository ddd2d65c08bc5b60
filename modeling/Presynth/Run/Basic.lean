import Presynth.Diagnostic
import Presynth.Netlist.Width
import Presynth.Run.Vector
/-!
# Runs

A run reads files, computes, and publishes what it found in other files. Computing comes first and
sees the files only as a value, so that a run that fails in it has written nothing. Publishing
writes the outputs in order and stops at the first that cannot be written.

Main statement: `Analysis.files_run_of_error` (a failed analysis leaves the files alone).
-/

namespace Presynth

/-- A computation that may make remarks and may fail. Remarks made before a failure are kept. -/
abbrev Analysis := ExceptT RunFault (StateM (List Diagnostic))

/-- A file that a run writes. -/
structure Output where
  /-- The directory that is made first, with all on the way to it. -/
  directory : Path
  path : Path
  content : Archive.Bytes
  deriving DecidableEq, Repr

/-- What a run leaves: its result, its remarks in order, and the files. -/
structure RunOutcome (β : Type) where
  result : Except RunError β
  remarks : List Diagnostic
  files : FileTree

namespace Output

/-- A vector in a file, whose directory is made if it is missing. -/
def vector (path : Path) (values : List Float) : Output :=
  ⟨path.parent, path, Archive.utf8 (Run.vectorText values)⟩

/-- Writes an output. -/
def write (files : FileTree) (output : Output) : Except RunFault Unit × FileTree :=
  match files.writeBelow output.directory output.path output.content with
  | (.error fault, files) => (.error (.file output.path fault), files)
  | (.ok (), files) => (.ok (), files)

/-- Writes outputs in order, up to the first that cannot be written. -/
def publish : List Output → FileTree → Except RunFault Unit × FileTree
  | [], files => (.ok (), files)
  | output :: rest, files =>
    match output.write files with
    | (.error e, files) => (.error e, files)
    | (.ok (), files) => publish rest files

end Output

namespace Analysis

variable {β : Type}

/-- Makes a remark. -/
def remark (d : Diagnostic) : Analysis Unit := modify (· ++ [d])

/-- Makes remarks in order. -/
def remarkAll (ds : List Diagnostic) : Analysis Unit := modify (· ++ ds)

/-- Fails where another computation does. -/
def orFail {ε : Type} (fault : ε → RunFault) (result : Except ε β) : Analysis β :=
  match result with
  | .ok x => pure x
  | .error e => throw (fault e)

/-- Runs an analysis on a design and publishes its outputs. -/
def run (design : String) (files : FileTree) (analysis : Analysis β) (outputs : β → List Output) :
    RunOutcome β :=
  match (ExceptT.run analysis).run [] with
  | (.error fault, remarks) => ⟨.error ⟨design, fault⟩, remarks, files⟩
  | (.ok x, remarks) =>
    match Output.publish (outputs x) files with
    | (.error fault, files) => ⟨.error ⟨design, fault⟩, remarks, files⟩
    | (.ok (), files) => ⟨.ok x, remarks, files⟩

theorem files_run_of_error {design : String} {files : FileTree} {analysis : Analysis β}
    {outputs : β → List Output} {fault : RunFault} {remarks : List Diagnostic}
    (h : (ExceptT.run analysis).run [] = (.error fault, remarks)) :
    analysis.run design files outputs = ⟨.error ⟨design, fault⟩, remarks, files⟩ := by
  simp only [run, h]

end Analysis

/-! ### Stored netlists in runs -/

/-- The remark on a complete inference of widths. -/
def WidthReport.remark (report : WidthReport) (key : DesignKey) : Diagnostic :=
  { severity := .note
    code := ⟨.Graph, 1⟩
    message := "inferred " ++ toString report.inferred ++ " width(s) in " ++
      toString report.passes ++ " pass(es)"
    subject := some key.stem }

/-- Reads a stored netlist and infers its widths. -/
def Analysis.netlist (files : FileTree) (dir : Path) (key : DesignKey) :
    Analysis (Netlist Float) := do
  let g ← orFail .archive (Archive.readNetlist files dir key)
  let (result, g) := g.inferWidths
  let report ← orFail .width result
  remark (report.remark key)
  return g

end Presynth
