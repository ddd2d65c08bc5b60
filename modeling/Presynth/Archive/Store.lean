import Presynth.Archive.Container
import Presynth.Archive.Payload
import Presynth.DesignKey
import Presynth.Storage.FileTree
/-!
# Stored netlists

A netlist is stored as two files in one directory, named by the design key. Both files are checked
when they are read; there is nothing to fall back on, so a bad file is an error.
-/

namespace Presynth

/-- Why a netlist cannot be stored or read. -/
inductive ArchiveError where
  /-- A file or directory cannot be used. -/
  | unusable (path : Path) (fault : Fault)
  /-- A file is not what it should be. -/
  | defective (path : Path) (defect : Archive.Defect)
  /-- A half is too large to be written. -/
  | tooLarge
  deriving DecidableEq, Repr

/-- The report of a failure, with paths below `root`. -/
def ArchiveError.message (root : String) : ArchiveError → String
  | unusable path _ => "graph artifact I/O error at " ++ path.shown root
  | defective path defect =>
    "invalid graph artifact " ++ path.shown root ++ ": " ++ defect.reason
  | tooLarge => "graph serialization error"

namespace Archive

variable {α : Type} [BitPattern α]

/-- Reads the value in a file. -/
def readFile {β : Type} (files : FileTree) (path : Path) (kind : PayloadKind) (read : Reader β) :
    Except ArchiveError β :=
  match files.read path with
  | .error fault => .error (.unusable path fault)
  | .ok file =>
    match contentOf kind read file with
    | .error defect => .error (.defective path defect)
    | .ok x => .ok x

/-- Writes a payload as a file. All lengths in a payload are within 64 bits if its own is. -/
def writeFile (files : FileTree) (path : Path) (kind : PayloadKind) (payload : Bytes) :
    Except ArchiveError Unit × FileTree :=
  if payload.length < 1 <<< 64 then
    match files.save path (sealed kind payload) with
    | (.error fault, files) => (.error (.unusable path fault), files)
    | (.ok (), files) => (.ok (), files)
  else (.error .tooLarge, files)

/-- The file of the fanout lists. -/
def adjacencyPath (dir : Path) (key : DesignKey) : Path := dir.below key.adjacencyFile

/-- The file of the registry. -/
def registryPath (dir : Path) (key : DesignKey) : Path := dir.below key.registryFile

/-- Reads the registry of a stored netlist. -/
def readRegistryFile (files : FileTree) (dir : Path) (key : DesignKey) :
    Except ArchiveError (NameMap (Node α)) :=
  readFile files (registryPath dir key) .Registry readRegistry

/-- Reads a stored netlist, the fanout lists first. -/
def readNetlist (files : FileTree) (dir : Path) (key : DesignKey) :
    Except ArchiveError (Netlist α) := do
  let fanout ← readFile files (adjacencyPath dir key) .Adjacency readFanout
  let registry ← readRegistryFile files dir key
  return ⟨registry, fanout⟩

/-- Stores a netlist in a directory, which is made if it is missing. The fanout lists are written
first and stay if the registry cannot be written. -/
def writeNetlist (files : FileTree) (dir : Path) (key : DesignKey) (g : Netlist α) :
    Except ArchiveError Unit × FileTree :=
  match files.makeDirectory dir with
  | (.error fault, files) => (.error (.unusable dir fault), files)
  | (.ok (), files) =>
    match writeFile files (adjacencyPath dir key) .Adjacency (writeFanout g.fanout) with
    | (.error e, files) => (.error e, files)
    | (.ok (), files) =>
      writeFile files (registryPath dir key) .Registry (writeRegistry g.registry)

end Archive

end Presynth
