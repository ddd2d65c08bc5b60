import Presynth.Json.Reader
import Presynth.Netlist.Basic
import Presynth.Technology.Basic
import Presynth.Estimate.Mnemonic
import Presynth.Timing.Error
import Presynth.Storage.FileTree
/-!
# Delay estimates

Delays come from a source that is asked about one node at a time: the technology, a table of
estimates made elsewhere, or any function. Annotating a netlist asks about every signal of its
fanout lists in name order and stops at the first that has no usable delay.
-/

namespace Presynth

variable {α : Type}

/-- Estimates the delay of a node, if it can. -/
abbrev DelaySource (α : Type) := Node α → Option α

/-- The delays of a technology: registers and characterised operators take time, all other signals
none. -/
def TimingRules.delaySource [Zero α] (t : TimingRules α) : DelaySource α := fun node =>
  if node.kind = .Reg then some t.registerDelay
  else if node.kind.isCombinational then
    match Operator.ofInstanceName node.name with
    | .ok op => t.gateDelays op
    | .error _ => none
  else some 0

/-- A table of estimates by node name. -/
abbrev DelayTable (α : Type) := NameMap α

namespace DelayTable

/-- Estimates by looking the name of a node up. -/
def delaySource (table : DelayTable α) : DelaySource α := fun node => NameMap.get? table node.name

/-- The entries of an object of numbers. -/
def entries? : List (Option String × Json) → Option (List (String × Float))
  | [] => some []
  | (some name, .number n) :: rest => do
    let x ← n.toFloat?
    let more ← entries? rest
    return (name, x) :: more
  | _ :: _ => none

/-- Reads an object of numbers; of a repeated name the last number counts. -/
def parse? (text : String) : Option (DelayTable Float) :=
  match Json.parse? text with
  | some (.object members) => (entries? members).map NameMap.ofList
  | _ => none

end DelayTable

/-- Why a file of delays cannot be used. -/
inductive DelayTableError where
  /-- The file cannot be read. -/
  | unreadable (path : Path) (fault : Fault)
  /-- The text is no table of numbers. -/
  | malformed
  deriving DecidableEq, Repr

/-- Reads a table from a text file. -/
def DelayTable.load (files : FileTree) (path : Path) : Except DelayTableError (DelayTable Float) :=
  match files.readText path with
  | .error fault => .error (.unreadable path fault)
  | .ok text =>
    match DelayTable.parse? text with
    | some table => .ok table
    | none => .error .malformed

namespace Netlist

variable [Zero α] [LT α] [DecidableLT α] [Quantity α]

/-- The delay of the signal `name` by a source, if it is a usable one: finite and not negative. -/
def estimatedDelay (g : Netlist α) (source : DelaySource α) (name : String) :
    Except (TimingError α) α :=
  match g.node? name with
  | none => .error (.unknownNode name)
  | some node =>
    match source node with
    | none => .error (.missingDelay name)
    | some d =>
      if !Quantity.isFinite d || d < 0 then .error (.malformedDelay name d) else .ok d

/-- Annotates the signals `names` in order, up to the first without a usable delay. -/
def annotateEach (source : DelaySource α) :
    List String → Netlist α → Except (TimingError α) Unit × Netlist α
  | [], g => (.ok (), g)
  | name :: rest, g =>
    match g.estimatedDelay source name with
    | .error e => (.error e, g)
    | .ok d =>
      annotateEach source rest (g.modifyNode name fun node => { node with delay := some d })

/-- Annotates every signal of the fanout lists with its delay, and counts them. -/
def annotateDelays (g : Netlist α) (source : DelaySource α) :
    Except (TimingError α) Nat × Netlist α :=
  let (result, g') := annotateEach source g.signals g
  (result.map fun _ => g.signals.length, g')

end Netlist

end Presynth
