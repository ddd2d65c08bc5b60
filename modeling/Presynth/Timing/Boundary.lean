import Presynth.Netlist.Node
/-!
# Classes of timing paths

A timing path leads from a register or an input to a register or an output. Whether its ends are
registers decides which delays outside the design count towards it.
-/

namespace Presynth

/-- The kinds of the two ends of a timing path. -/
inductive PathBoundary where
  | RegToReg
  | InToReg
  | RegToOut
  | InToOut
  deriving DecidableEq, Repr

namespace PathBoundary

/-- All classes. -/
def all : List PathBoundary := [RegToReg, InToReg, RegToOut, InToOut]

theorem mem_all (b : PathBoundary) : b ∈ all := by cases b <;> decide

/-- The name of a class. -/
def name : PathBoundary → String
  | RegToReg => "RegToReg"
  | InToReg => "InToReg"
  | RegToOut => "RegToOut"
  | InToOut => "InToOut"

/-- The class of a path by the kinds of its ends. Whatever is not a register counts as a port. -/
def classify (launch capture : Option NodeKind) : PathBoundary :=
  match launch == some .Reg, capture == some .Reg with
  | true, true => RegToReg
  | false, true => InToReg
  | true, false => RegToOut
  | false, false => InToOut

/-- Do paths of this class start at an input? -/
def startsAtInput : PathBoundary → Bool
  | InToReg | InToOut => true
  | RegToReg | RegToOut => false

/-- Do paths of this class end at an output? -/
def endsAtOutput : PathBoundary → Bool
  | RegToOut | InToOut => true
  | RegToReg | InToReg => false

end PathBoundary

end Presynth
