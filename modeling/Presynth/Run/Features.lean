import Presynth.Estimate.Cost
import Presynth.Estimate.Features
import Presynth.Netlist.Drawing
import Presynth.Run.Basic
/-!
# Runs on the structure of a design

Three runs: the census of a netlist with a drawing of it, its area features, and its power features,
which add measured toggle rates to an area vector made earlier.
-/

namespace Presynth.Run

/-! ### Census -/

/-- The widened netlist of a design with its census. -/
def counted (files : FileTree) (netlistDir : Path) (key : DesignKey) :
    Analysis (Netlist Float × Census) := do
  let g ← .netlist files netlistDir key
  return (g, g.census)

/-- The drawing of a design in a directory. -/
def drawnIn (dir : Path) (key : DesignKey) (g : Netlist Float) : Output :=
  ⟨dir, dir.below key.dotFile, Archive.utf8 (g.drawing key.design)⟩

/-- Counts the signals of a design, and draws it if a directory for drawings is given. -/
def census (files : FileTree) (netlistDir : Path) (drawingDir : Option Path) (key : DesignKey) :
    RunOutcome (Netlist Float × Census) :=
  (counted files netlistDir key).run key.design files fun found =>
    drawingDir.toList.map fun dir => drawnIn dir key found.1

/-! ### Area -/

/-- The remark on the area features of a design. -/
def areaRemark (f : AreaFeatures Float) (key : DesignKey) : Diagnostic :=
  { severity := .note
    code := ⟨.Cost, 1⟩
    message := "area " ++ Decimal.plainText f.totalArea ++ " (" ++ Decimal.plainText f.seqArea ++
      " sequential, " ++ Decimal.plainText f.combArea ++ " combinational), power " ++
      Decimal.plainText f.totalPower
    subject := some key.stem }

/-- The area features of a stored netlist. -/
def areaFeatures (files : FileTree) (netlistDir : Path) (key : DesignKey)
    (tech : Technology Float) : Analysis (AreaFeatures Float) := do
  let g ← .netlist files netlistDir key
  let f ← .orFail .cost (tech.evaluate g)
  .remark (areaRemark f key)
  return f

/-- Estimates the area of a design and writes its area vector. -/
def area (files : FileTree) (netlistDir outDir : Path) (key : DesignKey)
    (tech : Technology Float) : RunOutcome (AreaFeatures Float) :=
  (areaFeatures files netlistDir key tech).run key.design files fun f =>
    [.vector (outDir.below key.areaVectorFile) f.toVector]

/-! ### Power -/

/-- The area vector of a design as it was read, with the power features that follow. -/
def powerFeatures (files : FileTree) (featureDir toggleDir : Path) (key : DesignKey)
    (modulePower : Float) : Analysis (List Float × PowerFeatures Float) := do
  let path := featureDir.below key.areaVectorFile
  let vector ← .orFail id (readVectorOfLength files path AreaFeatures.vectorLength)
  let area ← .orFail id <|
    match AreaFeatures.ofVector? vector with
    | some area => .ok area
    | none => .error (.vectorLength path vector.length AreaFeatures.vectorLength)
  let toggleRateSum ← .orFail id (readScalar files (toggleDir.below key.toggleSumFile))
  let toggleRateAvg ← .orFail id (readScalar files (toggleDir.below key.toggleAverageFile))
  return (vector, { area, toggleRateSum, toggleRateAvg, modulePower })

/-- Adds toggle rates and a power known from elsewhere to an area vector, whose numbers are written
as they were read. -/
def power (files : FileTree) (featureDir toggleDir outDir : Path) (key : DesignKey)
    (modulePower : Float) : RunOutcome (List Float × PowerFeatures Float) :=
  (powerFeatures files featureDir toggleDir key modulePower).run key.design files
    fun (vector, f) =>
      [.vector (outDir.below key.powerVectorFile)
        (vector ++ [f.toggleRateSum, f.toggleRateAvg, f.modulePower])]

end Presynth.Run
