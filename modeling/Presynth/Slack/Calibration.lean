import Presynth.Diagnostic
import Presynth.Decimal.Layout
import Presynth.Slack.Summary
/-!
# Calibrating predicted slacks

A model predicts one slack for each of many sampled paths. The least of them is too pessimistic as
the worst slack of the design; a percentile is taken instead, which moves to the pessimistic end as
designs grow. Everything is computed from the sorted sample, so the order of the sample is lost.
-/

namespace Presynth

variable {α : Type}

/-- The percentiles in use, counted from the greatest slack. -/
inductive Percentile where
  | P10
  | P50
  | P90
  deriving DecidableEq, Repr

/-- The name of a percentile. -/
def Percentile.name : Percentile → String
  | P10 => "p10"
  | P50 => "p50"
  | P90 => "p90"

/-- Why a population of numbers cannot be evaluated. -/
inductive CalibrationError (α : Type) where
  /-- There are no numbers. -/
  | emptyPopulation (what : String)
  /-- A number is infinite or undefined. -/
  | nonFinite (what : String) (index : Nat) (value : α)
  deriving DecidableEq, Repr

/-- The report of an unusable population. -/
def CalibrationError.message : CalibrationError Float → String
  | emptyPopulation what => "empty " ++ what ++ " population"
  | nonFinite what index value =>
    "non-finite " ++ what ++ " sample " ++ Decimal.plainText value ++ " at index " ++ toString index

/-- The values at the three percentiles. -/
structure Spread (α : Type) where
  p10 : α
  p50 : α
  p90 : α
  deriving DecidableEq, Repr, BEq

/-- The three values in order. -/
def Spread.toVector (s : Spread α) : List α := [s.p10, s.p50, s.p90]

/-- What a calibration found. -/
structure Calibration (α : Type) where
  /-- The number of samples that were used. -/
  sampleLen : Nat
  /-- The slack at the chosen percentile. -/
  calibratedWns : α
  percentile : Percentile
  spread : Spread α
  median : α
  mean : α
  deriving DecidableEq, Repr, BEq

/-! ### Populations -/

/-- The first number, with its index, that is not finite. -/
def firstNonFinite? [Quantity α] : List α → Option (Nat × α)
  | [] => none
  | x :: rest =>
    if Quantity.isFinite x then (firstNonFinite? rest).map fun (i, y) => (i + 1, y) else some (0, x)

/-- Refuses a population without numbers or with a number that is not finite. -/
def checkPopulation [Quantity α] (what : String) (xs : List α) :
    Except (CalibrationError α) Unit :=
  if xs.isEmpty then .error (.emptyPopulation what)
  else
    match firstNonFinite? xs with
    | some (index, value) => .error (.nonFinite what index value)
    | none => .ok ()

section Arithmetic

variable [Zero α] [Add α] [Mul α] [Div α] [NatCast α]

/-- The mean of numbers. -/
def meanOf (xs : List α) : α := sumOf xs / (xs.length : α)

/-- The median of sorted numbers: the middle one, or the mean of the two in the middle. -/
def medianOf (sorted : List α) : α :=
  let n := sorted.length
  -- without any numbers both positions fall back to zero
  if n % 2 = 1 then sorted.getD (n / 2) 0
  else (sorted.getD (n / 2 - 1) 0 + sorted.getD (n / 2) 0) / ((2 : Nat) : α)

/-- The part of the numbers that lies before a percentile. -/
def Percentile.fraction : Percentile → α
  | P10 => ((1 : Nat) : α) / ((10 : Nat) : α)
  | P50 => ((1 : Nat) : α) / ((2 : Nat) : α)
  | P90 => ((9 : Nat) : α) / ((10 : Nat) : α)

/-- The index of a percentile among `n` numbers: a half goes to the even neighbour, and the last
number is the limit. -/
def percentileIndex [Quantity α] (n : Nat) (fraction : α) : Nat :=
  min (Quantity.toWord (Quantity.roundEven (fraction * (n : α)))) (n - 1)

section Policy

variable [LT α] [DecidableLT α] [LE α] [DecidableLE α] [Quantity α]

/-- The percentile for a design with a number of register bits. -/
def CalibrationPolicy.percentile (policy : CalibrationPolicy α) (seqBits : Nat) : Percentile :=
  let kilo := (seqBits : α) / ((1000 : Nat) : α)
  if kilo ≤ policy.smallScale then .P10
  else if kilo ≤ policy.mediumScale then .P50
  else .P90

/-- The number of samples for a design with a number of register bits. -/
def CalibrationPolicy.sampleSize (policy : CalibrationPolicy α) (seqBits : Nat) : Nat :=
  let raw := (seqBits : α) * policy.sampleRatio
  if (policy.maxSamples : α) < raw then policy.maxSamples
  else if raw < policy.sparseFloor then policy.minSamples
  else Quantity.toWord (Quantity.roundEven raw)

/-- Numbers in decreasing order. -/
def sortedDown (xs : List α) : List α := xs.mergeSort fun x y => Quantity.totalLe y x

/-- What is found in a sorted sample that is not empty. -/
def Calibration.ofSorted (percentile : Percentile) (sorted : List α) : Calibration α :=
  let pick (p : Percentile) : α := sorted.getD (percentileIndex sorted.length (p.fraction : α)) 0
  { sampleLen := sorted.length
    calibratedWns := pick percentile
    percentile
    spread := ⟨pick .P10, pick .P50, pick .P90⟩
    median := medianOf sorted
    mean := meanOf sorted }

/-- Calibrates the first predicted slacks, as many as the policy asks for. -/
def CalibrationPolicy.calibrate (policy : CalibrationPolicy α) (seqBits : Nat)
    (predicted : List α) : Except (CalibrationError α) (Calibration α) :=
  let sample := predicted.take (policy.sampleSize seqBits)
  (checkPopulation "predicted slack" sample).map fun _ =>
    .ofSorted (policy.percentile seqBits) (sortedDown sample)

end Policy

end Arithmetic

/-- The remark on a calibration. -/
def Calibration.remark (c : Calibration Float) (seqBits total : Nat) : Diagnostic :=
  { severity := .note
    code := ⟨.Calibration, 1⟩
    message := "calibrated WNS " ++ Decimal.fixedText 4 c.calibratedWns ++ " ns"
    notes := [toString c.sampleLen ++ " of " ++ toString total ++ " samples, " ++
      c.percentile.name ++ " for " ++ toString seqBits ++ " register bits"] }

end Presynth
