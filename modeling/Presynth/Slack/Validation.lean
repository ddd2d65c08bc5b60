import Presynth.Slack.Calibration
/-!
# Comparing calibrated with reference slacks

For designs whose slacks a reference tool reported, calibrated and reference slacks are compared:
design by design in records, and over many designs by correlation and by relative errors. All sums
are exact where the numbers are; square roots are taken of the sums at the very end.
-/

namespace Presynth

variable {α : Type}

/-- The reference slacks and the calibrated slack of a design. -/
structure ValidationRecord (α : Type) where
  design : String
  /-- The worst reference slack. -/
  referenceWns : α
  /-- The best reference slack. -/
  referenceBest : α
  calibratedWns : α
  predictedMean : α
  deriving DecidableEq, Repr, BEq

section Records

variable [LT α] [DecidableLT α] [LE α] [DecidableLE α] [Quantity α]

/-- The greater of a number found so far and the next. -/
def greater? : Option α → α → Option α
  | none, x => some x
  | some greatest, x => some (if greatest < x then x else greatest)

/-- Records the calibration of a design beside its reference slacks. -/
def ValidationRecord.ofReference (design : String) (reference : List α) (c : Calibration α) :
    Except (CalibrationError α) (ValidationRecord α) :=
  (checkPopulation "reference slack" reference).map fun _ =>
    { design
      referenceWns := leastOf reference
      referenceBest := (reference.foldl greater? none).getD Quantity.emptyMin
      calibratedWns := c.calibratedWns
      predictedMean := c.mean }

end Records

/-! ### Moments -/

/-- The sums over the designs from which the measures of agreement follow. -/
structure Moments (α : Type) where
  /-- Products of the deviations of truth and prediction from their means. -/
  covariance : α
  /-- Squared deviations of the truth from its mean. -/
  truthVariance : α
  /-- Squared deviations of the prediction from its mean. -/
  predictionVariance : α
  /-- Squared errors. -/
  squaredError : α
  /-- Relative errors, each at most one. -/
  relativeError : α
  deriving DecidableEq, Repr

/-- How well calibrated slacks agree with the reference over many designs. -/
structure Agreement (α : Type) where
  designs : Nat
  /-- The correlation of calibrated and reference slacks. -/
  pearsonR : Option α
  /-- The mean relative error in percent. -/
  mape : α
  /-- The root of the relative squared error. -/
  rrse : Option α
  deriving DecidableEq, Repr, BEq

section Sums

variable [Zero α] [One α] [Add α] [Sub α] [Mul α] [Div α] [Neg α] [NatCast α] [LT α] [DecidableLT α]
  [BEq α]

/-- The relative error of a prediction, at most one. Where the truth is zero, any error is whole. -/
def relativeErrorOf (truth prediction : α) : α :=
  if truth == 0 then (if prediction == 0 then 0 else 1)
  else
    let ratio := (prediction - truth) / truth
    let size := if ratio < 0 then -ratio else ratio
    if size < 1 then size else 1

/-- Adds a design with its truth and prediction to the sums, given the two means. -/
def Moments.add (truthMean predictionMean : α) (m : Moments α) (design : α × α) : Moments α :=
  let (t, p) := design
  { covariance := m.covariance + (t - truthMean) * (p - predictionMean)
    truthVariance := m.truthVariance + (t - truthMean) * (t - truthMean)
    predictionVariance := m.predictionVariance + (p - predictionMean) * (p - predictionMean)
    squaredError := m.squaredError + (p - t) * (p - t)
    relativeError := m.relativeError + relativeErrorOf t p }

/-- The sums over designs, given as truths and predictions. -/
def Moments.ofDesigns (designs : List (α × α)) : Moments α :=
  designs.foldl (Moments.add (meanOf (designs.map (·.1))) (meanOf (designs.map (·.2))))
    ⟨0, 0, 0, 0, 0⟩

/-- The mean relative error in percent, over `n` designs. -/
def Moments.meanRelativeError (m : Moments α) (n : Nat) : α :=
  m.relativeError / (n : α) * ((100 : Nat) : α)

/-- The covariance and the product of the variances, whose root divides it in the correlation. There
is none for a single design or where all truths or all predictions agree. -/
def Moments.correlation? (m : Moments α) (n : Nat) : Option (α × α) :=
  if 2 ≤ n ∧ 0 < m.truthVariance ∧ 0 < m.predictionVariance then
    some (m.covariance, m.truthVariance * m.predictionVariance)
  else none

/-- The squared error relative to that of always predicting the mean, if the truths differ. -/
def Moments.relativeSquaredError? (m : Moments α) : Option α :=
  if 0 < m.truthVariance then some (m.squaredError / m.truthVariance) else none

/-- Sums up the records of at least one design, with a given function for square roots. -/
def Agreement.ofRecords (root : α → α) (records : List (ValidationRecord α)) :
    Except (CalibrationError α) (Agreement α) :=
  if records.isEmpty then .error (.emptyPopulation "validation record")
  else
    let m := Moments.ofDesigns (records.map fun r => (r.referenceWns, r.calibratedWns))
    let n := records.length
    .ok
      { designs := n
        pearsonR := (m.correlation? n).map fun (cov, var) => cov / root var
        mape := m.meanRelativeError n
        rrse := m.relativeSquaredError?.map root }

end Sums

/-- The agreement in doubles. -/
abbrev ValidationSummary := Agreement Float

/-- Sums up the records of at least one design. -/
def ValidationSummary.ofRecords (records : List (ValidationRecord Float)) :
    Except (CalibrationError Float) ValidationSummary :=
  Agreement.ofRecords Float.sqrt records

end Presynth
