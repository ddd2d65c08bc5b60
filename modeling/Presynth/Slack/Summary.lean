import Presynth.Quantity
import Presynth.Technology.Basic
import Presynth.Timing.Sweep
/-!
# Slack

The slack of a path is the time by which it arrives early, or zero for a path that arrives early
enough: only lateness counts. A design is summed up by its worst slack and by the total of all.
-/

namespace Presynth

variable {α : Type}

/-! ### Sums and extremes -/

/-- The sum of numbers from the first on. -/
def sumOf [Zero α] [Add α] : List α → α
  | [] => 0
  | x :: rest => rest.foldl (· + ·) x

/-- The lesser of a number found so far and the next. An undefined number, which is not even `≤`
itself, is passed over. -/
def lesser? [LT α] [DecidableLT α] [LE α] [DecidableLE α] : Option α → α → Option α
  -- only an undefined number is not `≤` itself
  | none, x => if x ≤ x then some x else none
  | some least, x => some (if x < least then x else least)

/-- The least of numbers. -/
def leastOf [LT α] [DecidableLT α] [LE α] [DecidableLE α] [Quantity α] (xs : List α) : α :=
  (xs.foldl lesser? none).getD Quantity.emptyMin

/-! ### Summaries -/

/-- The worst slack of a design and the total of its slacks. -/
structure TimingSummary (α : Type) where
  wns : α
  tns : α
  deriving DecidableEq, Repr, BEq

namespace TimingSummary

/-- Sums slacks up; without any, the design is exactly on time. -/
def ofSlacks [Zero α] [Add α] [LT α] [DecidableLT α] [LE α] [DecidableLE α] [Quantity α]
    (slacks : List α) : TimingSummary α :=
  if slacks.isEmpty then ⟨0, 0⟩ else ⟨leastOf slacks, sumOf slacks⟩

/-- The two numbers in order. -/
def toVector (s : TimingSummary α) : List α := [s.wns, s.tns]

/-- Is no path late? -/
def isMet [Zero α] [LE α] [DecidableLE α] (s : TimingSummary α) : Bool := decide (0 ≤ s.wns)

end TimingSummary

/-! ### Slacks of paths -/

/-- The time that paths may take, and the delays outside the design. -/
structure SlackBudget (α : Type) where
  required : α
  inputDelay : α
  outputDelay : α
  deriving DecidableEq, Repr

namespace SlackBudget

/-- The budget that timing rules leave. -/
def ofRules [Sub α] [Mul α] [Div α] [NatCast α] (t : TimingRules α) : SlackBudget α :=
  ⟨t.requiredTime, t.inputDelay, t.outputDelay⟩

/-- When a path of a class has to arrive. -/
def requiredAt [Sub α] (budget : SlackBudget α) (b : PathBoundary) : α :=
  if b.endsAtOutput then budget.required - budget.outputDelay else budget.required

/-- When a path of a class with a delay arrives. -/
def arrivalOf [Add α] (budget : SlackBudget α) (delay : α) (b : PathBoundary) : α :=
  if b.startsAtInput then delay + budget.inputDelay else delay

section

variable [Zero α] [Add α] [Sub α] [LT α] [DecidableLT α]

/-- The slack of a path of a class with a delay; never positive. -/
def slack (budget : SlackBudget α) (delay : α) (b : PathBoundary) : α :=
  let margin := budget.requiredAt b - budget.arrivalOf delay b
  if margin < 0 then margin else 0

/-- The slacks of paths of one class. -/
def slacks (budget : SlackBudget α) (delays : List α) (b : PathBoundary) : List α :=
  delays.map fun d => budget.slack d b

/-- The slacks of paths. -/
def pathSlacks (budget : SlackBudget α) (paths : List (TimingPath α)) : List α :=
  paths.map fun p => budget.slack p.delay p.boundary

variable [LE α] [DecidableLE α] [Quantity α]

/-- Sums up paths of one class. -/
def summarize (budget : SlackBudget α) (delays : List α) (b : PathBoundary) : TimingSummary α :=
  .ofSlacks (budget.slacks delays b)

/-- Sums up paths of any classes. -/
def summarizePaths (budget : SlackBudget α) (paths : List (TimingPath α)) : TimingSummary α :=
  .ofSlacks (budget.pathSlacks paths)

end

end SlackBudget

end Presynth
