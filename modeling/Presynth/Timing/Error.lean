import Presynth.Decimal.Layout
/-!
# Failures of a timing analysis

A signal that takes part in timing must be registered and have a usable delay.
-/

namespace Presynth

variable {α : Type}

/-- Why a signal cannot take part in timing. -/
inductive TimingError (α : Type) where
  /-- The signal is not registered. -/
  | unknownNode (name : String)
  /-- There is no delay for the signal. -/
  | missingDelay (name : String)
  /-- The estimate for the signal is no delay. -/
  | malformedDelay (name : String) (value : α)
  deriving DecidableEq, Repr

namespace TimingError

/-- The signal that a failure is about. -/
def signal : TimingError α → String
  | unknownNode name | missingDelay name | malformedDelay name _ => name

/-- The report of a failure. -/
def message : TimingError Float → String
  | unknownNode name => "signal '" ++ name ++ "' is not in the node registry"
  | missingDelay name => "no delay estimate for node '" ++ name ++ "'"
  | malformedDelay name value =>
    "malformed delay estimate " ++ Decimal.plainText value ++ " for node '" ++ name ++ "'"

end TimingError

end Presynth
