import Presynth.Storage.Fault
/-!
# Refused technology files

A technology file is refused if it cannot be read, if it is no table of the expected shape, if it
names an operator outside the closed set, or if a value is out of its range.
-/

namespace Presynth

/-- Why a technology file is refused. -/
inductive TechnologyError where
  /-- The file cannot be read. -/
  | unreadable (fault : Fault)
  /-- The text is not of the expected form. -/
  | malformed
  /-- A table names an operator that does not exist. -/
  | unknownOperator (mnemonic : String)
  /-- A value is out of range. -/
  | outOfRange (complaint : String)
  deriving DecidableEq, Repr

/-- The report of a refusal. -/
def TechnologyError.message : TechnologyError → String
  | unreadable _ => "failed to read technology library"
  | malformed => "failed to parse technology library"
  | unknownOperator mnemonic => "unknown operator '" ++ mnemonic ++ "' in technology library"
  | outOfRange complaint => "validation error: " ++ complaint

end Presynth
