import Presynth.Decimal.Fixed
/-!
# Diagnostics

Remarks that an analysis makes beside its result. A failed analysis ends in an error instead, so a
warning is the most severe remark. Remarks are listed in the order in which they were made.
-/

namespace Presynth

/-- How much a remark matters. -/
inductive Severity where
  | note
  | warning
  deriving DecidableEq, Repr

namespace Severity

/-- The word for a severity in messages. -/
def word : Severity → String
  | note => "note"
  | warning => "warning"

/-- The more severe of two. -/
def worse : Severity → Severity → Severity
  | note, s => s
  | warning, _ => warning

end Severity

namespace Diagnostic

/-- The part of the analysis that a remark comes from. -/
inductive Category where
  | Graph
  | Cost
  | Timing
  | Calibration
  | Report
  deriving DecidableEq, Repr

/-- The letter that a code starts with. -/
def Category.letter : Category → String
  | .Graph => "G"
  | .Cost => "A"
  | .Timing => "T"
  | .Calibration => "C"
  | .Report => "R"

/-- The identity of a kind of remark: a category and a 16 bit number in it. -/
structure Code where
  category : Category
  number : UInt16
  deriving DecidableEq, Repr

/-- A code as it is shown, the number with at least three digits. -/
def Code.text (code : Code) : String := code.category.letter ++ Decimal.padded 3 code.number.toNat

end Diagnostic

/-- A remark, what it is about, and further notes on it. -/
structure Diagnostic where
  severity : Severity
  code : Diagnostic.Code
  message : String
  subject : Option String := none
  notes : List String := []
  deriving DecidableEq, Repr

namespace Diagnostic

/-- A remark in full: its first line, then a line for the subject and one for each note. -/
def text (d : Diagnostic) : String :=
  d.severity.word ++ "[" ++ d.code.text ++ "]: " ++ d.message ++
    (match d.subject with
      | some subject => "\n  --> " ++ subject
      | none => "") ++
    String.join (d.notes.map ("\n  = note: " ++ ·))

/-- The highest severity among remarks. -/
def worst? (all : List Diagnostic) : Option Severity :=
  all.foldl (fun found d => some ((found.getD .note).worse d.severity)) none

end Diagnostic

end Presynth
