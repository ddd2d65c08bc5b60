import Presynth.Diagnostic
import Presynth.Decimal.Numeral
import Presynth.Text.Blank
import Presynth.Text.Lines
import Presynth.Text.WordChar
/-!
# Slacks in timing reports

A reference tool reports slacks in lines such as

    slack (MET)                                    0.4520
    slack (VIOLATED: increase significant digits) -0.0001

The word may be in any case and anywhere in the line; after it comes a tag in parentheses, which is
a single word or the remark of the second form, and the first number after the tag is the slack.
Lines with the word `slack` in small letters that hold no slack are remarked on.
-/

namespace Presynth

namespace SlackLine

/-- The remark on digits that may stand in a tag, in any case. -/
def digitsRemark : List Char := "violated: increase significant digits".toList

/-- Is this an accepted tag? -/
def isTag (tag : List Char) : Bool :=
  (!tag.isEmpty && tag.all Text.isWordChar) || tag.map Char.toLower == digitsRemark

/-- The text after an accepted tag in parentheses, which blanks may precede. -/
def afterTag? (text : List Char) : Option (List Char) :=
  match Text.trimLeft text with
  | '(' :: inner =>
    match inner.dropWhile (· != ')') with
    | ')' :: rest => if isTag (inner.takeWhile (· != ')')) then some rest else none
    | _ => none
  | _ => none

/-- The word before a tag. -/
def word : List Char := ['s', 'l', 'a', 'c', 'k']

/-- The text after the leftmost word `slack` with an accepted tag. -/
def afterSlack? : List Char → Option (List Char)
  | [] => none
  | c :: rest =>
    let here :=
      if Text.startsWith word (((c :: rest).take word.length).map Char.toLower) then
        afterTag? ((c :: rest).drop word.length)
      else none
    -- a refused tag does not end the search
    match here with
    | some found => some found
    | none => afterSlack? rest

/-- May a number start with this character? -/
def startsNumber (c : Char) : Bool := c.isDigit || c == '-' || c == '+' || c == '.'

/-- The first numeral among words, if it is finite. Words that only look like a numeral are passed
over. -/
def firstNumber? (words : List (List Char)) : Option Float :=
  match words.findSome? fun w => if w.head?.any startsNumber then Decimal.numeral? w else none with
  | some x => if x.isFinite then some x else none
  | none => none

/-- The slack that a line carries. -/
def slack? (line : List Char) : Option Float :=
  (afterSlack? line).bind fun rest => firstNumber? (Text.words rest)

end SlackLine

/-! ### Reports -/

/-- What a line of a report yields. -/
inductive ReportEntry where
  | slack (value : Float)
  /-- The line speaks of slack but carries none. -/
  | unrecognized (line : Nat) (text : String)
  deriving DecidableEq, Repr

namespace ReportEntry

/-- What a line yields, by its number. Lines without the word `slack` in small letters yield
nothing. -/
def ofLine? (number : Nat) (line : List Char) : Option ReportEntry :=
  if Text.occursIn SlackLine.word line then
    match SlackLine.slack? line with
    | some x => some (slack x)
    | none => some (unrecognized number (String.ofList (Text.trim line)))
  else none

/-- What the lines of a report yield, the first being number `first`. -/
def ofLines (first : Nat) : List (List Char) → List ReportEntry
  | [] => []
  | line :: rest =>
    match ofLine? first line with
    | some entry => entry :: ofLines (first + 1) rest
    | none => ofLines (first + 1) rest

/-- What a report yields, in order. -/
def ofReport (text : String) : List ReportEntry := ofLines 1 (Text.lines text.toList)

/-- The slack of an entry. -/
def value? : ReportEntry → Option Float
  | slack x => some x
  | unrecognized _ _ => none

/-- The remark on an entry without a slack. -/
def remark? : ReportEntry → Option Diagnostic
  | slack _ => none
  | unrecognized line text =>
    some
      { severity := .warning
        code := ⟨.Report, 1⟩
        message := "unrecognized slack line skipped"
        subject := some ("line " ++ toString line)
        notes := [text] }

end ReportEntry

/-- The slacks of a report in order, and the remarks on lines without one. -/
def reportSlacks (text : String) : List Float × List Diagnostic :=
  let entries := ReportEntry.ofReport text
  (entries.filterMap ReportEntry.value?, entries.filterMap ReportEntry.remark?)

end Presynth
