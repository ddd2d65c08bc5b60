import Presynth.Operator
/-!
# Operators in names

An operator instance carries its operator in its name, as a mnemonic and a number: `And3`,
`top.Plus12`. The token is the leftmost run of one capital and small letters that digits follow at
once, so `LessThan7` is an instance of `Than`.
-/

namespace Presynth

/-- A mnemonic with the number of an instance. -/
structure OperatorToken where
  mnemonic : List Char
  instanceNumber : List Char
  deriving DecidableEq, Repr

/-- The first token of a name. -/
def OperatorToken.find? : List Char → Option OperatorToken
  | [] => none
  | c :: rest =>
    if c.isUpper then
      let digits := (rest.dropWhile Char.isLower).takeWhile Char.isDigit
      -- after letters without digits the search goes on from the next character
      if digits.isEmpty then find? rest else some ⟨c :: rest.takeWhile Char.isLower, digits⟩
    else find? rest

/-- Why the cost of a node cannot be told. -/
inductive CostError where
  /-- The width of the node is not known. -/
  | missingWidth (node : String)
  /-- There is no operator in the name of the node. -/
  | missingMnemonic (node : String)
  /-- The operator of the node has no cost. -/
  | unknownOperator (node mnemonic : String)
  deriving DecidableEq, Repr

/-- The report of a node without a cost. -/
def CostError.message : CostError → String
  | missingWidth node => "node '" ++ node ++ "' has no width; run width inference first"
  | missingMnemonic node => "operator node '" ++ node ++ "' has no mnemonic in its name"
  | unknownOperator node mnemonic =>
    "operator '" ++ mnemonic ++ "' of node '" ++ node ++ "' is not in the technology library"

/-- The operator of an instance name. -/
def Operator.ofInstanceName (name : String) : Except CostError Operator :=
  match OperatorToken.find? name.toList with
  | none => .error (.missingMnemonic name)
  | some token =>
    match Operator.ofMnemonic? (String.ofList token.mnemonic) with
    | none => .error (.unknownOperator name (String.ofList token.mnemonic))
    | some op => .ok op

end Presynth
