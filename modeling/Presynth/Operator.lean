/-!
# Operators of a netlist

The closed set of operators that the cost and delay tables know. An operator instance is named after
its operator: a mnemonic and a number, as in `And3` or `top.Plus12`.

Main statements: `Operator.ofMnemonic?_eq_some_iff` (a mnemonic names exactly its operator) and
`Operator.mem_all` (the listing is complete).
-/

namespace Presynth

/-- The kinds of combinational operators, in the order of every table. -/
inductive Operator where
  | And | Land | Xor | Xnor | Uxor | Or | Unor | Lor | Uor | Unot | Ulnot | Uand | Cond | Eq
  | Concat | Plus | Minus | Uminus | Repeat | Divide | Mod | Times | Than | Sra | Sla | Sll | Srl
  | Case | Mux
  deriving DecidableEq, Repr, Inhabited

/-- The gate families that are counted one by one. -/
inductive GateFamily where
  | And | Or | Not | Xor | Mux
  deriving DecidableEq, Repr

namespace Operator

/-- All operators, in table order. -/
def all : List Operator :=
  [And, Land, Xor, Xnor, Uxor, Or, Unor, Lor, Uor, Unot, Ulnot, Uand, Cond, Eq, Concat, Plus, Minus,
    Uminus, Repeat, Divide, Mod, Times, Than, Sra, Sla, Sll, Srl, Case, Mux]

theorem mem_all (op : Operator) : op ∈ all := by cases op <;> decide

/-- The name of an operator in instance names and tables. -/
def mnemonic : Operator → String
  | And => "And"
  | Land => "Land"
  | Xor => "Xor"
  | Xnor => "Xnor"
  | Uxor => "Uxor"
  | Or => "Or"
  | Unor => "Unor"
  | Lor => "Lor"
  | Uor => "Uor"
  | Unot => "Unot"
  | Ulnot => "Ulnot"
  | Uand => "Uand"
  | Cond => "Cond"
  | Eq => "Eq"
  | Concat => "Concat"
  | Plus => "Plus"
  | Minus => "Minus"
  | Uminus => "Uminus"
  | Repeat => "Repeat"
  | Divide => "Divide"
  | Mod => "Mod"
  | Times => "Times"
  | Than => "Than"
  | Sra => "Sra"
  | Sla => "Sla"
  | Sll => "Sll"
  | Srl => "Srl"
  | Case => "Case"
  | Mux => "Mux"

/-- The operator of a mnemonic; case counts. -/
def ofMnemonic? (mnemonic : String) : Option Operator :=
  all.find? (fun op => op.mnemonic == mnemonic)

/-- The gate family that an operator is counted in. -/
def family? : Operator → Option GateFamily
  | And => some .And
  | Or => some .Or
  | Unot | Ulnot => some .Not
  | Xor => some .Xor
  | Cond | Mux => some .Mux
  | _ => none

/-- The report of a mnemonic outside the closed set. -/
def unknownMessage (mnemonic : String) : String :=
  "unsupported operator mnemonic '" ++ mnemonic ++ "'"

theorem ofMnemonic?_mnemonic (op : Operator) : ofMnemonic? op.mnemonic = some op := by
  cases op <;> decide

theorem ofMnemonic?_eq_some_iff {mnemonic : String} {op : Operator} :
    ofMnemonic? mnemonic = some op ↔ mnemonic = op.mnemonic := by
  refine ⟨fun h => ?_, fun h => h ▸ ofMnemonic?_mnemonic op⟩
  have h := List.find?_some h
  exact (beq_iff_eq.1 h).symm

end Operator

namespace GateFamily

/-- The name of a gate family. -/
def name : GateFamily → String
  | And => "And"
  | Or => "Or"
  | Not => "Not"
  | Xor => "Xor"
  | Mux => "Mux"

end GateFamily

end Presynth
