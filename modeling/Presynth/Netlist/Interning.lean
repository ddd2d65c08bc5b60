import Presynth.Netlist.Basic
/-!
# Numbering the signals of a netlist

Traversals that visit every signal many times work on small numbers instead of names. The numbers
are dense from zero: first the signals of the fanout lists in name order, then the registered names
that are left, in name order.
-/

namespace Presynth

variable {α : Type}

namespace Netlist

/-- Numbers a name after the names that have a number already, unless it is among them. -/
def intern (names : List String) (name : String) : List String :=
  if name ∈ names then names else names ++ [name]

/-- All names of a netlist, each once, in the order of their numbers. -/
def internedNames (g : Netlist α) : List String :=
  (g.signals ++ g.registry.keys).foldl intern []

end Netlist

/-- A numbering of `n` names. -/
structure Numbering (n : Nat) where
  names : Vector String n

namespace Numbering

variable {n : Nat}

/-- The number of a name. -/
def id? (numbering : Numbering n) (name : String) : Option (Fin n) :=
  numbering.names.finIdxOf? name

/-- The name of a number. -/
def name (numbering : Numbering n) (i : Fin n) : String := numbering.names[i]

end Numbering

/-- The number of names of a netlist. -/
def Netlist.internedSize (g : Netlist α) : Nat := g.internedNames.length

/-- The numbering of the names of a netlist. -/
def Netlist.numbering (g : Netlist α) : Numbering g.internedSize :=
  ⟨⟨g.internedNames.toArray, by simp [internedSize]⟩⟩

end Presynth
