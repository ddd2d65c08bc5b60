import Presynth.Netlist.Basic
/-!
# Inferring widths

Operators and intermediate signals are often made without a width. Such a node takes the greatest
width among the signals that it feeds, so that widths flow backwards from declared signals. The
unresolved nodes are visited in passes; a width assigned in a pass is seen by the rest of that pass.
A pass that resolves nothing ends the inference.
-/

namespace Presynth

variable {α : Type}

/-- What a complete inference did: how many nodes received a width, in how many passes. -/
structure WidthReport where
  inferred : Nat
  passes : Nat
  deriving DecidableEq, Repr

/-- What an incomplete inference left: the unresolved names in visiting order, and the number of
passes with the last, fruitless one. -/
structure WidthStall where
  unresolved : List String
  passes : Nat
  deriving DecidableEq, Repr

/-- The report of an incomplete inference. -/
def WidthStall.message (stall : WidthStall) : String :=
  "width inference stalled after " ++ toString stall.passes ++ " pass(es): " ++
    toString stall.unresolved.length ++ " node(s) unresolved (first: '" ++
    stall.unresolved.headD "" ++ "')"

namespace Netlist

/-- The width under which `name` is known. -/
def knownWidth? (g : Netlist α) (name : String) : Option UInt32 :=
  (g.node? name).bind Node.knownWidth?

/-- The greatest width among `names`, if all are known. -/
def greatestWidth? (g : Netlist α) : List String → Option UInt32
  | [] => some 0
  | name :: rest => do
    let width ← g.knownWidth? name
    let others ← g.greatestWidth? rest
    return max width others

/-- The greatest width among the signals that `name` feeds. There is none if it feeds nothing or
something of unknown width. -/
def fanoutWidth? (g : Netlist α) (name : String) : Option UInt32 :=
  if (g.neighbors name).isEmpty then none else g.greatestWidth? (g.neighbors name)

/-- Gives the node under `name` a width. -/
def setWidth (g : Netlist α) (name : String) (width : UInt32) : Netlist α :=
  g.modifyNode name fun node => { node with width := some width }

/-- One pass over unresolved names: the netlist with the widths found, and the names that are still
unresolved. -/
def widthPass (g : Netlist α) : List String → Netlist α × List String
  | [] => (g, [])
  | name :: rest =>
    match g.fanoutWidth? name with
    -- the width counts for the rest of this pass
    | some width => (g.setWidth name width).widthPass rest
    | none =>
      let (g', pending) := g.widthPass rest
      (g', name :: pending)

theorem length_widthPass_le (g : Netlist α) (names : List String) :
    (g.widthPass names).2.length ≤ names.length := by
  induction names generalizing g with
  | nil => simp [widthPass]
  | cons name rest ih =>
    rw [widthPass]
    split
    · exact Nat.le_succ_of_le (ih _)
    · exact Nat.succ_le_succ (ih _)

/-- Passes over the unresolved `names` until none is left or a pass resolves none, after `report`.
Widths found before an incomplete end stay assigned. -/
def resolveWidths (g : Netlist α) (names : List String) (report : WidthReport) :
    Except WidthStall WidthReport × Netlist α :=
  if names.isEmpty then (.ok report, g)
  else
    let next := g.widthPass names
    -- a pass that resolves nothing would be repeated without end
    if h : next.2.length < names.length then
      next.1.resolveWidths next.2
        ⟨report.inferred + (names.length - next.2.length), report.passes + 1⟩
    else (.error ⟨next.2, report.passes + 1⟩, next.1)
termination_by names.length

/-- The names of the registered nodes of unknown width, in the order of their keys. -/
def unresolvedNames (g : Netlist α) : List String :=
  (g.nodes.filter fun node => node.knownWidth?.isNone).map (·.name)

/-- Infers the width of every registered node that has none. -/
def inferWidths (g : Netlist α) : Except WidthStall WidthReport × Netlist α :=
  g.resolveWidths g.unresolvedNames ⟨0, 0⟩

end Netlist

end Presynth
