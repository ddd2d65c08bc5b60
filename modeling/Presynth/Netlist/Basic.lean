import Presynth.NameMap
import Presynth.Netlist.Node
/-!
# Netlists

A netlist has two halves: a registry of nodes and, for each driving signal, the list of the signals
that it feeds. The halves are made independently of each other: a fanout list may repeat a name or
name a signal that is not registered, and a node may be registered under another name than its own.
-/

namespace Presynth

variable {α : Type}

/-- A registry of nodes with the fanout lists between them. -/
structure Netlist (α : Type) where
  registry : NameMap (Node α)
  fanout : NameMap (List String)
  deriving DecidableEq, BEq

namespace Netlist

/-- The netlist without nodes and edges. -/
def empty : Netlist α := ⟨.empty, .empty⟩

instance : Inhabited (Netlist α) := ⟨empty⟩

/-- Registers a node under its name, replacing an older node of that name. -/
def register (g : Netlist α) (node : Node α) : Netlist α :=
  { g with registry := g.registry.insert node.name node }

/-- The signals that `u` feeds, in the order in which they were connected. -/
def neighbors (g : Netlist α) (u : String) : List String := (g.fanout.get? u).getD []

/-- Lets `u` feed `v` as well. -/
def connect (g : Netlist α) (u v : String) : Netlist α :=
  { g with fanout := g.fanout.insert u (g.neighbors u ++ [v]) }

/-- Removes the fanout list of `u`; nodes stay registered. -/
def disconnect (g : Netlist α) (u : String) : Netlist α := { g with fanout := g.fanout.erase u }

/-- The node registered under `name`. -/
def node? (g : Netlist α) (name : String) : Option (Node α) := g.registry.get? name

/-- Changes the node registered under `name`, if there is one. -/
def modifyNode (g : Netlist α) (name : String) (f : Node α → Node α) : Netlist α :=
  { g with registry := g.registry.modify name f }

/-- The registered nodes in the order of their keys. -/
def nodes (g : Netlist α) : List (Node α) := g.registry.values

/-- The number of edges, each repetition counted. -/
def edgeCount (g : Netlist α) : Nat := g.fanout.values.flatten.length

/-- The names that occur in the fanout lists, as a driver or as a target, in name order. -/
def signals (g : Netlist α) : List String :=
  sortedNames (g.fanout.toList.flatMap fun e => e.1 :: e.2)

/-- The number of distinct drivers of `v`. -/
def fanin (g : Netlist α) (v : String) : Nat := g.fanout.toList.countP fun e => e.2.contains v

/-- The names that have a driver, with the number of their drivers, in name order. -/
def fanins (g : Netlist α) : List (String × Nat) :=
  (sortedNames g.fanout.values.flatten).map fun v => (v, g.fanin v)

/-- The node that the node under `name` selects from, if it is registered. -/
def father? (g : Netlist α) (name : String) : Option (Node α) := do
  let node ← g.node? name
  let father ← node.father
  g.node? father

/-- The kind by which `name` starts or ends timing paths. A slice stands for the signal that it
selects from; a slice of nothing registered stands for itself. -/
def timingKind? (g : Netlist α) (name : String) : Option NodeKind :=
  (g.node? name).map fun node =>
    if node.kind.isSlice then (g.father? name).elim node.kind (·.kind) else node.kind

/-- The total width of the nodes of certain kinds, unknown widths counted as zero. -/
def bitsWhere (g : Netlist α) (p : NodeKind → Bool) : Nat :=
  let widths := (g.nodes.filter fun node => p node.kind).map fun node => node.width.getD 0
  widths.foldl (fun bits width => bits + width.toNat) 0

/-- The number of register bits. -/
def sequentialBits (g : Netlist α) : Nat := g.bitsWhere (· == .Reg)

/-- The number of register and combinational bits. -/
def logicBits (g : Netlist α) : Nat := g.bitsWhere fun kind => kind == .Reg || kind.isCombinational

/-! ### Views of the operations -/

@[simp] theorem node?_register_self (g : Netlist α) (node : Node α) :
    (g.register node).node? node.name = some node := by
  simp [register, node?]

@[simp] theorem neighbors_register (g : Netlist α) (node : Node α) (u : String) :
    (g.register node).neighbors u = g.neighbors u := rfl

@[grind =] theorem neighbors_connect (g : Netlist α) (u v w : String) :
    (g.connect u v).neighbors w = if u = w then g.neighbors w ++ [v] else g.neighbors w := by
  by_cases h : u = w
  · subst h; simp [connect, neighbors]
  · simp [connect, neighbors, NameMap.get?_insert, h]

@[simp] theorem neighbors_modifyNode (g : Netlist α) (name u : String) (f : Node α → Node α) :
    (g.modifyNode name f).neighbors u = g.neighbors u := rfl

@[grind =] theorem node?_modifyNode (g : Netlist α) (name other : String) (f : Node α → Node α) :
    (g.modifyNode name f).node? other =
      if name = other then (g.node? other).map f else g.node? other :=
  NameMap.get?_modify g.registry name other f

theorem mem_signals {g : Netlist α} {name : String} :
    name ∈ g.signals ↔ ∃ e ∈ g.fanout.toList, name = e.1 ∨ name ∈ e.2 := by
  simp [signals]

end Netlist

end Presynth
