import Mathlib.Data.Set.Card
import Presynth.Estimate.Cost
import Presynth.Proofs.Estimate.Token
import Presynth.Proofs.Walk
/-!
# What one node adds to the cost

Nodes are costed if they are registered and their names occur in the fanout lists. Registers, ports
and operators cost by their width, operators by the operator of their name as well; the width is
looked at first, then the name, then the table of costs. The other nodes cost nothing.

Main statements: `Netlist.fanin_eq_ncard` (a register is counted with its distinct drivers),
`Technology.step_addNode` (all that adding a node can do) and `Technology.addNode_eq_error_iff` (on
which nodes it fails, whatever was added before).
-/

namespace Presynth

variable {α : Type}

/-! ### The nodes that are costed -/

namespace Netlist

/-- The name occurs in the fanout lists, as a driver or as what is driven. -/
def Occurs (g : Netlist α) (name : String) : Prop :=
  name ∈ g.fanout.keys ∨ ∃ u, g.Feeds u name

theorem mem_signals_iff_occurs {g : Netlist α} {name : String} :
    name ∈ g.signals ↔ g.Occurs name := by
  rw [mem_signals]
  unfold Occurs Feeds neighbors
  constructor
  · rintro ⟨⟨u, l⟩, he, rfl | hname⟩
    · exact .inl (List.mem_map_of_mem he)
    · refine .inr ⟨u, ?_⟩
      rw [NameMap.mem_toList_iff.mp he]
      exact hname
  · rintro (hkey | ⟨u, hname⟩)
    · obtain ⟨e, he, hkey⟩ := List.mem_map.mp hkey
      exact ⟨e, he, .inl hkey.symm⟩
    · cases hu : g.fanout.get? u with
      | none => simp [hu] at hname
      | some l =>
          rw [hu] at hname
          exact ⟨(u, l), NameMap.mem_toList_iff.mpr hu, .inr hname⟩

instance (g : Netlist α) : DecidablePred g.Occurs := fun _ =>
  decidable_of_iff _ mem_signals_iff_occurs

/-- The registered nodes whose names occur in the fanout lists, in the order of their keys. -/
def occurring (g : Netlist α) : List (Node α) := g.nodes.filter (g.Occurs ·.name)

theorem costedNodes_eq (g : Netlist α) : Technology.costedNodes g = g.occurring := by
  unfold Technology.costedNodes occurring
  refine List.filter_congr fun node _ => ?_
  rw [Bool.eq_iff_iff, List.contains_iff_mem, decide_eq_true_iff]
  exact mem_signals_iff_occurs

/-- The number of drivers is that of the distinct signals that feed a name. -/
theorem fanin_eq_ncard (g : Netlist α) (v : String) : g.fanin v = {u | g.Feeds u v}.ncard := by
  -- the keys of the fanout are distinct, so counting entries counts drivers
  let drivers := (g.fanout.toList.filter fun e => e.2.contains v).map (·.1)
  have hnodup : drivers.Nodup := by
    have hsorted : drivers.Pairwise (· < ·) :=
      List.pairwise_map.mpr (g.fanout.sorted.sublist List.filter_sublist)
    exact hsorted.imp fun h => String.ne_of_lt h
  have hmem : {u | g.Feeds u v} = ↑drivers.toFinset := by
    ext u
    rw [Set.mem_ofPred_eq, List.coe_toFinset, Set.mem_ofPred_eq, List.mem_map]
    unfold Feeds neighbors
    constructor
    · intro hv
      cases hu : g.fanout.get? u with
      | none => simp [hu] at hv
      | some l =>
          rw [hu] at hv
          refine ⟨(u, l), List.mem_filter.mpr ⟨NameMap.mem_toList_iff.mpr hu, ?_⟩, rfl⟩
          exact List.contains_iff_mem.mpr hv
    · rintro ⟨⟨u, l⟩, he, rfl⟩
      obtain ⟨he, hv⟩ := List.mem_filter.mp he
      rw [NameMap.mem_toList_iff.mp he]
      exact List.contains_iff_mem.mp hv
  rw [hmem, Set.ncard_coe_finset, List.toFinset_card_of_nodup hnodup, List.length_map, fanin,
    List.countP_eq_length_filter]

end Netlist

namespace Node

/-- The width of a node, zero if it is unknown. -/
def bits (node : Node α) : Nat := (node.width.getD 0).toNat

theorem bits_of_knownWidth? {node : Node α} {width : UInt32}
    (h : node.knownWidth? = some width) : node.bits = width.toNat := by
  unfold bits
  rw [(Option.filter_eq_some_iff.mp h).1]
  rfl

/-- The operator that a node is an instance of by its name. -/
def operator? (node : Node α) : Option Operator := Operator.all.find? (·.IsInstance node.name)

theorem operator?_eq_some {node : Node α} {op : Operator} (h : op.IsInstance node.name) :
    node.operator? = some op := by
  cases hfind : node.operator? with
  | none =>
      have hnone := List.find?_eq_none.mp hfind op op.mem_all
      exact absurd h (by simpa using hnone)
  | some op' =>
      have hop' : op'.IsInstance node.name := by simpa using List.find?_some hfind
      rw [← Operator.ofInstanceName_eq_ok_iff] at h hop'
      rw [Except.ok.inj (hop'.symm.trans h)]

end Node

/-- Combinational nodes and ports are neither registers nor each other. -/
theorem NodeKind.costed_alone (kind : NodeKind) :
    (kind.isCombinational = true → (kind == .Reg) = false ∧ kind.isPort = false) ∧
      (kind.isPort = true → (kind == .Reg) = false ∧ kind.isCombinational = false) := by
  cases kind <;> decide

/-! ### Nodes that cannot be costed -/

namespace Technology

/-- Why a node cannot be costed: its width is looked at first, then its name, then the table. -/
inductive Uncosted (tech : Technology α) (node : Node α) : CostError → Prop where
  | widthless
      (kind : node.kind = .Reg ∨ node.kind.isPort = true ∨ node.kind.isCombinational = true)
      (width : node.knownWidth? = none) : Uncosted tech node (.missingWidth node.name)
  | unnamed {e : CostError} (kind : node.kind.isCombinational = true)
      (width : node.knownWidth? ≠ none) (name : Operator.NoInstance node.name e) :
      Uncosted tech node e
  | absent {op : Operator} (kind : node.kind.isCombinational = true)
      (width : node.knownWidth? ≠ none) (name : op.IsInstance node.name)
      (table : tech.operators op = none) :
      Uncosted tech node (.unknownOperator node.name op.mnemonic)

theorem costedWidth_of_some {node : Node α} {width : UInt32} (h : node.knownWidth? = some width) :
    costedWidth node = .ok width.toNat := by
  unfold costedWidth
  rw [h]

theorem costedWidth_of_none {node : Node α} (h : node.knownWidth? = none) :
    costedWidth node = .error (.missingWidth node.name) := by
  unfold costedWidth
  rw [h]

section Steps

variable [Add α] [Mul α] [NatCast α]
variable {tech : Technology α} {g : Netlist α} {t : CostTally α} {node : Node α}

/-- What adding a node to a tally can do. -/
inductive Step (tech : Technology α) (g : Netlist α) (t : CostTally α) (node : Node α) :
    Except CostError (CostTally α) → Prop where
  | register {width : UInt32} (kind : node.kind = .Reg) (known : node.knownWidth? = some width) :
      Step tech g t node
        (.ok (t.addRegister tech.sequential width.toNat (g.fanin node.name)))
  | operator {width : UInt32} {op : Operator} {c : Coefficients α}
      (kind : node.kind.isCombinational = true) (known : node.knownWidth? = some width)
      (name : op.IsInstance node.name) (table : tech.operators op = some c) :
      Step tech g t node (.ok (t.addOperator c width.toNat op))
  | port {width : UInt32} (kind : node.kind.isPort = true)
      (known : node.knownWidth? = some width) : Step tech g t node (.ok (t.addPort width.toNat))
  | free (register : node.kind ≠ .Reg) (logic : node.kind.isCombinational = false)
      (port : node.kind.isPort = false) : Step tech g t node (.ok t)
  | fail {e : CostError} (h : tech.Uncosted node e) : Step tech g t node (.error e)

theorem addNode_of_register (h : node.kind = .Reg) :
    tech.addNode g t node = do
      let width ← costedWidth node
      return t.addRegister tech.sequential width (g.fanin node.name) :=
  if_pos h

/-- The width is looked at before the operator, so a node without either lacks a width. -/
theorem addNode_of_combinational (h : node.kind.isCombinational = true) :
    tech.addNode g t node = do
      let width ← costedWidth node
      let (op, c) ← tech.operatorCost node
      return t.addOperator c width op := by
  have hreg : node.kind ≠ .Reg := fun hreg => by simp [hreg, NodeKind.isCombinational] at h
  unfold addNode
  rw [if_neg hreg, if_pos h]

theorem addNode_of_port (h : node.kind.isPort = true) :
    tech.addNode g t node = do
      let width ← costedWidth node
      return t.addPort width := by
  have hreg : node.kind ≠ .Reg := fun hreg => by simp [hreg, NodeKind.isPort] at h
  have hlogic : ¬ node.kind.isCombinational = true := by
    cases hkind : node.kind <;> simp [hkind, NodeKind.isPort, NodeKind.isCombinational] at h ⊢
  unfold addNode
  rw [if_neg hreg, if_neg hlogic, if_pos h]

theorem addNode_of_widthless
    (kind : node.kind = .Reg ∨ node.kind.isPort = true ∨ node.kind.isCombinational = true)
    (width : node.knownWidth? = none) :
    tech.addNode g t node = .error (.missingWidth node.name) := by
  rcases kind with h | h | h
  · rw [addNode_of_register h, costedWidth_of_none width]
    rfl
  · rw [addNode_of_port h, costedWidth_of_none width]
    rfl
  · rw [addNode_of_combinational h, costedWidth_of_none width]
    rfl

/-- One case for each kind of node with costs, and one for each way in which costs are missing. -/
theorem step_addNode (tech : Technology α) (g : Netlist α) (t : CostTally α) (node : Node α) :
    Step tech g t node (tech.addNode g t node) := by
  by_cases hcosted : node.kind = .Reg ∨ node.kind.isPort = true ∨ node.kind.isCombinational = true
  · cases hwidth : node.knownWidth? with
    | none =>
        rw [addNode_of_widthless hcosted hwidth]
        exact .fail (.widthless hcosted hwidth)
    | some width =>
        rcases hcosted with hkind | hkind | hkind
        · rw [addNode_of_register hkind, costedWidth_of_some hwidth]
          exact .register hkind hwidth
        · rw [addNode_of_port hkind, costedWidth_of_some hwidth]
          exact .port hkind hwidth
        · -- logic alone asks for the name, and then for the costs of the operator that it names
          rw [addNode_of_combinational hkind, costedWidth_of_some hwidth]
          have hknown : node.knownWidth? ≠ none := by simp [hwidth]
          unfold operatorCost
          cases hname : Operator.ofInstanceName node.name with
          | error e =>
              exact .fail (.unnamed hkind hknown (Operator.ofInstanceName_eq_error_iff.mp hname))
          | ok op =>
              have hop := Operator.ofInstanceName_eq_ok_iff.mp hname
              cases htable : tech.operators op with
              | none =>
                  simp only [bind, Except.bind, htable]
                  exact .fail (.absent hkind hknown hop htable)
              | some c =>
                  simp only [bind, Except.bind, htable]
                  exact .operator hkind hwidth hop htable
  · rw [not_or, not_or, Bool.not_eq_true, Bool.not_eq_true] at hcosted
    obtain ⟨hreg, hport, hlogic⟩ := hcosted
    unfold addNode
    rw [if_neg hreg, if_neg (by simp [hlogic]), if_neg (by simp [hport])]
    exact .free hreg hlogic hport

/-- Adding a node that cannot be costed fails, and says why. -/
theorem addNode_of_uncosted {e : CostError} (h : tech.Uncosted node e) :
    tech.addNode g t node = .error e := by
  cases h with
  | widthless kind width => exact addNode_of_widthless kind width
  | unnamed kind width name =>
      obtain ⟨w, hwidth⟩ := Option.ne_none_iff_exists'.mp width
      rw [addNode_of_combinational kind, costedWidth_of_some hwidth, operatorCost,
        Operator.ofInstanceName_eq_error_iff.mpr name]
      rfl
  | absent kind width name table =>
      obtain ⟨w, hwidth⟩ := Option.ne_none_iff_exists'.mp width
      rw [addNode_of_combinational kind, costedWidth_of_some hwidth, operatorCost,
        Operator.ofInstanceName_eq_ok_iff.mpr name]
      simp only [bind, Except.bind, table]
      rfl

/-- Each cause excludes the others, so the cause that is found is the described one. -/
theorem addNode_eq_error_iff {e : CostError} :
    tech.addNode g t node = .error e ↔ tech.Uncosted node e := by
  refine ⟨fun h => ?_, addNode_of_uncosted⟩
  have hstep := step_addNode tech g t node
  rw [h] at hstep
  cases hstep with
  | fail h => exact h

end Steps

end Technology

end Presynth
