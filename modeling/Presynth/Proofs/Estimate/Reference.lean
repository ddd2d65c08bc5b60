import Mathlib.Algebra.Order.BigOperators.Group.List
import Mathlib.Algebra.Order.Ring.Rat
import Presynth.Proofs.Estimate.Node
import Presynth.Proofs.Numbers.NearestEven
/-!
# What the cost of a netlist is

Over exact fractions the cost of a netlist is made of sums over the nodes that are costed: of
widths, of numbers of drivers, and of widths weighted by coefficients. The program goes through the
nodes in key order and keeps a tally; after any number of them the tally holds their sums. It stops
at the first node that cannot be costed, whatever the tally is then.

Main statements: `Technology.Step.eq_sums` (a node adds its part to the sums),
`Technology.eq_sums_of_foldlM` (all nodes add theirs), `foldlM_eq_error_iff` (the first failure is
the one reported) and `Technology.evaluate_reference`.
-/

namespace Presynth

variable {α : Type}

/-! ### The reference sums -/

section Sums

variable {β : Type} [AddMonoid β]

/-- A sum over the nodes of certain kinds. -/
def sumOver (kinds : NodeKind → Bool) (f : Node α → β) (nodes : List (Node α)) : β :=
  ((nodes.filter fun node => kinds node.kind).map f).sum

@[simp] theorem sumOver_nil (kinds : NodeKind → Bool) (f : Node α → β) :
    sumOver kinds f [] = 0 := rfl

theorem sumOver_concat (kinds : NodeKind → Bool) (f : Node α → β) (nodes : List (Node α))
    (node : Node α) :
    sumOver kinds f (nodes ++ [node]) =
      sumOver kinds f nodes + if kinds node.kind then f node else 0 := by
  unfold sumOver
  rw [List.filter_append, List.map_append, List.sum_append]
  by_cases h : kinds node.kind = true
  · simp [h]
  · simp [h]

end Sums

namespace Technology

/-- The cost of a bit of a node, by the operator that it is an instance of. -/
def cellOf (tech : Technology ℚ) (node : Node ℚ) : Coefficients ℚ :=
  (node.operator?.bind tech.operators).getD ⟨0, 0, 0⟩

/-- The sums over the given nodes: widths by kind, drivers of registers, operators by gate family,
and coefficients weighted by widths. -/
noncomputable def sums (tech : Technology ℚ) (g : Netlist ℚ) (nodes : List (Node ℚ)) :
    CostTally ℚ :=
  let overRegisters (c : ℚ) := sumOver (· == .Reg) (fun node => c * node.bits) nodes
  let overLogic (c : Coefficients ℚ → ℚ) :=
    sumOver NodeKind.isCombinational (fun node => c (tech.cellOf node) * node.bits) nodes
  { seqBits := sumOver (· == .Reg) Node.bits nodes
    fanoutSum := sumOver (· == .Reg) (fun node => {u | g.Feeds u node.name}.ncard) nodes
    ioBits := sumOver NodeKind.isPort Node.bits nodes
    combBits := sumOver NodeKind.isCombinational Node.bits nodes
    gates := fun family => sumOver NodeKind.isCombinational
      (fun node => if node.operator?.bind Operator.family? = some family then 1 else 0) nodes
    seqArea := overRegisters tech.sequential.area
    combArea := overLogic (·.area)
    staticPower := overRegisters tech.sequential.staticPower + overLogic (·.staticPower)
    dynamicPower := overRegisters tech.sequential.dynamicPower + overLogic (·.dynamicPower) }

variable {tech : Technology ℚ} {g : Netlist ℚ}

/-- A node that can be costed adds its part to the sums. -/
theorem Step.eq_sums {nodes : List (Node ℚ)} {node : Node ℚ} {t : CostTally ℚ}
    (h : Step tech g (tech.sums g nodes) node (.ok t)) : t = tech.sums g (nodes ++ [node]) := by
  cases h with
  | register kind known =>
      simp only [CostTally.addRegister, sums, sumOver_concat, kind, Netlist.fanin_eq_ncard,
        Node.bits_of_knownWidth? known, NodeKind.isPort, NodeKind.isCombinational, BEq.rfl, if_true,
        Bool.false_eq_true, if_false, add_zero, add_right_comm]
  | operator kind known name table =>
      obtain ⟨hreg, hport⟩ := node.kind.costed_alone.1 kind
      simp only [CostTally.addOperator, sums, sumOver_concat, kind, hreg, hport, cellOf,
        Node.operator?_eq_some name, table, Option.bind_some, Option.getD_some,
        Node.bits_of_knownWidth? known, if_true, Bool.false_eq_true, if_false, add_zero, add_assoc]
  | port kind known =>
      obtain ⟨hreg, hlogic⟩ := node.kind.costed_alone.2 kind
      simp only [CostTally.addPort, sums, sumOver_concat, kind, hreg, hlogic,
        Node.bits_of_knownWidth? known, if_true, Bool.false_eq_true, if_false, add_zero]
  | free register logic port =>
      have hreg : (node.kind == .Reg) = false := beq_eq_false_iff_ne.mpr register
      simp only [sums, sumOver_concat, hreg, logic, port, Bool.false_eq_true, if_false, add_zero]

theorem zero_eq_sums (tech : Technology ℚ) (g : Netlist ℚ) : .zero = tech.sums g [] := by
  simp [CostTally.zero, sums]

/-- All nodes add their parts, in whichever order. -/
theorem eq_sums_of_foldlM {nodes rest : List (Node ℚ)} {t : CostTally ℚ}
    (h : rest.foldlM (tech.addNode g) (tech.sums g nodes) = .ok t) :
    t = tech.sums g (nodes ++ rest) := by
  induction rest generalizing nodes with
  | nil =>
      rw [List.append_nil]
      exact (Except.ok.inj h).symm
  | cons node rest ih =>
      rw [List.foldlM_cons] at h
      have hstep := step_addNode tech g (tech.sums g nodes) node
      cases hnode : tech.addNode g (tech.sums g nodes) node with
      | error e =>
          rw [hnode] at h
          cases h
      | ok t' =>
          rw [hnode] at h hstep
          rw [hstep.eq_sums] at h
          rw [ih h, List.append_assoc]
          rfl

end Technology

/-! ### The first failure -/

section FirstFailure

variable {ε β γ : Type} {f : γ → β → Except ε γ} {fails : β → ε → Prop} {l : List β} {t : γ}

/-- A fold that succeeds has failed at none of its elements, whatever was summed up in between. -/
theorem not_fails_of_foldlM_ok (hf : ∀ t b e, f t b = .error e ↔ fails b e) {r : γ}
    (ok : l.foldlM f t = .ok r) : ∀ b ∈ l, ∀ e, ¬ fails b e := by
  induction l generalizing t with
  | nil => simp
  | cons b l ih =>
      rw [List.foldlM_cons] at ok
      cases hb : f t b with
      | error e =>
          rw [hb] at ok
          cases ok
      | ok t' =>
          rw [hb] at ok
          intro b' hb' e hfails
          rcases List.mem_cons.mp hb' with rfl | hb'
          · rw [(hf t b' e).mpr hfails] at hb
            cases hb
          · exact ih ok b' hb' e hfails

/-- One that fails does so at the first element that fails. -/
theorem exists_first_of_foldlM_error (hf : ∀ t b e, f t b = .error e ↔ fails b e) {e : ε}
    (h : l.foldlM f t = .error e) : ∃ before b after, l = before ++ b :: after ∧
      (∀ b' ∈ before, ∀ e', ¬ fails b' e') ∧ fails b e := by
  induction l generalizing t with
  | nil => cases h
  | cons b l ih =>
      rw [List.foldlM_cons] at h
      cases hb : f t b with
      | error e' =>
          rw [hb] at h
          cases h
          exact ⟨[], b, l, rfl, by simp, (hf t b e).mp hb⟩
      | ok t' =>
          rw [hb] at h
          obtain ⟨before, b', after, rfl, hbefore, hfails⟩ := ih h
          refine ⟨b :: before, b', after, rfl, fun c hc e' hc' => ?_, hfails⟩
          rcases List.mem_cons.mp hc with rfl | hc
          · rw [(hf t c e').mpr hc'] at hb
            cases hb
          · exact hbefore c hc e' hc'

/-- A fold that fails on some of what it goes through fails as the first of these does. -/
theorem foldlM_eq_error_iff (hf : ∀ t b e, f t b = .error e ↔ fails b e) {e : ε} :
    l.foldlM f t = .error e ↔ ∃ before b after, l = before ++ b :: after ∧
      (∀ b' ∈ before, ∀ e', ¬ fails b' e') ∧ fails b e := by
  refine ⟨exists_first_of_foldlM_error hf, ?_⟩
  rintro ⟨before, b, after, rfl, hbefore, hfails⟩
  rw [List.foldlM_append]
  cases hrun : before.foldlM f t with
  | error e' =>
      obtain ⟨_, c, _, rfl, -, hc⟩ := exists_first_of_foldlM_error hf hrun
      exact absurd hc (hbefore c (by simp) e')
  | ok t' =>
      change (b :: after).foldlM f t' = _
      rw [List.foldlM_cons, (hf t' b e).mpr hfails]
      rfl

end FirstFailure

/-! ### The features -/

/-- The counter of a gate family. -/
def AreaFeatures.gateCount (f : AreaFeatures α) : GateFamily → Nat
  | .And => f.andCount
  | .Or => f.orCount
  | .Not => f.notCount
  | .Xor => f.xorCount
  | .Mux => f.muxCount

namespace Technology

/-- What the features of a netlist are: the sums over the nodes that occur in its fanout lists, with
areas and powers rounded to the nearest integers, and the totals of the rounded parts. -/
structure IsCost (tech : Technology ℚ) (g : Netlist ℚ) (f : AreaFeatures ℚ) : Prop where
  seqBits : f.seqBits = (tech.sums g g.occurring).seqBits
  fanoutSum : f.fanoutSum = (tech.sums g g.occurring).fanoutSum
  ioBits : f.ioBits = (tech.sums g g.occurring).ioBits
  combBits : f.combBits = (tech.sums g g.occurring).combBits
  gates : ∀ family, f.gateCount family = (tech.sums g g.occurring).gates family
  seqArea : ∃ k, IsNearestEven (tech.sums g g.occurring).seqArea k ∧ f.seqArea = k
  combArea : ∃ k, IsNearestEven (tech.sums g g.occurring).combArea k ∧ f.combArea = k
  staticPower : ∃ k, IsNearestEven (tech.sums g g.occurring).staticPower k ∧ f.staticPower = k
  dynamicPower : ∃ k, IsNearestEven (tech.sums g g.occurring).dynamicPower k ∧ f.dynamicPower = k
  totalArea : f.totalArea = f.seqArea + f.combArea
  totalPower : f.totalPower = f.staticPower + f.dynamicPower

variable {tech : Technology ℚ} {g : Netlist ℚ}

/-- The sums over all nodes that occur are what the costs are described as. -/
theorem isCost_features (tech : Technology ℚ) (g : Netlist ℚ) :
    tech.IsCost g (tech.sums g g.occurring).features where
  seqBits := rfl
  fanoutSum := rfl
  ioBits := rfl
  combBits := rfl
  gates family := by cases family <;> rfl
  seqArea := ⟨_, isNearestEven_roundRat _, rfl⟩
  combArea := ⟨_, isNearestEven_roundRat _, rfl⟩
  staticPower := ⟨_, isNearestEven_roundRat _, rfl⟩
  dynamicPower := ⟨_, isNearestEven_roundRat _, rfl⟩
  totalArea := rfl
  totalPower := rfl

/-- The features of a netlist are determined. -/
theorem IsCost.unique {f f' : AreaFeatures ℚ} (h : tech.IsCost g f) (h' : tech.IsCost g f') :
    f = f' := by
  -- areas and powers are known by their rounding alone, and that is unique
  have hround : ∀ {x y y' : ℚ}, (∃ k, IsNearestEven x k ∧ y = k) →
      (∃ k, IsNearestEven x k ∧ y' = k) → y = y' := by
    rintro x y y' ⟨k, hk, rfl⟩ ⟨k', hk', rfl⟩
    rw [hk.unique hk']
  have hgates : ∀ family, f.gateCount family = f'.gateCount family := fun family =>
    (h.gates family).trans (h'.gates family).symm
  have hseqArea := hround h.seqArea h'.seqArea
  have hcombArea := hround h.combArea h'.combArea
  have hstatic := hround h.staticPower h'.staticPower
  have hdynamic := hround h.dynamicPower h'.dynamicPower
  have htotalArea : f.totalArea = f'.totalArea := by
    rw [h.totalArea, h'.totalArea, hseqArea, hcombArea]
  have htotalPower : f.totalPower = f'.totalPower := by
    rw [h.totalPower, h'.totalPower, hstatic, hdynamic]
  have hbits := h.seqBits.trans h'.seqBits.symm
  have hfanout := h.fanoutSum.trans h'.fanoutSum.symm
  have hio := h.ioBits.trans h'.ioBits.symm
  have hcomb := h.combBits.trans h'.combBits.symm
  have hand := hgates .And
  have hor := hgates .Or
  have hnot := hgates .Not
  have hxor := hgates .Xor
  have hmux := hgates .Mux
  cases f
  cases f'
  simp only [AreaFeatures.gateCount] at *
  subst_vars
  rfl

/-! ### Bits of the whole netlist -/

theorem bitsWhere_eq_sumOver (g : Netlist α) (kinds : NodeKind → Bool) :
    g.bitsWhere kinds = sumOver kinds Node.bits g.nodes := by
  unfold Netlist.bitsWhere sumOver Node.bits
  dsimp only
  rw [← List.foldl_map, List.map_map]
  exact List.sum_eq_foldl.symm

/-- Over fewer nodes a sum of widths is no greater. -/
theorem sumOver_le_of_sublist {nodes nodes' : List (Node α)} (h : nodes.Sublist nodes')
    (kinds : NodeKind → Bool) : sumOver kinds Node.bits nodes ≤ sumOver kinds Node.bits nodes' :=
  ((h.filter _).map _).sum_le_sum fun _ _ => Nat.zero_le _

/-- Register bits and combinational bits are bits of different nodes. -/
theorem sumOver_register_add (nodes : List (Node α)) :
    sumOver (· == .Reg) Node.bits nodes + sumOver NodeKind.isCombinational Node.bits nodes =
      sumOver (fun kind => kind == .Reg || kind.isCombinational) Node.bits nodes := by
  induction nodes using List.reverseRecOn with
  | nil => rfl
  | append_singleton nodes node ih =>
      simp only [sumOver_concat]
      by_cases hlogic : node.kind.isCombinational = true
      · have hreg := (node.kind.costed_alone.1 hlogic).1
        simp only [hlogic, hreg, Bool.or_true, if_true, Bool.false_eq_true, if_false]
        omega
      · simp only [hlogic, Bool.or_false, Bool.false_eq_true, if_false]
        omega

/-- A node may be registered without occurring, so the costs count no more bits than the netlist
has. -/
theorem IsCost.bits_le {f : AreaFeatures ℚ} (h : tech.IsCost g f) :
    f.seqBits ≤ g.sequentialBits ∧ f.seqBits + f.combBits ≤ g.logicBits := by
  have hsub : g.occurring.Sublist g.nodes := List.filter_sublist
  rw [Netlist.sequentialBits, Netlist.logicBits, bitsWhere_eq_sumOver, bitsWhere_eq_sumOver,
    h.seqBits, h.combBits]
  constructor
  · exact sumOver_le_of_sublist hsub (· == .Reg)
  · exact (sumOver_register_add g.occurring).trans_le (sumOver_le_of_sublist hsub _)

/-! ### The run over all nodes -/

theorem evaluate_eq (tech : Technology ℚ) (g : Netlist ℚ) :
    tech.evaluate g =
      (g.occurring.foldlM (tech.addNode g) (tech.sums g [])).map CostTally.features := by
  rw [evaluate, Netlist.costedNodes_eq, zero_eq_sums]

/-- The first node without a cost is reported, in name order of the nodes that occur. -/
theorem evaluate_eq_error_iff {e : CostError} :
    tech.evaluate g = .error e ↔ ∃ before node after, g.occurring = before ++ node :: after ∧
      (∀ b ∈ before, ∀ e', ¬ tech.Uncosted b e') ∧ tech.Uncosted node e := by
  have hfails : ∀ t node e, tech.addNode g t node = .error e ↔ tech.Uncosted node e :=
    fun _ _ _ => addNode_eq_error_iff
  rw [← foldlM_eq_error_iff (t := tech.sums g []) hfails, evaluate_eq]
  cases g.occurring.foldlM (tech.addNode g) (tech.sums g []) <;> simp [Except.map]

/-- An evaluation that succeeds has summed up all nodes that occur. -/
theorem of_evaluate_eq_ok {f : AreaFeatures ℚ} (ok : tech.evaluate g = .ok f) :
    (∀ node ∈ g.occurring, ∀ e, ¬ tech.Uncosted node e) ∧ tech.IsCost g f := by
  rw [evaluate_eq] at ok
  cases hrun : g.occurring.foldlM (tech.addNode g) (tech.sums g []) with
  | error e =>
      rw [hrun] at ok
      cases ok
  | ok t =>
      rw [hrun] at ok
      cases ok
      refine ⟨not_fails_of_foldlM_ok (fun t node e => addNode_eq_error_iff) hrun, ?_⟩
      rw [eq_sums_of_foldlM hrun]
      exact isCost_features tech g

/-- Over exact fractions, the cost model fails on the first node in key order that cannot be costed;
where there is none, it gives the reference sums, with areas and powers rounded to the nearest
integers. It counts no more register bits than the netlist has, and no more bits of logic. -/
theorem evaluate_reference (tech : Technology ℚ) (g : Netlist ℚ) :
    ((∃ e, tech.evaluate g = .error e) ↔ ∃ node ∈ g.occurring, ∃ e, tech.Uncosted node e) ∧
    (∀ e, tech.evaluate g = .error e ↔ ∃ before node after,
      g.occurring = before ++ node :: after ∧
        (∀ b ∈ before, ∀ e', ¬ tech.Uncosted b e') ∧ tech.Uncosted node e) ∧
    (∀ f, tech.evaluate g = .ok f ↔
      (∀ node ∈ g.occurring, ∀ e, ¬ tech.Uncosted node e) ∧ tech.IsCost g f) ∧
    ∀ f, tech.evaluate g = .ok f →
      f.seqBits ≤ g.sequentialBits ∧ f.seqBits + f.combBits ≤ g.logicBits := by
  have hcosted : ∀ f, tech.evaluate g = .ok f →
      ∀ node ∈ g.occurring, ∀ e, ¬ tech.Uncosted node e := fun f ok => (of_evaluate_eq_ok ok).1
  refine ⟨⟨?_, ?_⟩, fun e => evaluate_eq_error_iff, fun f => ⟨of_evaluate_eq_ok, ?_⟩,
    fun f ok => (of_evaluate_eq_ok ok).2.bits_le⟩
  · rintro ⟨e, he⟩
    obtain ⟨before, node, after, hlist, -, hnode⟩ := evaluate_eq_error_iff.mp he
    exact ⟨node, by simp [hlist], e, hnode⟩
  · rintro ⟨node, hmem, e, hnode⟩
    cases hrun : tech.evaluate g with
    | error e' => exact ⟨e', rfl⟩
    | ok f => exact absurd hnode (hcosted f hrun node hmem e)
  · rintro ⟨hall, hf⟩
    cases hrun : tech.evaluate g with
    | error e =>
        obtain ⟨before, node, after, hlist, -, hnode⟩ := evaluate_eq_error_iff.mp hrun
        exact absurd hnode (hall node (by simp [hlist]) e)
    | ok f' => rw [hf.unique (of_evaluate_eq_ok hrun).2]

end Technology

end Presynth
