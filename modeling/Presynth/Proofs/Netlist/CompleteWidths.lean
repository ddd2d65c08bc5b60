import Presynth.Proofs.Estimate.Reference
import Presynth.Proofs.Netlist.WidthInference
import Presynth.Technology.Builtin
/-!
# What a complete inference of widths leaves

The inference visits the nodes of unknown width by their own names, and assigns widths to what is
registered under these names. A node that is registered under another key than its name is counted
as resolved when its name is visited, but receives nothing. So a complete inference leaves those
nodes without a width whose key is the name of no unresolved node; where every unresolved key is
such a name, in particular where all nodes stand under their own names, no width is missing.

Main statements: `unresolved_iff_of_resolveWidths_eq_ok` (what a complete run leaves),
`exists_unresolved_of_missingWidth` (what the cost model misses) and
`widths_of_inferWidths`.
-/

namespace Presynth

variable {α : Type}

namespace Netlist

variable {g net : Netlist α}

/-! ### What a visit writes -/

/-- A width that is taken over from known ones is known itself, so it is not zero. -/
theorem ne_zero_of_fanoutWidth? {name : String} {w : UInt32}
    (h : net.fanoutWidth? name = some w) : w ≠ 0 := by
  obtain ⟨v, -, hv⟩ := (fanoutWidth?_eq_some_iff.mp h).attained
  obtain ⟨node, -, hwidth⟩ := Option.bind_eq_some_iff.mp hv
  exact node.knownWidth?_ne_zero hwidth

/-- An assigned width settles the key that it is assigned to, and no other. -/
theorem unresolved_setWidth_iff {name key : String} {w : UInt32} (hw : w ≠ 0) :
    (net.setWidth name w).Unresolved key ↔ net.Unresolved key ∧ key ≠ name := by
  unfold Unresolved
  rw [node?_setWidth]
  by_cases hkey : name = key
  · subst hkey
    rw [if_pos rfl]
    refine iff_of_false ?_ (fun h => h.2 rfl)
    rintro ⟨node, hnode, hwidth⟩
    obtain ⟨node', -, rfl⟩ := Option.map_eq_some_iff.mp hnode
    rw [node'.knownWidth?_of_ne_zero hw] at hwidth
    cases hwidth
  · rw [if_neg hkey, and_iff_left (Ne.symm hkey)]

/-! ### What a run leaves -/

/-- What is unresolved after a pass was so before, and still waits if it was visited. -/
theorem Unresolved.of_widthPass {names : List String} {key : String}
    (h : (net.widthPass names).1.Unresolved key) :
    net.Unresolved key ∧ (key ∈ names → key ∈ (net.widthPass names).2) := by
  induction names generalizing net with
  | nil => exact ⟨h, id⟩
  | cons name rest ih =>
      rw [Netlist.widthPass] at h ⊢
      cases hw : net.fanoutWidth? name with
      | some w =>
          rw [hw] at h
          obtain ⟨hbefore, hwaits⟩ := ih h
          obtain ⟨hunresolved, hne⟩ :=
            (unresolved_setWidth_iff (ne_zero_of_fanoutWidth? hw)).mp hbefore
          exact ⟨hunresolved, fun hkey => hwaits ((List.mem_cons.mp hkey).resolve_left hne)⟩
      | none =>
          rw [hw] at h
          obtain ⟨hunresolved, hwaits⟩ := ih h
          exact ⟨hunresolved, fun hkey =>
            List.mem_cons.mpr ((List.mem_cons.mp hkey).imp_right hwaits)⟩

/-- What is not visited stays unresolved. -/
theorem Unresolved.widthPass {names : List String} {key : String} (h : net.Unresolved key)
    (hkey : key ∉ names) : (net.widthPass names).1.Unresolved key := by
  induction names generalizing net with
  | nil => exact h
  | cons name rest ih =>
      rw [List.mem_cons, not_or] at hkey
      rw [Netlist.widthPass]
      cases hw : net.fanoutWidth? name with
      | some w =>
          have hzero := ne_zero_of_fanoutWidth? hw
          exact ih ((unresolved_setWidth_iff hzero).mpr ⟨h, hkey.1⟩) hkey.2
      | none => exact ih h hkey.2

/-- A complete run settles the keys that it visits, and no others. -/
theorem unresolved_iff_of_resolveWidths_eq_ok {names : List String} {report report' : WidthReport}
    {net' : Netlist α} (ok : net.resolveWidths names report = (.ok report', net')) (key : String) :
    net'.Unresolved key ↔ net.Unresolved key ∧ key ∉ names := by
  -- along the recursion; a run that stalls is not complete
  induction net, names, report using Netlist.resolveWidths.induct with
  | case1 net names report hempty =>
      obtain rfl : names = [] := by simpa using hempty
      rw [Netlist.resolveWidths, if_pos hempty] at ok
      obtain rfl : net = net' := congrArg Prod.snd ok
      simp
  | case2 net names report hempty next hlt ih =>
      rw [Netlist.resolveWidths, if_neg hempty, dif_pos hlt] at ok
      rw [ih ok]
      constructor
      · rintro ⟨hnext, hnot⟩
        obtain ⟨hbefore, hwaits⟩ := hnext.of_widthPass
        exact ⟨hbefore, fun hkey => hnot (hwaits hkey)⟩
      · rintro ⟨hbefore, hnot⟩
        have hkept : ∀ key ∈ (net.widthPass names).2, key ∈ names :=
          (net.widthPass_sublist names).subset
        exact ⟨hbefore.widthPass hnot, fun hkey => hnot (hkept _ hkey)⟩
  | case3 net names report hempty next hge =>
      rw [Netlist.resolveWidths, if_neg hempty, dif_neg hge] at ok
      cases congrArg Prod.fst ok

/-! ### The keys that are visited -/

variable (g) in
/-- Every key of a node of unknown width is the name of such a node, so that the inference visits
it. -/
def VisitsUnresolved : Prop := ∀ key, g.Unresolved key → key ∈ g.unresolvedNames

/-- Names are all that a pass visits: a node without a width is visited if its key is among the
unresolved names. -/
theorem visitsUnresolved_iff : g.VisitsUnresolved ↔
    ∀ entry ∈ g.registry.toList, entry.2.knownWidth? = none → entry.1 ∈ g.unresolvedNames := by
  constructor
  · intro h entry hentry hwidth
    exact h entry.1 ⟨entry.2, NameMap.mem_toList_iff.mp hentry, hwidth⟩
  · rintro h key ⟨node, hnode, hwidth⟩
    exact h (key, node) (NameMap.mem_toList_iff.mpr hnode) hwidth

instance (g : Netlist α) : Decidable g.VisitsUnresolved :=
  decidable_of_iff _ visitsUnresolved_iff.symm

theorem KeyedByName.visitsUnresolved (h : g.KeyedByName) : g.VisitsUnresolved :=
  fun _ hkey => (mem_unresolvedNames h).mpr hkey

theorem unresolvedNames_eq_nil (h : ∀ key, ¬ g.Unresolved key) : g.unresolvedNames = [] := by
  refine List.map_eq_nil_iff.mpr (List.filter_eq_nil_iff.mpr fun node hnode hwidth => ?_)
  obtain ⟨⟨key, node'⟩, hentry, rfl⟩ := List.mem_map.mp hnode
  exact h key ⟨node', NameMap.mem_toList_iff.mp hentry, by simpa using hwidth⟩

/-- Where no width is missing, the inference has nothing to do. -/
theorem inferWidths_of_resolved (h : ∀ key, ¬ g.Unresolved key) :
    g.inferWidths = (.ok ⟨0, 0⟩, g) := by
  rw [inferWidths, unresolvedNames_eq_nil h, resolveWidths, if_pos List.isEmpty_nil]

theorem forall_not_unresolved_iff :
    (∀ key, ¬ g.Unresolved key) ↔
      ∀ key node, g.node? key = some node → ∃ w, node.width = some w ∧ w ≠ 0 := by
  constructor
  · intro h key node hnode
    obtain ⟨w, hw⟩ := Option.ne_none_iff_exists'.mp fun hwidth => h key ⟨node, hnode, hwidth⟩
    exact ⟨w, (Option.filter_eq_some_iff.mp hw).1, node.knownWidth?_ne_zero hw⟩
  · rintro h key ⟨node, hnode, hwidth⟩
    obtain ⟨w, hw, hzero⟩ := h key node hnode
    have hpos : 0 < w := UInt32.pos_iff_ne_zero.mpr hzero
    exact Option.filter_eq_none_iff.mp hwidth w hw (decide_eq_true hpos)

/-! ### What the cost model misses -/

variable [Zero α] [Add α] [Mul α] [NatCast α] [Quantity α]

/-- A width that the cost model misses is that of an unresolved node. -/
theorem exists_unresolved_of_missingWidth {tech : Technology α} {name : String}
    (h : tech.evaluate g = .error (.missingWidth name)) :
    ∃ key node, g.node? key = some node ∧ node.name = name ∧ node.knownWidth? = none := by
  unfold Technology.evaluate at h
  cases hrun : (Technology.costedNodes g).foldlM (tech.addNode g) .zero with
  | ok t =>
      rw [hrun] at h
      cases h
  | error e =>
      rw [hrun] at h
      obtain rfl : e = .missingWidth name := Except.error.inj h
      obtain ⟨before, node, after, hlist, -, huncosted⟩ :=
        exists_first_of_foldlM_error (fun _ _ _ => Technology.addNode_eq_error_iff) hrun
      have hmem : node ∈ g.nodes := by
        rw [Netlist.costedNodes_eq] at hlist
        exact (List.mem_filter.mp (hlist ▸ List.mem_append_right before List.mem_cons_self)).1
      obtain ⟨⟨key, node'⟩, hentry, rfl⟩ := List.mem_map.mp hmem
      cases huncosted with
      | widthless kind width => exact ⟨key, node', NameMap.mem_toList_iff.mp hentry, rfl, width⟩
      | unnamed kind width noName => cases noName

/-- A complete inference leaves without a width the unresolved nodes whose keys it did not visit. So
all widths are known and not zero exactly if it visited the keys of all unresolved nodes. Then a
second inference has nothing to do and changes nothing, and the cost model misses no width. -/
theorem widths_of_inferWidths {report : WidthReport} (ok : g.inferWidths = (.ok report, net)) :
    (∀ key, net.Unresolved key ↔ g.Unresolved key ∧ key ∉ g.unresolvedNames) ∧
    ((∀ key node, net.node? key = some node → ∃ w, node.width = some w ∧ w ≠ 0) ↔
      g.VisitsUnresolved) ∧
    (g.VisitsUnresolved → net.inferWidths = (.ok ⟨0, 0⟩, net) ∧
      ∀ (tech : Technology α) name, tech.evaluate net ≠ .error (.missingWidth name)) := by
  have hleft : ∀ key, net.Unresolved key ↔ g.Unresolved key ∧ key ∉ g.unresolvedNames :=
    unresolved_iff_of_resolveWidths_eq_ok ok
  have hall : (∀ key, ¬ net.Unresolved key) ↔ g.VisitsUnresolved := by
    simp only [hleft, not_and, not_not]
    rfl
  refine ⟨hleft, forall_not_unresolved_iff.symm.trans hall, fun hvisits => ?_⟩
  have hresolved := hall.mpr hvisits
  refine ⟨inferWidths_of_resolved hresolved, fun tech name hmissing => ?_⟩
  obtain ⟨key, node, hnode, -, hwidth⟩ := exists_unresolved_of_missingWidth hmissing
  exact hresolved key ⟨node, hnode, hwidth⟩

/-- Two gates of unknown width, each registered under the name of the other, in front of an
output. -/
def exchanged : Netlist Float :=
  let node (name : String) (kind : NodeKind) (width : Option UInt32) : Node Float :=
    ⟨name, kind, width, none, none, none, 0⟩
  { registry := .ofList [("And1", node "Or2" .Operator none),
      ("Or2", node "And1" .Operator (some 0)), ("q", node "q" .Output (some 8))]
    fanout := .ofList [("And1", ["q"]), ("Or2", ["And1", "q"])] }

/-- Names may be exchanged, as long as all keys are visited. -/
theorem widths_of_inferWidths_exchanged :
    ¬ exchanged.KeyedByName ∧ exchanged.VisitsUnresolved ∧ ∃ net,
      exchanged.inferWidths = (.ok ⟨2, 2⟩, net) ∧ net.inferWidths = (.ok ⟨0, 0⟩, net) ∧
        (∀ key node, net.node? key = some node → ∃ w, node.width = some w ∧ w ≠ 0) ∧
        ∀ name, Technology.builtin.evaluate net ≠ .error (.missingWidth name) := by
  have hvisits : exchanged.VisitsUnresolved := by decide +kernel
  have ok : exchanged.inferWidths = (.ok ⟨2, 2⟩, exchanged.inferWidths.2) :=
    Prod.ext (by decide +kernel) rfl
  obtain ⟨-, hwidths, hagain⟩ := widths_of_inferWidths ok
  obtain ⟨hsecond, hcost⟩ := hagain hvisits
  exact ⟨by decide +kernel, hvisits, _, ok, hsecond, hwidths.mpr hvisits, hcost _⟩

/-- A register under another key than its name, in front of an output. -/
def misfiled : Netlist Float :=
  let node (name : String) (kind : NodeKind) (width : Option UInt32) : Node Float :=
    ⟨name, kind, width, none, none, none, 0⟩
  { registry := .ofList [("k", node "x" .Reg none), ("q", node "q" .Output (some 8))]
    fanout := .ofList [("x", ["q"])] }

/-- The inference is complete, yet nothing has changed: the register has no width, a second
inference reports it once more, and the cost model misses its width. -/
theorem misfiled_unresolved :
    misfiled.inferWidths = (.ok ⟨1, 1⟩, misfiled) ∧ misfiled.Unresolved "k" ∧
      Technology.builtin.evaluate misfiled = .error (.missingWidth "x") := by
  refine ⟨by decide +kernel, ?_, by decide +kernel⟩
  exact ⟨⟨"x", .Reg, none, none, none, none, 0⟩, by decide +kernel, rfl⟩

end Netlist

end Presynth
