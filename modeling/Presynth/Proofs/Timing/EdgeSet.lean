import Presynth.Proofs.Estimate.Node
import Presynth.Proofs.Slack.Aggregation
import Presynth.Proofs.Timing.Longest
/-!
# Only the set of edges counts

A fanout list may hold a name several times, and there may be empty ones. Timing counts every entry
when it collects a region and follows every entry when it sweeps, and the cost of a netlist counts
distinct drivers. So for netlists with the same nodes and edges the same paths are reported, maybe
in another order and along other walks of the same delay, and the cost is the same if they name the
same signals.

Main statements: `Technology.evaluate_eq_of_feeds` (cost) and `Netlist.timing_of_feeds`.
-/

namespace Presynth

variable {α : Type}

namespace Netlist

variable {g g' : Netlist α}

/-- Walks only ask which signals feed which, and of what kinds they are. -/
theorem sameWalks_of_feeds (hnodes : g.registry = g'.registry)
    (hfeeds : ∀ u v, g.Feeds u v ↔ g'.Feeds u v) : g.SameWalks g' := by
  refine ⟨hfeeds, fun v => ?_⟩
  have hnode : g.node? = g'.node? := by
    funext name
    rw [node?, node?, hnodes]
  simp only [timingKind?, father?, hnode]

/-- The edges of a netlist are those of the other, if the entries of its lists are. -/
theorem feeds_of_entries (h : ∀ e ∈ g.fanout.toList, ∀ v ∈ e.2, g'.Feeds e.1 v) {u v : String}
    (hf : g.Feeds u v) : g'.Feeds u v := by
  unfold Feeds neighbors at hf
  cases hu : g.fanout.get? u with
  | none => simp [hu] at hf
  | some l =>
      rw [hu] at hf
      exact h (u, l) (NameMap.mem_toList_iff.mpr hu) v hf

theorem IsAnnotated.delaysLE [Preorder α] (h : g.IsAnnotated) (hnodes : g.registry = g'.registry) :
    g.DelaysLE g' := by
  intro name hname
  obtain ⟨d, hd⟩ := h name hname
  refine ⟨d, d, hd, ?_, le_rfl⟩
  rwa [delay?, node?, ← hnodes]

end Netlist

/-! ### Cost -/

/-- The cost is decided by the nodes, the edges and the names that take part. -/
theorem Technology.evaluate_eq_of_feeds [Zero α] [Add α] [Mul α] [NatCast α] [Quantity α]
    (tech : Technology α) {g g' : Netlist α} (hnodes : g.registry = g'.registry)
    (hfeeds : ∀ u v, g.Feeds u v ↔ g'.Feeds u v)
    (hsignals : ∀ name, name ∈ g.signals ↔ name ∈ g'.signals) :
    tech.evaluate g = tech.evaluate g' := by
  have hcosted : costedNodes g = costedNodes g' := by
    unfold costedNodes Netlist.nodes
    rw [hnodes]
    refine List.filter_congr fun node _ => Bool.eq_iff_iff.mpr ?_
    rw [List.contains_iff_mem, List.contains_iff_mem, hsignals]
  have hfanin : g.fanin = g'.fanin := by
    funext v
    simp only [Netlist.fanin_eq_ncard, hfeeds]
  have hadd : tech.addNode g = tech.addNode g' := by
    funext t node
    simp only [addNode, hfanin]
  rw [evaluate, evaluate, hcosted, hadd]

/-! ### Timing -/

namespace Netlist

variable [AddCommGroup α] [LinearOrder α] [IsOrderedAddMonoid α] {g g' : Netlist α}

/-- For every pair of ends there is one path in each report, and each of the two is at least as long
as the other; so their delays are the same. -/
theorem reports_perm (hnodes : g.registry = g'.registry)
    (hfeeds : ∀ u v, g.Feeds u v ↔ g'.Feeds u v) (hannotated : g.IsAnnotated)
    (hannotated' : g'.IsAnnotated) {paths paths' : List (TimingPath α)}
    (ok : g.timingPaths = .ok paths) (ok' : g'.timingPaths = .ok paths') :
    (paths.map fun path => (path.outline, path.delay)).Perm
      (paths'.map fun path => (path.outline, path.delay)) := by
  have hsame := sameWalks_of_feeds hnodes hfeeds
  have hperm := hsame.ends_perm ok ok'
  -- paths are told apart by their ends
  have hnodup : (paths.map fun path => (path.outline, path.delay)).Nodup := by
    refine List.Nodup.of_map (fun report => report.1.1) ?_
    rw [List.map_map]
    exact (ends_of_analyzeAll Scratch.tidy_fresh ok).1
  have hsubset : (paths.map fun path => (path.outline, path.delay)) ⊆
      paths'.map fun path => (path.outline, path.delay) := by
    intro report hreport
    obtain ⟨path, hpath, rfl⟩ := List.mem_map.mp hreport
    obtain ⟨path', hpath', hends⟩ :=
      List.mem_map.mp (hperm.mem_iff.mp (List.mem_map_of_mem (f := TimingPath.ends) hpath))
    obtain ⟨houtline, hle⟩ :=
      hsame.outline_eq (hannotated.delaysLE hnodes) ok ok' hpath hpath' hends.symm
    obtain ⟨-, hge⟩ :=
      hsame.symm.outline_eq (hannotated'.delaysLE hnodes.symm) ok' ok hpath' hpath hends
    rw [houtline, le_antisymm hle hge]
    exact List.mem_map_of_mem (f := fun path => (path.outline, path.delay)) hpath'
  refine (List.subperm_of_subset hnodup hsubset).perm_of_length_le ?_
  simpa using hperm.length_eq.ge

/-- Netlists with the same nodes and edges, fully annotated, report the same paths but for their
order and for the signals between the ends, so they have the same slacks. If they name the same
signals, they cost the same. -/
theorem timing_of_feeds [Mul α] [NatCast α] [Quantity α] (hnodes : g.registry = g'.registry)
    (hfeeds : ∀ u v, g.Feeds u v ↔ g'.Feeds u v) (hannotated : g.IsAnnotated)
    (hannotated' : g'.IsAnnotated) :
    (∃ paths paths', g.timingPaths = .ok paths ∧ g'.timingPaths = .ok paths' ∧
      (paths.map fun path => (path.outline, path.delay)).Perm
        (paths'.map fun path => (path.outline, path.delay)) ∧
      ∀ budget : SlackBudget α, budget.summarizePaths paths = budget.summarizePaths paths') ∧
    ((∀ name, name ∈ g.signals ↔ name ∈ g'.signals) →
      ∀ tech : Technology α, tech.evaluate g = tech.evaluate g') := by
  refine ⟨?_, fun hsignals tech => tech.evaluate_eq_of_feeds hnodes hfeeds hsignals⟩
  obtain ⟨paths, ok⟩ := hannotated.timingPaths_ok
  obtain ⟨paths', ok'⟩ := hannotated'.timingPaths_ok
  have hperm := reports_perm hnodes hfeeds hannotated hannotated' ok ok'
  refine ⟨paths, paths', ok, ok', hperm, fun budget => budget.summarizePaths_perm ?_⟩
  have hmap := hperm.map fun report => (report.2, report.1.2.2.2)
  rwa [List.map_map, List.map_map] at hmap

/-- An input that drives an output through two gates of the same delay. -/
def balanced (fanout : List (String × List String)) : Netlist ℚ :=
  let node (name : String) (kind : NodeKind) (delay : ℚ) : Node ℚ :=
    ⟨name, kind, some 1, none, some delay, none, 0⟩
  { registry := .ofList [("a", node "a" .Input (1 / 2)), ("o", node "o" .Output 0),
      ("x", node "x" .Operator 2), ("y", node "y" .Operator 2)]
    fanout := .ofList fanout }

/-- With edges repeated and an empty list, the other gate becomes ready first, and the path leads
through that one and takes as long. -/
theorem timing_of_feeds_balanced : ∃ (g g' : Netlist ℚ) (path path' : TimingPath ℚ),
    g = balanced [("a", ["x", "y"]), ("x", ["o"]), ("y", ["o"])] ∧
    g' = balanced [("a", ["x", "y", "x"]), ("o", []), ("x", ["o", "o"]), ("y", ["o"])] ∧
    (∀ u v, g.Feeds u v ↔ g'.Feeds u v) ∧ g.IsAnnotated ∧ g'.IsAnnotated ∧
    g.timingPaths = .ok [path] ∧ g'.timingPaths = .ok [path'] ∧
    path.nodes = ["a", "x", "o"] ∧ path'.nodes = ["a", "y", "o"] ∧
    (∀ budget : SlackBudget ℚ, budget.summarizePaths [path] = budget.summarizePaths [path']) ∧
    (∀ name, name ∈ g.signals ↔ name ∈ g'.signals) ∧
    ∀ tech : Technology ℚ, tech.evaluate g = tech.evaluate g' := by
  let g := balanced [("a", ["x", "y"]), ("x", ["o"]), ("y", ["o"])]
  let g' := balanced [("a", ["x", "y", "x"]), ("o", []), ("x", ["o", "o"]), ("y", ["o"])]
  have hnodes : g.registry = g'.registry := rfl
  have hfeeds : ∀ u v, g.Feeds u v ↔ g'.Feeds u v := fun u v =>
    ⟨feeds_of_entries (by decide +kernel), feeds_of_entries (by decide +kernel)⟩
  have hannotated : g.IsAnnotated := by decide +kernel
  have hannotated' : g'.IsAnnotated := by decide +kernel
  have hsignals : g.signals = g'.signals := by decide +kernel
  obtain ⟨⟨paths, paths', hpaths, hpaths', -, hslack⟩, hcost⟩ :=
    timing_of_feeds hnodes hfeeds hannotated hannotated'
  have hrun : g.timingPaths = .ok [⟨"a", "o", ["a", "x", "o"], 5 / 2, .InToOut⟩] := by
    decide +kernel
  have hrun' : g'.timingPaths = .ok [⟨"a", "o", ["a", "y", "o"], 5 / 2, .InToOut⟩] := by
    decide +kernel
  obtain rfl : _ = paths := Except.ok.inj (hrun.symm.trans hpaths)
  obtain rfl : _ = paths' := Except.ok.inj (hrun'.symm.trans hpaths')
  have hnames : ∀ name, name ∈ g.signals ↔ name ∈ g'.signals := fun name => by rw [hsignals]
  exact ⟨g, g', _, _, rfl, rfl, hfeeds, hannotated, hannotated', hrun, hrun', rfl, rfl, hslack,
    hnames, hcost hnames⟩

end Netlist

end Presynth
