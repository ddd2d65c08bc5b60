import Presynth.Proofs.Slack.Aggregation
import Presynth.Proofs.Timing.ReportOrder
/-!
# Timing with longer delays

Two annotations of one netlist report the same paths, but for the signals on the way: where one of
them gives no signal a greater delay, no path takes longer, though another walk may be the longest
one. So no path has less slack, and a design that is on time with the greater delays is on time with
the lesser ones.

Main statements: `Netlist.SameButDelays.annotateDelays` (annotations differ in delays only) and
`Netlist.timingPaths_of_delaysLE`.
-/

namespace Presynth

variable {α : Type}

namespace Netlist

/-! ### Annotations of one netlist -/

section Annotations

variable {g g' g'' : Netlist α}

namespace SameButDelays

theorem refl (g : Netlist α) : g.SameButDelays g := ⟨rfl, fun _ => rfl⟩

theorem symm (h : g.SameButDelays g') : g'.SameButDelays g :=
  ⟨h.fanout.symm, fun name => (h.node name).symm⟩

theorem trans (h : g.SameButDelays g') (h' : g'.SameButDelays g'') : g.SameButDelays g'' :=
  ⟨h.fanout.trans h'.fanout, fun name => (h.node name).trans (h'.node name)⟩

theorem modifyNode (g : Netlist α) (name : String) (d : Option α) :
    g.SameButDelays (g.modifyNode name fun node => { node with delay := d }) where
  fanout := rfl
  node := fun other => by
    rw [node?_modifyNode]
    split
    · rw [Option.map_map]
      rfl
    · rfl

variable [Zero α] [LT α] [DecidableLT α] [Quantity α]

/-- Nor does setting many delays, also where one of them is missing in the end. -/
theorem annotateEach (source : DelaySource α) (names : List String) (g : Netlist α) :
    g.SameButDelays (Netlist.annotateEach source names g).2 := by
  induction names generalizing g with
  | nil => exact refl g
  | cons name names ih =>
      rw [Netlist.annotateEach]
      cases g.estimatedDelay source name with
      | error e => exact refl g
      | ok d => exact (modifyNode g name (some d)).trans (ih _)

/-- Annotations of one netlist differ in delays only, also ones that fail. -/
theorem annotateDelays (g : Netlist α) (source source' : DelaySource α) :
    (g.annotateDelays source).2.SameButDelays (g.annotateDelays source').2 :=
  (annotateEach source g.signals g).symm.trans (annotateEach source' g.signals g)

end SameButDelays

end Annotations

/-! ### Longer delays -/

variable [AddCommGroup α] [LinearOrder α] [IsOrderedAddMonoid α] [Quantity α]

/-- With longer delays, the same paths are reported in the same order and take no less time. So the
worst slack and the total slack are no greater, and a design that is on time is so with the shorter
delays as well. -/
theorem timingPaths_of_delaysLE {g g' : Netlist α} (hsame : g.SameButDelays g')
    (hle : g.DelaysLE g') :
    ∃ paths paths', g.timingPaths = .ok paths ∧ g'.timingPaths = .ok paths' ∧
      List.Forall₂ (fun path path' => path.outline = path'.outline ∧ path.delay ≤ path'.delay)
        paths paths' ∧
      ∀ budget : SlackBudget α,
        (budget.summarizePaths paths').wns ≤ (budget.summarizePaths paths).wns ∧
        (budget.summarizePaths paths').tns ≤ (budget.summarizePaths paths).tns ∧
        ((budget.summarizePaths paths').isMet = true →
          (budget.summarizePaths paths).isMet = true) := by
  have hannotated : g.IsAnnotated := fun name hname => by
    obtain ⟨d, d', hd, -⟩ := hle name hname
    exact ⟨d, hd⟩
  have hannotated' : g'.IsAnnotated := fun name hname => by
    rw [signals, ← hsame.fanout] at hname
    obtain ⟨d, d', -, hd', -⟩ := hle name hname
    exact ⟨d', hd'⟩
  obtain ⟨paths, ok⟩ := hannotated.timingPaths_ok
  obtain ⟨paths', ok'⟩ := hannotated'.timingPaths_ok
  -- which ends are reported depends on the edges alone, so the reports pair up by position
  have hends := hsame.ends_eq ok ok'
  have hall : List.Forall₂
      (fun path path' => path.outline = path'.outline ∧ path.delay ≤ path'.delay) paths paths' := by
    refine List.forall₂_iff_get.mpr ⟨by simpa using congrArg List.length hends,
      fun i hi hi' => ?_⟩
    refine hsame.sameWalks.outline_eq hle ok ok' (List.get_mem ..) (List.get_mem ..) ?_
    simpa [hi, hi'] using congrArg (fun l => l[i]?) hends
  refine ⟨paths, paths', ok, ok', hall, fun budget => ?_⟩
  obtain ⟨hwns, htns⟩ := budget.summarizePaths_le (hall.imp fun path path' h =>
    ⟨congrArg (fun outline => outline.2.2.2) h.1, h.2⟩)
  refine ⟨hwns, htns, fun hmet => ?_⟩
  exact decide_eq_true ((of_decide_eq_true hmet).trans hwns)

/-- An input that drives an output through two gates. -/
def forked : Netlist ℚ :=
  let node (name : String) (kind : NodeKind) : Node ℚ := ⟨name, kind, none, none, none, none, 0⟩
  { registry := .ofList [("a", node "a" .Input), ("o", node "o" .Output),
      ("x", node "x" .Operator), ("y", node "y" .Operator)]
    fanout := .ofList [("a", ["x", "y"]), ("x", ["o"]), ("y", ["o"])] }

/-- The longest walk changes from one gate to the other. -/
theorem timingPaths_of_delaysLE_forked :
    ∃ (short long : DelaySource ℚ) (g g' : Netlist ℚ), forked.annotateDelays short = (.ok 4, g) ∧
      forked.annotateDelays long = (.ok 4, g') ∧ g.SameButDelays g' ∧ g.DelaysLE g' ∧
      ∃ path path' : TimingPath ℚ, g.timingPaths = .ok [path] ∧ g'.timingPaths = .ok [path'] ∧
        path.nodes = ["a", "y", "o"] ∧ path'.nodes = ["a", "x", "o"] ∧
        path.outline = path'.outline ∧ path.delay ≤ path'.delay ∧
        ∀ budget : SlackBudget ℚ,
          (budget.summarizePaths [path']).wns ≤ (budget.summarizePaths [path]).wns := by
  let short : DelaySource ℚ := fun node =>
    if node.name = "x" then some 2 else if node.name = "y" then some 5 else some (1 / 2)
  let long : DelaySource ℚ := fun node =>
    if node.name = "x" then some 7 else if node.name = "y" then some 6 else some (1 / 2)
  have hshort : forked.annotateDelays short = (.ok 4, (forked.annotateDelays short).2) :=
    Prod.ext (by decide +kernel) rfl
  have hlong : forked.annotateDelays long = (.ok 4, (forked.annotateDelays long).2) :=
    Prod.ext (by decide +kernel) rfl
  have hsame := SameButDelays.annotateDelays forked short long
  have hle : (forked.annotateDelays short).2.DelaysLE (forked.annotateDelays long).2 := by
    decide +kernel
  obtain ⟨paths, paths', hpaths, hpaths', hall, hslack⟩ := timingPaths_of_delaysLE hsame hle
  have hrun : (forked.annotateDelays short).2.timingPaths =
      .ok [⟨"a", "o", ["a", "y", "o"], 6, .InToOut⟩] := by decide +kernel
  have hrun' : (forked.annotateDelays long).2.timingPaths =
      .ok [⟨"a", "o", ["a", "x", "o"], 8, .InToOut⟩] := by decide +kernel
  obtain rfl : _ = paths := Except.ok.inj (hrun.symm.trans hpaths)
  obtain rfl : _ = paths' := Except.ok.inj (hrun'.symm.trans hpaths')
  obtain ⟨⟨houtline, hdelay⟩, -⟩ := List.forall₂_cons.mp hall
  exact ⟨short, long, _, _, hshort, hlong, hsame, hle, _, _, hrun, hrun', rfl, rfl, houtline,
    hdelay, fun budget => (hslack budget).1⟩

end Netlist

end Presynth
