import Mathlib.Data.List.Nodup
import Presynth.Timing.Delay
/-!
# What annotation does to a netlist

Annotation goes through the signals of the fanout lists in name order. It gives each one its
estimate until one has none that is usable, and leaves all else as it is. Since no signal comes
twice, the estimates are those of the netlist at the beginning. So a failure is that of the least
signal without a usable estimate, and the signals before it are the ones that were annotated.

Main statements: `estimatedDelay_eq_ok_iff` and `estimatedDelay_eq_error_iff` (the estimate of one
signal), `HoldsEstimates.annotateEach` (a run over some signals) and `annotateDelays_outcome`.
-/

namespace Presynth

variable {α : Type}

namespace Netlist

/-! ### Signals in name order -/

theorem signals_pairwise (g : Netlist α) : g.signals.Pairwise (· < ·) := sortedNames_pairwise _

/-- The signals in front of one are those of lesser names. -/
theorem mem_before_iff {g : Netlist α} {done rest : List String} {x : String}
    (h : g.signals = done ++ x :: rest) (name : String) :
    name ∈ done ↔ name ∈ g.signals ∧ name < x := by
  have hsorted := h ▸ g.signals_pairwise
  obtain ⟨-, hrest, hless⟩ := List.pairwise_append.mp hsorted
  rw [h]
  constructor
  · intro hname
    exact ⟨List.mem_append_left _ hname, hless name hname x List.mem_cons_self⟩
  · rintro ⟨hname, hlt⟩
    refine (List.mem_append.mp hname).resolve_right fun hafter => ?_
    rcases List.mem_cons.mp hafter with rfl | hafter
    · exact String.lt_irrefl _ hlt
    · exact String.lt_asymm hlt ((List.pairwise_cons.mp hrest).1 name hafter)

section Estimates

variable [Zero α] [LT α] [Quantity α]

/-! ### Estimates -/

/-- The source has the usable estimate `d` for the signal `name`. -/
inductive Estimated (g : Netlist α) (source : DelaySource α) (name : String) : α → Prop where
  | usable {node : Node α} {d : α} (registered : g.node? name = some node)
      (estimate : source node = some d) (finite : Quantity.isFinite d = true)
      (nonneg : ¬ d < 0) : Estimated g source name d

/-- What is wrong with a signal for which the source has no usable estimate. -/
inductive Unestimated (g : Netlist α) (source : DelaySource α) (name : String) :
    TimingError α → Prop where
  | unregistered (h : g.node? name = none) : Unestimated g source name (.unknownNode name)
  | missing {node : Node α} (registered : g.node? name = some node)
      (h : source node = none) : Unestimated g source name (.missingDelay name)
  | unusable {node : Node α} {d : α} (registered : g.node? name = some node)
      (estimate : source node = some d) (h : Quantity.isFinite d = false ∨ d < 0) :
      Unestimated g source name (.malformedDelay name d)

variable (g : Netlist α) (source : DelaySource α)

/-- In `g'` the signals of which `annotated` holds have their estimates for delays; all else is as
it is in `g`. -/
structure HoldsEstimates (annotated : String → Prop) (g' : Netlist α) : Prop where
  fanout : g'.fanout = g.fanout
  delayed : ∀ name, annotated name → ∃ node d, g.node? name = some node ∧
    g.Estimated source name d ∧ g'.node? name = some { node with delay := some d }
  kept : ∀ name, ¬ annotated name → g'.node? name = g.node? name

variable {g source}

/-! ### Annotating one more signal -/

/-- Nothing is annotated at first. -/
theorem holdsEstimates_start (g : Netlist α) (source : DelaySource α) :
    g.HoldsEstimates source (· ∈ []) g :=
  ⟨rfl, fun _ h => absurd h List.not_mem_nil, fun _ _ => rfl⟩

/-- One more name has its estimate. The nodes of all other names are as they were, also if one of
them has the same name in its record. -/
theorem HoldsEstimates.annotate {g' : Netlist α} {before : List String} {name : String} {d : α}
    (h : g.HoldsEstimates source (· ∈ before) g') (hname : name ∉ before)
    (hd : g.Estimated source name d) :
    g.HoldsEstimates source (· ∈ before ++ [name])
      (g'.modifyNode name fun node => { node with delay := some d }) := by
  refine ⟨h.fanout, fun other hother => ?_, fun other hother => ?_⟩
  · rw [node?_modifyNode]
    rcases List.mem_append.mp hother with hother | hother
    · rw [if_neg fun hne : name = other => hname (hne ▸ hother)]
      exact h.delayed other hother
    · obtain rfl := List.mem_singleton.mp hother
      obtain ⟨hnode, hsource, hfinite, hnonneg⟩ := hd
      refine ⟨_, d, hnode, .usable hnode hsource hfinite hnonneg, ?_⟩
      rw [if_pos rfl, h.kept other hname, hnode, Option.map_some]
  · rw [List.mem_append, not_or, List.mem_singleton] at hother
    rw [node?_modifyNode, if_neg (Ne.symm hother.2)]
    exact h.kept other hother.1

theorem HoldsEstimates.estimated {annotated : String → Prop} {g' : Netlist α}
    (h : g.HoldsEstimates source annotated g') {name : String} (hname : annotated name) :
    ∃ d, g.Estimated source name d := by
  obtain ⟨-, d, -, hd, -⟩ := h.delayed name hname
  exact ⟨d, hd⟩

variable [DecidableLT α]

/-! ### The estimate of one signal -/

theorem Estimated.estimatedDelay_eq {name : String} {d : α} (h : g.Estimated source name d) :
    g.estimatedDelay source name = .ok d := by
  obtain ⟨hnode, hsource, hfinite, hnonneg⟩ := h
  simp [estimatedDelay, hnode, hsource, hfinite, hnonneg]

theorem Unestimated.estimatedDelay_eq {name : String} {e : TimingError α}
    (h : g.Unestimated source name e) : g.estimatedDelay source name = .error e := by
  cases h with
  | unregistered hnode => simp [estimatedDelay, hnode]
  | missing hnode hsource => simp [estimatedDelay, hnode, hsource]
  | unusable hnode hsource hbad =>
      simp only [estimatedDelay, hnode, hsource]
      exact if_pos (by simpa using hbad)

/-- A signal has a usable estimate, or something is wrong with it. -/
theorem estimated_or_unestimated (g : Netlist α) (source : DelaySource α) (name : String) :
    (∃ d, g.Estimated source name d) ∨ ∃ e, g.Unestimated source name e := by
  cases hnode : g.node? name with
  | none => exact .inr ⟨_, .unregistered hnode⟩
  | some node =>
      cases hsource : source node with
      | none => exact .inr ⟨_, .missing hnode hsource⟩
      | some d =>
          by_cases hbad : Quantity.isFinite d = false ∨ d < 0
          · exact .inr ⟨_, .unusable hnode hsource hbad⟩
          · rw [not_or, Bool.not_eq_false] at hbad
            exact .inl ⟨d, .usable hnode hsource hbad.1 hbad.2⟩

theorem estimatedDelay_eq_ok_iff {name : String} {d : α} :
    g.estimatedDelay source name = .ok d ↔ g.Estimated source name d := by
  refine ⟨fun h => ?_, Estimated.estimatedDelay_eq⟩
  rcases g.estimated_or_unestimated source name with ⟨d', h'⟩ | ⟨e, h'⟩
  · obtain rfl : d' = d := Except.ok.inj (h'.estimatedDelay_eq.symm.trans h)
    exact h'
  · cases h'.estimatedDelay_eq.symm.trans h

/-- Since a name is one or the other and never both, each description is exact. -/
theorem estimatedDelay_eq_error_iff {name : String} {e : TimingError α} :
    g.estimatedDelay source name = .error e ↔ g.Unestimated source name e := by
  refine ⟨fun h => ?_, Unestimated.estimatedDelay_eq⟩
  rcases g.estimated_or_unestimated source name with ⟨d, h'⟩ | ⟨e', h'⟩
  · cases h'.estimatedDelay_eq.symm.trans h
  · obtain rfl : e' = e := Except.error.inj (h'.estimatedDelay_eq.symm.trans h)
    exact h'

/-- The estimate of a signal hangs on its own node only. -/
theorem estimatedDelay_congr {g' : Netlist α} {name : String} (h : g'.node? name = g.node? name) :
    g'.estimatedDelay source name = g.estimatedDelay source name := by
  rw [estimatedDelay, estimatedDelay, h]

/-! ### A run -/

/-- After the signals `before`, a run annotates all of `names` or those before the first one
without a usable estimate. -/
theorem HoldsEstimates.annotateEach {g' : Netlist α} {before names : List String}
    (h : g.HoldsEstimates source (· ∈ before) g') (hnodup : (before ++ names).Nodup) :
    ((Netlist.annotateEach source names g').1 = .ok () ∧
        g.HoldsEstimates source (· ∈ before ++ names) (Netlist.annotateEach source names g').2) ∨
      ∃ done x rest e, names = done ++ x :: rest ∧ g.Unestimated source x e ∧
        (Netlist.annotateEach source names g').1 = .error e ∧
        g.HoldsEstimates source (· ∈ before ++ done) (Netlist.annotateEach source names g').2 := by
  induction names generalizing g' before with
  | nil => exact .inl ⟨rfl, by rwa [List.append_nil]⟩
  | cons name names ih =>
      have hname : name ∉ before := fun hmem =>
        (List.nodup_append.mp hnodup).2.2 name hmem name List.mem_cons_self rfl
      -- its own node is still as it was, so the estimate is that of the first netlist
      have hsame : g'.estimatedDelay source name = g.estimatedDelay source name :=
        estimatedDelay_congr (h.kept name hname)
      rw [Netlist.annotateEach, hsame]
      cases hd : g.estimatedDelay source name with
      | error e =>
          refine .inr ⟨[], name, names, e, rfl, estimatedDelay_eq_error_iff.mp hd, rfl, ?_⟩
          rwa [List.append_nil]
      | ok d =>
          have hnext := h.annotate hname (estimatedDelay_eq_ok_iff.mp hd)
          have hrest := ih hnext (by rwa [List.append_assoc])
          rw [List.append_assoc] at hrest
          refine hrest.imp_right fun hfail => ?_
          obtain ⟨done, x, rest, e, rfl, hx, herror, hleft⟩ := hfail
          exact ⟨name :: done, x, rest, e, rfl, hx, herror, by rwa [List.append_assoc] at hleft⟩

/-! ### All signals -/

/-- The names are annotated in name order, and a success tells their number. -/
theorem annotateDelays_eq (g : Netlist α) (source : DelaySource α) :
    g.annotateDelays source = ((annotateEach source g.signals g).1.map fun _ => g.signals.length,
      (annotateEach source g.signals g).2) := rfl

/-- An annotation goes through, or it fails at the first signal without a usable estimate. -/
theorem annotateDelays_cases (g : Netlist α) (source : DelaySource α) :
    ((g.annotateDelays source).1 = .ok g.signals.length ∧
        g.HoldsEstimates source (· ∈ g.signals) (g.annotateDelays source).2) ∨
      ∃ x ∈ g.signals, ∃ e, g.Unestimated source x e ∧ (g.annotateDelays source).1 = .error e ∧
        g.HoldsEstimates source (fun name => name ∈ g.signals ∧ name < x)
          (g.annotateDelays source).2 := by
  have hnodup : ([] ++ g.signals).Nodup := g.signals_pairwise.imp String.ne_of_lt
  rw [annotateDelays_eq]
  rcases (g.holdsEstimates_start source).annotateEach hnodup with ⟨hok, hall⟩ | hfail
  · rw [hok]
    exact .inl ⟨rfl, hall⟩
  · obtain ⟨done, x, rest, e, hsplit, hx, herror, hdone⟩ := hfail
    rw [herror]
    refine .inr ⟨x, hsplit ▸ by simp, e, hx, rfl, ?_⟩
    simpa only [List.nil_append, mem_before_iff hsplit] using hdone

/-- An annotation goes through exactly if every signal of the fanout lists has a usable estimate. It
then returns the number of these signals, which have their estimates for delays. Otherwise it fails
as the signal of the least name without a usable estimate says, and the signals of lesser names have
their estimates for delays. Nothing else is changed. -/
theorem annotateDelays_outcome (g : Netlist α) (source : DelaySource α) :
    (g.signals.Pairwise (· < ·) ∧
      ∀ name, name ∈ g.signals ↔ ∃ entry ∈ g.fanout.toList, name = entry.1 ∨ name ∈ entry.2) ∧
    ((∃ count, (g.annotateDelays source).1 = .ok count) ↔
      ∀ name ∈ g.signals, ∃ d, g.Estimated source name d) ∧
    (∀ count, (g.annotateDelays source).1 = .ok count → count = g.signals.length ∧
      g.HoldsEstimates source (· ∈ g.signals) (g.annotateDelays source).2) ∧
    ∀ e, (g.annotateDelays source).1 = .error e → ∃ x ∈ g.signals, g.Unestimated source x e ∧
      (∀ name ∈ g.signals, name < x → ∃ d, g.Estimated source name d) ∧
      g.HoldsEstimates source (fun name => name ∈ g.signals ∧ name < x)
        (g.annotateDelays source).2 := by
  refine ⟨⟨g.signals_pairwise, fun _ => mem_signals⟩, ?_⟩
  rcases g.annotateDelays_cases source with ⟨hok, hall⟩ | ⟨x, hsignal, e, hx, herror, hbefore⟩
  · refine ⟨iff_of_true ⟨_, hok⟩ fun name hname => hall.estimated hname, fun count h => ?_,
      fun e h => ?_⟩
    · exact ⟨Except.ok.inj (h.symm.trans hok), hall⟩
    · cases hok.symm.trans h
  · refine ⟨iff_of_false (fun h => ?_) (fun h => ?_), fun count h => ?_, fun e' h => ?_⟩
    · obtain ⟨count, hok⟩ := h
      cases herror.symm.trans hok
    · obtain ⟨d, hd⟩ := h x hsignal
      cases hd.estimatedDelay_eq.symm.trans hx.estimatedDelay_eq
    · cases herror.symm.trans h
    · obtain rfl := Except.error.inj (herror.symm.trans h)
      exact ⟨x, hsignal, hx, fun name hname hlt => hbefore.estimated ⟨hname, hlt⟩, hbefore⟩

end Estimates

/-- A register in front of a gate and of one that is registered under another name than its own, and
a port that nothing is connected to. -/
def measured : Netlist Float :=
  let node (name : String) (kind : NodeKind) (delay : Option Float) : Node Float :=
    ⟨name, kind, none, none, delay, none, 0⟩
  { registry := .ofList [("a", node "a" .Reg (some 1)), ("b", node "gate" .Operator (some 2)),
      ("c", node "c" .Operator none), ("p", node "p" .Input (some 3))]
    fanout := .ofList [("a", ["c", "b"]), ("c", ["b", "b"])] }

/-- An undefined estimate in the middle: the register was annotated with a negative zero before. -/
theorem annotateDelays_outcome_measured :
    ∃ source : DelaySource Float, measured.Estimated source "a" (-0.0) ∧
      (measured.annotateDelays source).1 = .error (.malformedDelay "b" (0 / 0)) ∧
      measured.Unestimated source "b" (.malformedDelay "b" (0 / 0)) ∧
      measured.HoldsEstimates source (fun name => name ∈ measured.signals ∧ name < "b")
        (measured.annotateDelays source).2 := by
  let source : DelaySource Float := fun node => some (if node.name = "gate" then 0 / 0 else -0.0)
  have failed : (measured.annotateDelays source).1 = .error (.malformedDelay "b" (0 / 0)) := by
    decide +kernel
  obtain ⟨-, -, -, herror⟩ := measured.annotateDelays_outcome source
  obtain ⟨x, -, hx, -, hleft⟩ := herror _ failed
  obtain rfl : x = "b" := by cases hx; rfl
  exact ⟨source, estimatedDelay_eq_ok_iff.mp (by decide +kernel), failed, hx, hleft⟩

end Netlist

end Presynth
