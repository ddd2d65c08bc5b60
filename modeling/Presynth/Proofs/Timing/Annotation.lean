import Presynth.Proofs.Numbers.RoundedSum
import Presynth.Proofs.Timing.Estimates
import Presynth.Proofs.Timing.PathShape
import Presynth.Proofs.Timing.Reads
/-!
# Timing after annotation

Annotation goes through the names of the fanout lists, timing through startpoints and through what
the fanout lists hold. Whatever timing reads is among the names annotated, so after an annotation
that went through no query fails. All delays that are read are then finite and not below zero, and
a path takes no less time than any of its signals.

Main statements: `Netlist.isUsable_annotateDelays`, `Netlist.mem_signals_of_reads` and
`Netlist.timing_of_annotated`.
-/

namespace Presynth

variable {α : Type}

/-- A path in the answer for all startpoints is one in the answer for some startpoint. -/
theorem TimingView.exists_of_mem_analyzeAll [Zero α] [Add α] [Sub α] [LT α] [DecidableLT α]
    {n : Nat} {view : TimingView α n} {s : Scratch α n} {paths : List (TimingPath α)} (hs : s.Tidy)
    (ok : (view.analyzeAll s).1 = .ok paths) {path : TimingPath α} (hpath : path ∈ paths) :
    ∃ start list, (view.analyzeFrom .fresh start).1 = .ok list ∧ path ∈ list := by
  rw [analyzeAll_fst hs] at ok
  obtain ⟨lists, hlists, rfl⟩ := exists_of_map_eq_ok ok
  obtain ⟨list, hlist, hmem⟩ := List.mem_flatten.mp hpath
  obtain ⟨start, hrun⟩ := exists_of_mem_mapM hlists hlist
  exact ⟨start, list, hrun, hmem⟩

namespace Netlist

/-! ### What annotation leaves -/

section Annotating

variable [Zero α] [LT α] [Quantity α]

/-- The signal `name` has a delay that is finite and not below zero. -/
def IsUsable (g : Netlist α) (name : String) : Prop :=
  ∃ d, g.delay? name = some d ∧ Quantity.isFinite d = true ∧ ¬ d < 0

/-- After an annotation that went through, all signals of the fanout lists are usable. -/
theorem isUsable_annotateDelays [DecidableLT α] {g : Netlist α} {source : DelaySource α}
    {count : Nat} (ok : (g.annotateDelays source).1 = .ok count) {name : String}
    (h : name ∈ (g.annotateDelays source).2.signals) :
    (g.annotateDelays source).2.IsUsable name := by
  rcases g.annotateDelays_cases source with ⟨-, hall⟩ | ⟨x, -, e, -, herror, -⟩
  · rw [signals, hall.fanout] at h
    obtain ⟨node, d, -, hd, hnode⟩ := hall.delayed name h
    cases hd with
    | usable registered estimate finite nonneg =>
        exact ⟨d, by rw [delay?, hnode, Option.bind_some], finite, nonneg⟩
  · cases ok.symm.trans herror

end Annotating

/-! ### What timing reads -/

/-- Startpoints and what something feeds occur in the fanout lists. -/
theorem mem_signals_of_reads {g : Netlist α} {i : Fin g.internedSize}
    (h : g.timingView.Reads i) : g.timingView.name i ∈ g.signals := by
  rcases h with hstart | ⟨u, hfeeds⟩
  · obtain ⟨hneighbors, -⟩ := (isStartpoint_iff i).mp hstart
    obtain ⟨v, hv⟩ := List.exists_mem_of_ne_nil _ hneighbors
    exact (mem_signals_of_mem_neighbors hv).1
  · exact (mem_signals_of_mem_neighbors ((feeds_name_iff u i).mp hfeeds)).2

/-- A usable delay is found under the number of its signal as well. -/
theorem exists_delay_of_isUsable [Zero α] [LT α] [Quantity α] {g : Netlist α}
    {i : Fin g.internedSize} (h : g.IsUsable (g.timingView.name i)) :
    ∃ d, g.timingView.delay i = .ok d ∧ Quantity.isFinite d = true ∧ ¬ d < 0 := by
  obtain ⟨d, hd, husable⟩ := h
  exact ⟨d, delay_timingView_eq_ok_iff.mpr hd, husable⟩

/-! ### Reported paths -/

/-- Whatever a query reports is a path. -/
theorem isPath_of_answer [Zero α] [Add α] [Sub α] [LT α] [DecidableLT α] {g : Netlist α}
    {s : Scratch α g.internedSize} (hs : s.Tidy) {q : TimingView.Query g.internedSize}
    {paths : List (TimingPath α)} (ok : (g.timingView.answer q s).1 = .ok paths)
    {path : TimingPath α} (hpath : path ∈ paths) : ∃ s e, g.IsPath s e path := by
  cases q with
  | single start =>
      obtain ⟨-, e, he⟩ := isPath_of_analyzeFrom hs ok hpath
      exact ⟨_, e, he⟩
  | all =>
      obtain ⟨start, list, hrun, hmem⟩ := TimingView.exists_of_mem_analyzeAll hs ok hpath
      obtain ⟨-, e, he⟩ := isPath_of_analyzeFrom Scratch.tidy_fresh hrun hmem
      exact ⟨_, e, he⟩

/-- A path takes no less time than any of its signals, where these have usable delays. -/
theorem IsPath.le_delay [Zero α] [Add α] [LT α] [LE α] [Quantity α] [RoundedSum α]
    {g : Netlist α} {s e : String} {path : TimingPath α} (h : g.IsPath s e path)
    (husable : ∀ name ∈ path.nodes, g.IsUsable name) :
    0 ≤ path.delay ∧ ∀ name ∈ path.nodes, ∃ d, g.delay? name = some d ∧ d ≤ path.delay := by
  obtain ⟨ds, hds, htime⟩ := h.delay
  have hnonneg : ∀ d ∈ ds, 0 ≤ d := by
    intro d hd
    have hmem : some d ∈ path.nodes.map g.delay? := hds ▸ List.mem_map_of_mem hd
    obtain ⟨name, hname, heq⟩ := List.mem_map.mp hmem
    obtain ⟨d', hd', hfinite, hneg⟩ := husable name hname
    obtain rfl : d' = d := Option.some.inj (hd'.symm.trans heq)
    exact RoundedSum.nonneg_of_finite hfinite hneg
  obtain ⟨hsum, hle⟩ := RoundedSum.le_foldl_add hnonneg
  rw [htime]
  refine ⟨hsum, fun name hname => ?_⟩
  have hmem : g.delay? name ∈ ds.map some := hds ▸ List.mem_map_of_mem hname
  obtain ⟨d, hd, heq⟩ := List.mem_map.mp hmem
  exact ⟨d, heq.symm, hle d hd⟩

/-- What a walk visits occurs in the fanout lists. -/
theorem mem_signals_of_walk {g : Netlist α} {s e : String} {l : List String} (w : g.Walk s l e) :
    ∀ name ∈ s :: l ++ [e], name ∈ g.signals := by
  induction w using Walk.induction_on with
  | first v hf =>
      obtain ⟨hs, hv⟩ := mem_signals_of_mem_neighbors hf
      simp [hs, hv]
  | onward l u v w hu hf ih =>
      intro name hname
      rw [← List.cons_append] at hname
      rcases List.mem_append.mp hname with hname | hname
      · exact ih name hname
      · rw [List.mem_singleton.mp hname]
        exact (mem_signals_of_mem_neighbors hf).2

/-- After an annotation that went through, every query answers, whatever was asked before it, and a
reported path takes no less time than any of its signals. All delays that queries read are finite
and not below zero; the others change no answer. -/
theorem timing_of_annotated [Zero α] [Add α] [Sub α] [LT α] [DecidableLT α] [LE α] [Quantity α]
    [RoundedSum α] (g : Netlist α) (source : DelaySource α) {count : Nat} {g' : Netlist α}
    (annotated : g.annotateDelays source = (.ok count, g')) :
    (∃ paths, g'.timingPaths = .ok paths) ∧
    (∀ marks, g'.timingView.Leftover marks → ∀ q,
      ∃ paths, (g'.timingView.answer q marks).1 = .ok paths ∧ ∀ path ∈ paths,
        0 ≤ path.delay ∧ ∀ name ∈ path.nodes, ∃ d, g'.delay? name = some d ∧ d ≤ path.delay) ∧
    (∀ i, g'.timingView.Reads i →
      ∃ d, g'.timingView.delay i = .ok d ∧ Quantity.isFinite d = true ∧ 0 ≤ d) ∧
    ∀ delays, g'.timingView.AgreesOnReads delays → ∀ q marks,
      (g'.timingView.withDelays delays).answer q marks = g'.timingView.answer q marks := by
  have husable : ∀ name ∈ g'.signals, g'.IsUsable name := by
    intro name hname
    have hsignal : name ∈ (g.annotateDelays source).2.signals := by rwa [annotated]
    have husable := isUsable_annotateDelays (congrArg Prod.fst annotated) hsignal
    rwa [annotated] at husable
  -- queries read delays of named signals only, and those were all annotated
  have hreads : ∀ i, g'.timingView.Reads i →
      ∃ d, g'.timingView.delay i = .ok d ∧ Quantity.isFinite d = true ∧ ¬ d < 0 :=
    fun i hi => exists_delay_of_isUsable (husable _ (mem_signals_of_reads hi))
  have hdelays : ∀ i, g'.timingView.Reads i → ∃ d, g'.timingView.delay i = .ok d :=
    fun i hi => (hreads i hi).imp fun d h => h.1
  refine ⟨TimingView.answer_ok Scratch.tidy_fresh hdelays .all, fun marks hmarks q => ?_,
    fun i hi => ?_, fun delays hagree q marks => TimingView.answer_withDelays hagree q marks⟩
  · obtain ⟨paths, hpaths⟩ := TimingView.answer_ok hmarks.tidy hdelays q
    refine ⟨paths, hpaths, fun path hpath => ?_⟩
    obtain ⟨s, e, h⟩ := isPath_of_answer hmarks.tidy hpaths hpath
    obtain ⟨between, hnodes, walk, -⟩ := h.shape
    exact h.le_delay fun name hname => husable name (mem_signals_of_walk walk name (hnodes ▸ hname))
  · obtain ⟨d, hd, hfinite, hneg⟩ := hreads i hi
    exact ⟨d, hd, hfinite, RoundedSum.nonneg_of_finite hfinite hneg⟩

/-- Two gates that feed each other behind a register, one of them registered under another name than
its own, and a port that nothing is connected to. The delays that they have are none. -/
def looped : Netlist Float :=
  let node (name : String) (kind : NodeKind) (delay : Float) : Node Float :=
    ⟨name, kind, none, none, some delay, none, 0⟩
  { registry := .ofList [("r", node "r" .Reg (-1)), ("x", node "other" .Operator (0 / 0)),
      ("y", node "y" .Operator (1 / 0)), ("o", node "o" .Output (-1)),
      ("p", node "p" .Input (0 / 0))]
    fanout := .ofList [("r", ["x", "o"]), ("x", ["y", "y"]), ("y", ["x", "r"])] }

/-- Annotated, that netlist is analysed in spite of its loop, and the port that nothing is connected
to keeps the delay it had. -/
theorem timing_of_annotated_looped :
    ∃ (source : DelaySource Float) (g : Netlist Float),
      looped.annotateDelays source = (.ok 4, g) ∧ g.delay? "p" = looped.delay? "p" ∧
        ∃ path : TimingPath Float, g.timingPaths = .ok [path] ∧ path.nodes = ["r", "o"] ∧
          0 ≤ path.delay ∧ ∀ name ∈ path.nodes, ∃ d, g.delay? name = some d ∧ d ≤ path.delay := by
  let source : DelaySource Float := fun node => if node.kind = .Reg then some 0.1 else some 0.2
  have annotated : looped.annotateDelays source = (.ok 4, (looped.annotateDelays source).2) :=
    Prod.ext (by decide +kernel) rfl
  obtain ⟨-, hanswers, -, -⟩ := looped.timing_of_annotated source annotated
  obtain ⟨paths, hpaths, hbounds⟩ := hanswers .fresh .fresh .all
  have hrun : (looped.annotateDelays source).2.timingPaths =
      .ok [⟨"r", "o", ["r", "o"], 0.1 + 0.2, .RegToOut⟩] := by
    decide +kernel
  obtain rfl : _ = paths := Except.ok.inj (hrun.symm.trans hpaths)
  exact ⟨source, _, annotated, by decide +kernel, _, hrun, rfl, hbounds _ List.mem_cons_self⟩

end Netlist

end Presynth
