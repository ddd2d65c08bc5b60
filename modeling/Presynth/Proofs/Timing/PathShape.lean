import Presynth.Proofs.Timing.Completeness
/-!
# What a reported path holds

A reported path is a walk from its startpoint to an endpoint that visits nothing twice, and its
delay is the sum of the annotated delays of exactly its signals, taken from left to right. This
holds for any addition, also for one that rounds.

Main statements: `strips_logicalName` (what is left of a name without its pins) and
`Netlist.isPath_of_reported`.
-/

namespace Presynth

variable {α : Type} {n : Nat}

/-! ### Logical names -/

/-- `short` is `name` without `ending`, if `name` ends so, else all of it. -/
def Strips (ending name short : String) : Prop :=
  name = short ++ ending ∨ short = name ∧ ∀ kept : String, name ≠ kept ++ ending

theorem strips_dropPin (ending name : String) : Strips ending name (dropPin ending name) := by
  unfold dropPin
  dsimp only
  split
  · rename_i h
    refine Or.inl (String.toList_injective ?_)
    rw [String.toList_append, String.toList_ofList, ← h, List.take_append_drop]
  · rename_i h
    refine Or.inr ⟨rfl, fun kept hname => h ?_⟩
    rw [hname, String.toList_append, List.length_append, String.length_toList,
      String.length_toList, Nat.add_sub_cancel, ← String.length_toList, List.drop_left]

theorem strips_logicalName (name : String) :
    ∃ pinless, Strips "_CK_" name pinless ∧ Strips "_Q_" pinless (logicalName name) :=
  ⟨_, strips_dropPin "_CK_" name, strips_dropPin "_Q_" _⟩

/-! ### Paths of a netlist -/

/-- `path` is a path from `s` to `e`. -/
structure Netlist.IsPath [Zero α] [Add α] (g : Netlist α) (s e : String) (path : TimingPath α) :
    Prop where
  /-- It leads along edges, passes no endpoint, and no name repeats except that `s` may be `e`. -/
  shape : ∃ between, path.nodes = s :: between ++ [e] ∧ g.Walk s between e ∧
    (s :: between).Nodup ∧ (between ++ [e]).Nodup
  endpoint : g.IsEndpoint e
  /-- Its delay is the sum of the delays of its signals, from left to right. -/
  delay : ∃ ds : List α, path.nodes.map g.delay? = ds.map some ∧ path.delay = ds.foldl (· + ·) 0
  boundary : path.boundary = .classify (g.timingKind? s) (g.timingKind? e)
  source : ∃ pinless, Strips "_CK_" s pinless ∧ Strips "_Q_" pinless path.source
  sink : ∃ pinless, Strips "_CK_" e pinless ∧ Strips "_Q_" pinless path.sink

namespace Netlist

variable [Zero α] [Add α]

/-- An arrival at a settled endpoint is a path. -/
theorem isPath_pathOf {g : Netlist α} {start v : Fin g.internedSize} {d : α}
    {a : Arrival α g.internedSize} (h : TimingView.Arrives g.timingView start d v a)
    (hd : g.timingView.delay start = .ok d) (hstop : g.timingView.Stops v)
    (hsettled : g.timingView.Settled start v) :
    g.IsPath (g.timingView.name start) (g.timingView.name v) (g.timingView.pathOf start v a) := by
  obtain ⟨l, ds, w, htrail, hds, htime⟩ := h.exists_walk hd
  -- a settled signal is behind no loop, so the walk to it repeats nothing
  obtain ⟨hsl, hlv⟩ := hsettled.nodup w
  have hinj : Function.Injective g.timingView.name := fun i j => g.name_timingView_inj
  have hnodes : (g.timingView.pathOf start v a).nodes =
      g.timingView.name start :: l.map g.timingView.name ++ [g.timingView.name v] := by
    rw [TimingView.nodes_pathOf, htrail, List.map_append]
    rfl
  refine ⟨⟨l.map g.timingView.name, hnodes, walk_name_iff.mpr w, ?_, ?_⟩,
    (stops_iff v).mp hstop, ⟨ds, ?_, ?_⟩, ?_, ?_, ?_⟩
  · rw [← List.map_cons]
    exact hsl.map hinj
  · have hmap := hlv.map hinj
    rwa [List.map_append] at hmap
  · rw [TimingView.nodes_pathOf, htrail]
    exact map_delay?_name hds
  · exact htime
  · rw [← kind_timingView, ← kind_timingView]
    rfl
  · rw [TimingView.source_pathOf]
    exact strips_logicalName _
  · rw [TimingView.sink_pathOf]
    exact strips_logicalName _

variable [Sub α] [LT α] [DecidableLT α]

/-- The answers of a query are paths in the described sense, whatever queries were made before. -/
theorem isPath_of_analyzeFrom {g : Netlist α} {s : Scratch α g.internedSize} {start : Fin _}
    {paths : List (TimingPath α)} (h : s.Tidy)
    (ok : (g.timingView.analyzeFrom s start).1 = .ok paths) {path : TimingPath α}
    (hpath : path ∈ paths) :
    g.IsStartpoint (g.timingView.name start) ∧ ∃ e, g.IsPath (g.timingView.name start) e path := by
  by_cases hstart : g.timingView.isStartpoint start = true
  · obtain ⟨d, stops, arrival, hd, -, hmem, harr, rfl⟩ :=
      TimingView.exists_arrivals_of_analyzeFrom h hstart ok
    obtain ⟨v, hv, rfl⟩ := List.mem_map.mp hpath
    obtain ⟨hstop, hsettled⟩ := (hmem v).mp hv
    exact ⟨(isStartpoint_iff start).mp hstart, _, isPath_pathOf (harr v hv) hd hstop hsettled⟩
  · rw [TimingView.analyzeFrom_of_not_startpoint h hstart] at ok
    cases ok
    exact absurd hpath List.not_mem_nil

/-- Whatever a query reports is a path from a startpoint, whatever queries ran before. -/
theorem isPath_of_reported (g : Netlist α) {marks : Scratch α g.internedSize}
    (hmarks : g.timingView.Leftover marks) :
    (∀ start paths, (g.timingView.analyzeFrom marks start).1 = .ok paths → ∀ path ∈ paths,
      g.IsStartpoint (g.timingView.name start) ∧
        ∃ e, g.IsPath (g.timingView.name start) e path) ∧
    ∀ paths, (g.timingView.analyzeAll marks).1 = .ok paths → ∀ path ∈ paths,
      ∃ s e, g.IsStartpoint s ∧ g.IsPath s e path := by
  have htidy := hmarks.tidy
  refine ⟨fun start paths ok path hpath => isPath_of_analyzeFrom htidy ok hpath,
    fun paths ok path hpath => ?_⟩
  rw [TimingView.analyzeAll_fst htidy] at ok
  obtain ⟨lists, hlists, rfl⟩ := exists_of_map_eq_ok ok
  obtain ⟨list, hlist, hpath⟩ := List.mem_flatten.mp hpath
  obtain ⟨start, hrun⟩ := exists_of_mem_mapM hlists hlist
  obtain ⟨hstart, e, he⟩ := isPath_of_analyzeFrom Scratch.tidy_fresh hrun hpath
  exact ⟨_, e, hstart, he⟩

/-- A path may lead from a register back to it. -/
theorem isPath_of_reported_latched :
    latched.timingView.Leftover .fresh ∧
      ∃ paths, (latched.timingView.analyzeAll .fresh).1 = .ok paths ∧
        paths.map (·.nodes) = [["r", "x", "r"], ["r", "x", "o"]] ∧
        ∀ path ∈ paths, ∃ s e, latched.IsStartpoint s ∧ latched.IsPath s e path := by
  have ok : (latched.timingView.analyzeAll .fresh).1 =
      .ok [⟨"r", "r", ["r", "x", "r"], 4, .RegToReg⟩,
        ⟨"r", "o", ["r", "x", "o"], 3, .RegToOut⟩] := by
    decide +kernel
  exact ⟨.fresh, _, ok, rfl, (latched.isPath_of_reported .fresh).2 _ ok⟩

end Netlist

end Presynth
