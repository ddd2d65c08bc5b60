import Mathlib.Algebra.Ring.Int.Defs
import Mathlib.Data.List.Forall2
import Presynth.Proofs.Timing.Isolation
/-!
# The paths that are reported

From a startpoint a path is due to every endpoint that is reached from it, unless a combinational
loop lies on the way: signals behind such a loop have no final arrival. The paths that a query
reports are exactly those that are due, each once, and the query for all startpoints reports them
startpoint by startpoint in name order.

Main statements: `Netlist.areDue_of_analyzeFrom` (one startpoint), `Netlist.ends_of_analyzeAll` (all
of them) and `Netlist.timing_complete`.
-/

namespace Presynth

variable {α : Type} {n : Nat}

/-- The first and the last signal of a path. -/
def TimingPath.ends (path : TimingPath α) : Option String × Option String :=
  (path.nodes.head?, path.nodes.getLast?)

/-- A path from `s` to `e` is due: `e` is an endpoint that is reached from `s`, and no combinational
loop lies on a way there. -/
structure Netlist.PathDue (g : Netlist α) (s e : String) : Prop where
  endpoint : g.IsEndpoint e
  reached : g.Reaches s e
  loopFree : ¬ g.BehindLoop s e

/-- `paths` are those due from `s`, one to each endpoint, whose logical name is the sink. -/
def Netlist.AreDue (g : Netlist α) (s : String) (paths : List (TimingPath α)) : Prop :=
  ∃ ends : List String, ends.Nodup ∧ (∀ e, e ∈ ends ↔ g.PathDue s e) ∧
    paths.map (fun path => (path.ends, path.sink)) =
      ends.map fun e => ((some s, some e), logicalName e)

/-! ### Results of lists of queries -/

theorem exists_of_map_eq_ok {ε β γ : Type} {f : β → γ} {x : Except ε β} {c : γ}
    (h : f <$> x = .ok c) : ∃ b, x = .ok b ∧ f b = c := by
  cases x with
  | error e => cases h
  | ok b => exact ⟨b, rfl, Except.ok.inj h⟩

theorem forall₂_of_mapM_eq_ok {ε β γ : Type} {f : β → Except ε γ} {l : List β} {r : List γ}
    (h : l.mapM f = .ok r) : List.Forall₂ (fun b c => b ∈ l ∧ f b = .ok c) l r := by
  induction l generalizing r with
  | nil => cases h; exact .nil
  | cons b l ih =>
      rw [List.mapM_cons] at h
      cases hb : f b with
      | error e => rw [hb] at h; cases h
      | ok c =>
          cases hl : l.mapM f with
          | error e => rw [hb, hl] at h; cases h
          | ok cs =>
              rw [hb, hl] at h
              cases h
              refine .cons ⟨List.mem_cons_self, hb⟩ ((ih hl).imp fun b' c' h => ?_)
              exact ⟨List.mem_cons_of_mem _ h.1, h.2⟩

theorem exists_of_mem_mapM {ε β γ : Type} {f : β → Except ε γ} {l : List β} {r : List γ}
    (h : l.mapM f = .ok r) {c : γ} (hc : c ∈ r) : ∃ b, f b = .ok c := by
  have hall := forall₂_of_mapM_eq_ok h
  obtain ⟨i, rfl⟩ := List.get_of_mem hc
  have hi : i < l.length := by
    rw [hall.length_eq]
    exact i.isLt
  exact ⟨_, (hall.get hi i.isLt).2⟩

namespace TimingView

variable {view : TimingView α n} {start : Fin n}

theorem nodes_pathOf (stop : Fin n) (a : Arrival α n) :
    (view.pathOf start stop a).nodes = a.trail.reverse.map view.name := by
  simp only [pathOf]

theorem source_pathOf (stop : Fin n) (a : Arrival α n) :
    (view.pathOf start stop a).source = logicalName (view.name start) := by
  simp only [pathOf]

theorem sink_pathOf (stop : Fin n) (a : Arrival α n) :
    (view.pathOf start stop a).sink = logicalName (view.name stop) := by
  simp only [pathOf]

variable [Zero α] [Add α]

/-- A trail ends in the start, so a path begins there. -/
theorem Arrives.ends_pathOf {d : α} {v : Fin n} {a : Arrival α n} (h : Arrives view start d v a)
    (hd : view.delay start = .ok d) :
    (view.pathOf start v a).ends = (some (view.name start), some (view.name v)) := by
  obtain ⟨l, ds, w, htrail, -, -⟩ := h.exists_walk hd
  have hnodes : (view.pathOf start v a).nodes =
      view.name start :: l.map view.name ++ [view.name v] := by
    rw [nodes_pathOf, htrail, List.map_append]
    rfl
  rw [TimingPath.ends, hnodes, List.getLast?_concat]
  rfl

variable [Sub α] [LT α] [DecidableLT α]

/-- The paths of a startpoint are the arrivals at the settled endpoints, each once. -/
theorem exists_arrivals_of_analyzeFrom {s : Scratch α n} {paths : List (TimingPath α)}
    (h : s.Tidy) (hstart : view.isStartpoint start = true)
    (ok : (view.analyzeFrom s start).1 = .ok paths) :
    ∃ (d : α) (stops : List (Fin n)) (arrival : Fin n → Arrival α n),
      view.delay start = .ok d ∧ stops.Nodup ∧
      (∀ v, v ∈ stops ↔ view.Stops v ∧ view.Settled start v) ∧
      (∀ v ∈ stops, Arrives view start d v (arrival v)) ∧
      paths = stops.map fun v => view.pathOf start v (arrival v) := by
  obtain ⟨d, done, f, hd, hsweep, hend, rfl⟩ := exists_sweep_of_analyzeFrom h hstart ok
  obtain ⟨hnodup, hmem⟩ := hsweep.reached_of_ended hend
  refine ⟨d, f.reached, arrivalOf f, hd, hnodup, hmem, fun v hv => ?_, rfl⟩
  obtain ⟨a, ha, harr⟩ := hsweep.exists_arrives_of_reached hv
  rw [arrivalOf_eq ha]
  exact harr

end TimingView

namespace Netlist

/-- What is due can be counted by the ends of the paths: each end that is due is there once, and no
other end is. -/
theorem AreDue.ends {g : Netlist α} {s : String} {paths : List (TimingPath α)}
    (h : g.AreDue s paths) :
    (paths.map TimingPath.ends).Nodup ∧
      ∀ x, x ∈ paths.map TimingPath.ends ↔ ∃ e, g.PathDue s e ∧ x = (some s, some e) := by
  obtain ⟨ends, hnodup, hmem, hmap⟩ := h
  have hends : paths.map TimingPath.ends = ends.map fun e => (some s, some e) := by
    simpa [Function.comp_def] using congrArg (List.map Prod.fst) hmap
  rw [hends]
  refine ⟨hnodup.map fun a b hab => Option.some.inj (Prod.ext_iff.mp hab).2, fun x => ?_⟩
  simp only [List.mem_map, hmem, eq_comm]

/-- Lists of paths for startpoints of their own share no pair of ends. -/
theorem ends_flatten {g : Netlist α} {starts : List (Fin g.internedSize)}
    {lists : List (List (TimingPath α))} (hstarts : starts.Nodup)
    (h : List.Forall₂ (fun start => g.AreDue (g.timingView.name start)) starts lists) :
    (lists.flatten.map TimingPath.ends).Nodup ∧
      ∀ x, x ∈ lists.flatten.map TimingPath.ends ↔ ∃ start ∈ starts, ∃ e,
        g.PathDue (g.timingView.name start) e ∧ x = (some (g.timingView.name start), some e) := by
  induction h with
  | nil => simp
  | @cons start paths starts lists hpaths hrest ih =>
      obtain ⟨hpathsNodup, hmem⟩ := hpaths.ends
      obtain ⟨hnot, hstarts⟩ := List.nodup_cons.mp hstarts
      obtain ⟨ihnodup, ihmem⟩ := ih hstarts
      rw [List.flatten_cons, List.map_append]
      constructor
      · refine List.nodup_append.mpr ⟨hpathsNodup, ihnodup, fun a ha b hb hab => ?_⟩
        -- the first components would be the names of different startpoints
        obtain ⟨e, -, rfl⟩ := (hmem a).mp ha
        obtain ⟨start', hstart', e', -, rfl⟩ := (ihmem b).mp hb
        have hname := Option.some.inj (Prod.ext_iff.mp hab).1
        exact hnot (g.name_timingView_inj hname ▸ hstart')
      · intro x
        rw [List.mem_append, hmem, ihmem]
        simp only [List.mem_cons, exists_eq_or_imp]

/-! ### The startpoints -/

/-- Every startpoint has a name that is mentioned, so it has a number and is among those that are
asked. -/
theorem mem_startpoints_name {g : Netlist α} {s : String} :
    s ∈ g.timingView.startpoints.map g.timingView.name ↔ g.IsStartpoint s := by
  rw [TimingView.startpoints, List.mem_map]
  constructor
  · intro h
    obtain ⟨i, hi, rfl⟩ := h
    rw [List.mem_mergeSort, List.mem_filter] at hi
    exact (isStartpoint_iff i).mp hi.2
  · intro h
    obtain ⟨i, rfl⟩ := h.exists_name
    refine ⟨i, ?_, rfl⟩
    rw [List.mem_mergeSort, List.mem_filter]
    exact ⟨List.mem_finRange i, (isStartpoint_iff i).mpr h⟩

theorem startpoints_name_pairwise (g : Netlist α) :
    (g.timingView.startpoints.map g.timingView.name).Pairwise (· < ·) := by
  have hle : (g.timingView.startpoints.map g.timingView.name).Pairwise (· ≤ ·) := by
    rw [List.pairwise_map]
    refine (List.pairwise_mergeSort ?_ ?_ _).imp fun h => of_decide_eq_true h
    · intro a b c hab hbc
      exact decide_eq_true (String.le_trans (of_decide_eq_true hab) (of_decide_eq_true hbc))
    · intro a b
      simpa using String.le_total _ _
  have hnodup : (g.timingView.startpoints.map g.timingView.name).Nodup := by
    refine List.Nodup.map (fun i j h => g.name_timingView_inj h) ?_
    exact (List.mergeSort_perm _ _).nodup_iff.mpr ((List.nodup_finRange _).filter _)
  exact (hle.and hnodup).imp fun h =>
    String.not_le.mp fun hle => h.2 (String.le_antisymm h.1 hle)

/-! ### The paths of one startpoint -/

/-- Whether a path is due is the same question of names and of numbers. -/
theorem pathDue_iff {g : Netlist α} {s e : Fin g.internedSize} :
    g.PathDue (g.timingView.name s) (g.timingView.name e) ↔
      g.timingView.Stops e ∧ g.timingView.Settled s e := by
  rw [stops_iff, settled_name_iff]
  exact ⟨fun h => ⟨h.endpoint, h.reached, h.loopFree⟩, fun h => ⟨h.1, h.2.1, h.2.2⟩⟩

/-- What is due from a name with a number has a number. -/
theorem PathDue.exists_name {g : Netlist α} {s : Fin g.internedSize} {e : String}
    (h : g.PathDue (g.timingView.name s) e) : ∃ j, g.timingView.name j = e := by
  obtain ⟨j, hj, -⟩ := reaches_iff_exists.mp h.reached
  exact ⟨j, hj⟩

variable [Zero α] [Add α] [Sub α] [LT α] [DecidableLT α]

/-- A query reports the paths that are due from its startpoint, each once. -/
theorem areDue_of_analyzeFrom {g : Netlist α} {s : Scratch α g.internedSize} {start : Fin _}
    {paths : List (TimingPath α)} (h : s.Tidy) (hstart : g.IsStartpoint (g.timingView.name start))
    (ok : (g.timingView.analyzeFrom s start).1 = .ok paths) :
    g.AreDue (g.timingView.name start) paths := by
  obtain ⟨d, stops, arrival, hd, hnodup, hmem, harr, rfl⟩ :=
    TimingView.exists_arrivals_of_analyzeFrom h ((isStartpoint_iff start).mpr hstart) ok
  refine ⟨stops.map g.timingView.name, hnodup.map fun i j h => g.name_timingView_inj h,
    fun e => ?_, ?_⟩
  · rw [List.mem_map]
    constructor
    · intro he
      obtain ⟨v, hv, rfl⟩ := he
      exact pathDue_iff.mpr ((hmem v).mp hv)
    · intro he
      obtain ⟨j, rfl⟩ := he.exists_name
      exact ⟨j, (hmem j).mpr (pathDue_iff.mp he), rfl⟩
  · simp only [List.map_map, Function.comp_def]
    refine List.map_congr_left fun v hv => ?_
    rw [(harr v hv).ends_pathOf hd, TimingView.sink_pathOf]

/-! ### The paths of all startpoints -/

/-- The query for all startpoints reports the paths that are due from each of them. -/
theorem ends_of_analyzeAll {g : Netlist α} {s : Scratch α g.internedSize}
    {paths : List (TimingPath α)} (h : s.Tidy)
    (ok : (g.timingView.analyzeAll s).1 = .ok paths) :
    (paths.map TimingPath.ends).Nodup ∧
      ∀ s e, (some s, some e) ∈ paths.map TimingPath.ends ↔ g.IsStartpoint s ∧ g.PathDue s e := by
  rw [TimingView.analyzeAll_fst h] at ok
  obtain ⟨lists, hlists, rfl⟩ := exists_of_map_eq_ok ok
  have hdue := (forall₂_of_mapM_eq_ok hlists).imp fun start paths hrun =>
    areDue_of_analyzeFrom Scratch.tidy_fresh
      (mem_startpoints_name.mp (List.mem_map_of_mem hrun.1)) hrun.2
  have hnodup : g.timingView.startpoints.Nodup :=
    (g.startpoints_name_pairwise.imp String.ne_of_lt).of_map _ fun _ _ hne h => hne (h ▸ rfl)
  have hends := ends_flatten hnodup hdue
  refine ⟨hends.1, fun s e => (hends.2 _).trans ?_⟩
  rw [← mem_startpoints_name, List.mem_map]
  constructor
  · intro hx
    obtain ⟨start, hstart, e', hdue, hx⟩ := hx
    obtain ⟨rfl, rfl⟩ : s = _ ∧ e = e' := by simpa using hx
    exact ⟨⟨start, hstart, rfl⟩, hdue⟩
  · intro hx
    obtain ⟨⟨start, hstart, rfl⟩, hdue⟩ := hx
    exact ⟨start, hstart, e, hdue, rfl⟩

/-- A query reports exactly the paths that are due from its startpoint, whatever queries ran before.
Without loops in its region these are the paths to all reached endpoints. The query for all
startpoints reports the paths of each in name order, with no pair of ends lost or repeated. -/
theorem timing_complete (g : Netlist α) {marks : Scratch α g.internedSize}
    (hmarks : g.timingView.Leftover marks) :
    (∀ start paths, (g.timingView.analyzeFrom marks start).1 = .ok paths →
      g.IsStartpoint (g.timingView.name start) →
        g.AreDue (g.timingView.name start) paths ∧
        ((∀ c, ¬ g.IsEndpoint c → g.Reaches (g.timingView.name start) c → ¬ g.Reaches c c) →
          ∀ e, g.IsEndpoint e → g.Reaches (g.timingView.name start) e →
            (paths.map TimingPath.ends).count (some (g.timingView.name start), some e) = 1)) ∧
    (∀ start, ¬ g.IsStartpoint (g.timingView.name start) →
      (g.timingView.analyzeFrom marks start).1 = .ok []) ∧
    (g.timingView.startpoints.map g.timingView.name).Pairwise (· < ·) ∧
    (∀ s, s ∈ g.timingView.startpoints.map g.timingView.name ↔ g.IsStartpoint s) ∧
    (g.timingView.analyzeAll marks).1 = List.flatten <$>
      g.timingView.startpoints.mapM (fun start => (g.timingView.analyzeFrom marks start).1) ∧
    ∀ paths, (g.timingView.analyzeAll marks).1 = .ok paths →
      (paths.map TimingPath.ends).Nodup ∧
      ∀ s e, (some s, some e) ∈ paths.map TimingPath.ends ↔
        g.IsStartpoint s ∧ g.PathDue s e := by
  have htidy := hmarks.tidy
  refine ⟨fun start paths ok hstart => ?_, fun start hstart => ?_, g.startpoints_name_pairwise,
    fun s => mem_startpoints_name, ?_, fun paths ok => ends_of_analyzeAll htidy ok⟩
  · have hdue := areDue_of_analyzeFrom htidy hstart ok
    refine ⟨hdue, fun hloops e he hreach => ?_⟩
    refine List.count_eq_one_of_mem hdue.ends.1 ((hdue.ends.2 _).mpr ⟨e, ⟨he, hreach, ?_⟩, rfl⟩)
    exact fun ⟨c, hc, hsc, hcc, _⟩ => hloops c hc hsc hcc
  · rw [TimingView.analyzeFrom_of_not_startpoint htidy ((isStartpoint_iff start).not.mpr hstart)]
  · rw [TimingView.analyzeAll_fst htidy]
    simp only [htidy.analyzeFrom_eq]

/-- A register that a gate feeds back to it. The gate also drives an output, and a second one
through a gate that feeds itself. -/
def latched : Netlist Int :=
  let node (name : String) (kind : NodeKind) (delay : Int) : Node Int :=
    ⟨name, kind, none, none, some delay, none, 0⟩
  let g := [node "r" .Reg 1, node "x" .Operator 2, node "o" .Output 0, node "l" .Operator 3,
    node "q" .Output 0].foldl register .empty
  [("r", "x"), ("x", "r"), ("x", "o"), ("x", "l"), ("l", "l"), ("l", "q")].foldl
    (fun g edge => g.connect edge.1 edge.2) g

/-- No path is due to the output behind the loop. -/
theorem timing_complete_latched :
    latched.timingView.Leftover (latched.timingView.analyzeAll .fresh).2 ∧
      ∃ (r : Fin latched.internedSize) (paths : List (TimingPath Int)),
        (latched.timingView.analyzeFrom (latched.timingView.analyzeAll .fresh).2 r).1 = .ok paths ∧
          paths.map (·.nodes) = [["r", "x", "r"], ["r", "x", "o"]] ∧
          latched.AreDue (latched.timingView.name r) paths := by
  have hmarks : latched.timingView.Leftover (latched.timingView.analyzeAll .fresh).2 :=
    .analyzeAll .fresh
  have ok : (latched.timingView.analyzeFrom (latched.timingView.analyzeAll .fresh).2
      ⟨3, by decide +kernel⟩).1 = .ok [⟨"r", "r", ["r", "x", "r"], 4, .RegToReg⟩,
        ⟨"r", "o", ["r", "x", "o"], 3, .RegToOut⟩] := by decide +kernel
  have hstart : latched.IsStartpoint (latched.timingView.name ⟨3, by decide +kernel⟩) := by
    decide +kernel
  exact ⟨hmarks, _, _, ok, rfl, ((latched.timing_complete hmarks).1 _ _ ok hstart).1⟩

end Netlist

end Presynth
