import Presynth.Proofs.Timing.Annotation
import Presynth.Proofs.Timing.WorstPath
/-!
# Reported paths by their ends

With exact arithmetic, all that a report says of a path, but for the signals between its ends, is
decided by these: the names and the class of the path, and its delay, which is the greatest total
delay of a walk between them. So netlists with the same walks report paths of the same ends, and
compare in their delays as the delays of their signals do.

Main statements: `Netlist.isReport_of_timingPaths` (what is reported of a path),
`Netlist.SameWalks.ends_perm` (the same ends) and `Netlist.SameWalks.outline_eq` (longer delays).
-/

namespace Presynth

variable {α : Type}

/-- What is reported of a path, apart from its delay and the signals between its ends. -/
def TimingPath.outline (path : TimingPath α) :
    (Option String × Option String) × String × String × PathBoundary :=
  (path.ends, path.source, path.sink, path.boundary)

namespace Netlist

/-! ### Netlists with the same walks -/

/-- Two netlists have the same edges, in whatever order and number, and the same kinds by which
signals start and end paths. -/
structure SameWalks (g g' : Netlist α) : Prop where
  feeds : ∀ u v, g.Feeds u v ↔ g'.Feeds u v
  kind : ∀ v, g.timingKind? v = g'.timingKind? v

namespace SameWalks

variable {g g' : Netlist α} (h : g.SameWalks g')
include h

theorem symm : g'.SameWalks g := ⟨fun u v => (h.feeds u v).symm, fun v => (h.kind v).symm⟩

theorem neighbors_eq_nil_iff (v : String) : g.neighbors v = [] ↔ g'.neighbors v = [] := by
  rw [List.eq_nil_iff_forall_not_mem, List.eq_nil_iff_forall_not_mem]
  exact forall_congr' fun w => not_congr (h.feeds v w)

theorem isEndpoint_iff (v : String) : g.IsEndpoint v ↔ g'.IsEndpoint v := by
  rw [IsEndpoint, IsEndpoint, h.neighbors_eq_nil_iff, h.kind]

theorem isStartpoint_iff (s : String) : g.IsStartpoint s ↔ g'.IsStartpoint s := by
  rw [IsStartpoint, IsStartpoint, ne_eq, ne_eq, h.neighbors_eq_nil_iff, h.kind]

theorem feeds_eq : g.Feeds = g'.Feeds := by
  funext u v
  exact propext (h.feeds u v)

theorem isEndpoint_eq : g.IsEndpoint = g'.IsEndpoint := by
  funext v
  exact propext (h.isEndpoint_iff v)

theorem walk_iff {s e : String} {between : List String} :
    g.Walk s between e ↔ g'.Walk s between e := by
  rw [Netlist.Walk, Netlist.Walk, h.feeds_eq, h.isEndpoint_eq]

theorem pathDue_iff {s e : String} : g.PathDue s e ↔ g'.PathDue s e := by
  have hiff : ∀ g : Netlist α, g.PathDue s e ↔
      g.IsEndpoint e ∧ g.Reaches s e ∧ ¬ g.BehindLoop s e :=
    fun g => ⟨fun h => ⟨h.1, h.2, h.3⟩, fun h => ⟨h.1, h.2.1, h.2.2⟩⟩
  rw [hiff, hiff, Netlist.Reaches, Netlist.Reaches, Netlist.BehindLoop, Netlist.BehindLoop,
    h.feeds_eq, h.isEndpoint_eq]

end SameWalks

/-! ### Annotated netlists -/

/-- All signals of the fanout lists have delays. -/
def IsAnnotated (g : Netlist α) : Prop := ∀ name ∈ g.signals, ∃ d, g.delay? name = some d

instance (g : Netlist α) : Decidable g.IsAnnotated :=
  decidable_of_iff (∀ name ∈ g.signals, (g.delay? name).isSome) <| by
    simp only [IsAnnotated, Option.isSome_iff_exists]

/-- Where all signals of the fanout lists have delays, timing does not fail. -/
theorem IsAnnotated.timingPaths_ok [Zero α] [Add α] [Sub α] [LT α] [DecidableLT α] {g : Netlist α}
    (h : g.IsAnnotated) : ∃ paths, g.timingPaths = .ok paths :=
  TimingView.answer_ok (q := .all) Scratch.tidy_fresh fun _ hi =>
    (h _ (mem_signals_of_reads hi)).imp fun _ hd => delay_timingView_eq_ok_iff.mpr hd

/-- The signals of the fanout lists all have delays in both netlists, and none has a greater one in
the first. -/
def DelaysLE [LE α] (g g' : Netlist α) : Prop :=
  ∀ name ∈ g.signals, ∃ d d', g.delay? name = some d ∧ g'.delay? name = some d' ∧ d ≤ d'

instance [LE α] [DecidableLE α] (g g' : Netlist α) : Decidable (g.DelaysLE g') :=
  decidable_of_iff (∀ name ∈ g.signals, ∃ d ∈ g.delay? name, ∃ d' ∈ g'.delay? name, d ≤ d') <| by
    simp only [DelaysLE, Option.mem_def, exists_and_left]

theorem DelaysLE.exists_delays [LE α] {g g' : Netlist α} (h : g.DelaysLE g')
    {names : List String} {ds : List α} (hnames : ∀ name ∈ names, name ∈ g.signals)
    (hds : names.map g.delay? = ds.map some) :
    ∃ ds' : List α, names.map g'.delay? = ds'.map some ∧ List.Forall₂ (· ≤ ·) ds ds' := by
  induction names generalizing ds with
  | nil =>
      obtain rfl : ds = [] := List.map_eq_nil_iff.mp hds.symm
      exact ⟨[], rfl, .nil⟩
  | cons name names ih =>
      cases ds with
      | nil => exact absurd hds (by simp)
      | cons d ds =>
          obtain ⟨hd, hrest⟩ := List.cons_eq_cons.mp hds
          obtain ⟨ds', hds', hle⟩ := ih (fun v hv => hnames v (List.mem_cons_of_mem _ hv)) hrest
          obtain ⟨d₀, d', hd₀, hd', hdd'⟩ := h name (hnames name List.mem_cons_self)
          obtain rfl : d₀ = d := Option.some.inj (hd₀.symm.trans hd)
          refine ⟨d' :: ds', ?_, .cons hdd' hle⟩
          rw [List.map_cons, List.map_cons, hd', hds']

/-! ### What is reported of a path -/

/-- The total delays of the walks from one signal to another. -/
def walkDelays [Zero α] [Add α] (g : Netlist α) (s e : String) : Set α :=
  {t | ∃ (between : List String) (ds : List α), g.Walk s between e ∧
    (s :: between ++ [e]).map g.delay? = ds.map some ∧ ds.sum = t}

/-- What is reported of the paths from `s` to `e`. -/
def outlineOf (g : Netlist α) (s e : String) :
    (Option String × Option String) × String × String × PathBoundary :=
  ((some s, some e), logicalName s, logicalName e, .classify (g.timingKind? s) (g.timingKind? e))

theorem SameWalks.outlineOf_eq {g g' : Netlist α} (h : g.SameWalks g') (s e : String) :
    g.outlineOf s e = g'.outlineOf s e := by
  rw [outlineOf, outlineOf, h.kind, h.kind]

/-- This is what is reported of the paths from `s` to `e`: the longest of the walks between them. -/
structure IsReport [Zero α] [Add α] [LE α] (g : Netlist α) (s e : String) (path : TimingPath α) :
    Prop where
  outline : path.outline = g.outlineOf s e
  delay : IsGreatest (g.walkDelays s e) path.delay

theorem IsReport.ends [Zero α] [Add α] [LE α] {g : Netlist α} {s e : String} {path : TimingPath α}
    (h : g.IsReport s e path) : path.ends = (some s, some e) :=
  congrArg Prod.fst h.outline

variable [AddCommGroup α] [LinearOrder α] [IsOrderedAddMonoid α] {g g' : Netlist α}

/-- At the end of a sweep, the arrival at a settled signal is that of the longest walk there. -/
theorem isGreatest_arrival {start v : Fin g.internedSize} {d : α} {done : List (Fin _)}
    {f : TimingView.Front α g.internedSize} {a : Arrival α g.internedSize}
    (hsweep : TimingView.Sweeping g.timingView start d done f) (hready : f.ready = [])
    (hd : g.timingView.delay start = .ok d) (hsettled : g.timingView.Settled start v)
    (ha : f.scratch.arrival? v = some a) (harr : TimingView.Arrives g.timingView start d v a) :
    IsGreatest (g.walkDelays (g.timingView.name start) (g.timingView.name v)) a.time := by
  constructor
  · obtain ⟨l, ds, w, -, hds, htime⟩ := harr.exists_walk hd
    refine ⟨l.map g.timingView.name, ds, walk_name_iff.mpr w, ?_, ?_⟩
    · simpa using map_delay?_name hds
    · exact List.sum_eq_foldl.trans htime.symm
  · rintro t ⟨between, ds, walk, hds, rfl⟩
    -- a walk of names is one of signals, and none takes longer than the arrival that is kept
    obtain ⟨l, v', rfl, hv', w⟩ := exists_walk_of_name walk
    obtain rfl : v = v' := g.name_timingView_inj hv'
    obtain ⟨ds', a', hds', ha', hle⟩ := hsweep.sum_le hready hd w hsettled
    obtain rfl : a = a' := Option.some.inj (ha.symm.trans ha')
    have hnames := map_delay?_name hds'
    rw [List.map_append, List.map_cons] at hnames
    obtain rfl : ds = ds' :=
      List.map_injective_iff.mpr (Option.some_injective α) (hds.symm.trans hnames)
    exact hle

/-- Every path of an answer is a longest one between its ends. -/
theorem isReport_of_analyzeFrom {start : Fin g.internedSize} {paths : List (TimingPath α)}
    (ok : (g.timingView.analyzeFrom .fresh start).1 = .ok paths) {path : TimingPath α}
    (hpath : path ∈ paths) : ∃ e, g.IsReport (g.timingView.name start) e path := by
  by_cases hstart : g.timingView.isStartpoint start = true
  · obtain ⟨d, done, f, hd, hsweep, hready, rfl⟩ :=
      TimingView.exists_sweep_of_analyzeFrom Scratch.tidy_fresh hstart ok
    obtain ⟨v, hv, rfl⟩ := List.mem_map.mp hpath
    obtain ⟨a, ha, harr⟩ := hsweep.exists_arrives_of_reached hv
    have hsettled := ((hsweep.reached_of_ended hready).2 v |>.mp hv).2
    rw [TimingView.arrivalOf_eq ha]
    refine ⟨g.timingView.name v, ?_, isGreatest_arrival hsweep hready hd hsettled ha harr⟩
    rw [TimingPath.outline, harr.ends_pathOf hd, TimingView.source_pathOf,
      TimingView.sink_pathOf, outlineOf, ← kind_timingView, ← kind_timingView]
    rfl
  · rw [TimingView.analyzeFrom_of_not_startpoint Scratch.tidy_fresh hstart] at ok
    cases ok
    exact absurd hpath List.not_mem_nil

theorem isReport_of_timingPaths {paths : List (TimingPath α)} (ok : g.timingPaths = .ok paths)
    {path : TimingPath α} (hpath : path ∈ paths) : ∃ s e, g.IsReport s e path := by
  obtain ⟨start, list, hrun, hmem⟩ :=
    TimingView.exists_of_mem_analyzeAll Scratch.tidy_fresh ok hpath
  obtain ⟨e, he⟩ := isReport_of_analyzeFrom hrun hmem
  exact ⟨_, e, he⟩

/-- Paths are reported of the ends between which they are due. -/
theorem mem_ends_iff {paths : List (TimingPath α)} (ok : g.timingPaths = .ok paths)
    {x : Option String × Option String} : x ∈ paths.map TimingPath.ends ↔
      ∃ s e, x = (some s, some e) ∧ g.IsStartpoint s ∧ g.PathDue s e := by
  have hmem := (ends_of_analyzeAll Scratch.tidy_fresh ok).2
  constructor
  · intro hx
    obtain ⟨path, hpath, rfl⟩ := List.mem_map.mp hx
    obtain ⟨s, e, h⟩ := isReport_of_timingPaths ok hpath
    exact ⟨s, e, h.ends, (hmem s e).mp (h.ends ▸ hx)⟩
  · rintro ⟨s, e, rfl, hdue⟩
    exact (hmem s e).mpr hdue

/-! ### Comparing two netlists -/

/-- Where the walks are the same, the reported paths have the same ends, though maybe in another
order. -/
theorem SameWalks.ends_perm (h : g.SameWalks g') {paths paths' : List (TimingPath α)}
    (ok : g.timingPaths = .ok paths) (ok' : g'.timingPaths = .ok paths') :
    (paths.map TimingPath.ends).Perm (paths'.map TimingPath.ends) := by
  have hnodup := (ends_of_analyzeAll Scratch.tidy_fresh ok).1
  have hnodup' := (ends_of_analyzeAll Scratch.tidy_fresh ok').1
  refine (List.perm_ext_iff_of_nodup hnodup hnodup').mpr fun x => ?_
  rw [mem_ends_iff ok, mem_ends_iff ok']
  simp only [h.isStartpoint_iff, h.pathDue_iff]

/-- The longest walk takes no longer if no signal does: it need not be the longest one any more, but
the longest one takes no less. -/
theorem IsReport.delay_le {s e : String} {path path' : TimingPath α} (h : g.IsReport s e path)
    (h' : g'.IsReport s e path') (hsame : g.SameWalks g') (hle : g.DelaysLE g') :
    path.delay ≤ path'.delay := by
  obtain ⟨between, ds, walk, hds, hsum⟩ := h.delay.1
  obtain ⟨ds', hds', hall⟩ := hle.exists_delays (mem_signals_of_walk walk) hds
  calc path.delay = ds.sum := hsum.symm
    _ ≤ ds'.sum := hall.sum_le_sum
    _ ≤ path'.delay := h'.delay.2 ⟨between, ds', hsame.walk_iff.mp walk, hds', rfl⟩

/-- Of reported paths of the same ends the same is said, up to the delay, and none takes longer if
no signal does. -/
theorem SameWalks.outline_eq (h : g.SameWalks g') (hle : g.DelaysLE g')
    {paths paths' : List (TimingPath α)} (ok : g.timingPaths = .ok paths)
    (ok' : g'.timingPaths = .ok paths') {path path' : TimingPath α} (hpath : path ∈ paths)
    (hpath' : path' ∈ paths') (hends : path.ends = path'.ends) :
    path.outline = path'.outline ∧ path.delay ≤ path'.delay := by
  obtain ⟨s, e, hreport⟩ := isReport_of_timingPaths ok hpath
  obtain ⟨s', e', hreport'⟩ := isReport_of_timingPaths ok' hpath'
  obtain ⟨rfl, rfl⟩ : s = s' ∧ e = e' := by
    simpa [hreport.ends, hreport'.ends] using hends
  refine ⟨?_, hreport.delay_le hreport' h hle⟩
  rw [hreport.outline, hreport'.outline, h.outlineOf_eq]

end Netlist

end Presynth
