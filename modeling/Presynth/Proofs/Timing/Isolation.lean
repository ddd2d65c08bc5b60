import Presynth.Proofs.Timing.Query
/-!
# Queries do not see each other

Whatever a query writes, it writes to recorded places, also where it fails midway. So the marks that
it leaves are tidy, the next query clears all of them, and finds what it would find on fresh marks.

Main statements: `Leftover.tidy` (what queries leave is tidy), `Scratch.Tidy.analyzeFrom_eq` (on
tidy marks a query is one on fresh marks), `analyzeAll_fst` (the query for all startpoints returns
what the queries for each of them return) and `Netlist.answers_fresh` (in a sequence of queries each
one answers as if it were alone).
-/

namespace Presynth

variable {α : Type} {n : Nat}

namespace TimingView

/-! ### Writing to recorded places -/

/-- Marks are changed only where something was recorded, so that all of them are found again when
the marks are cleared. -/
theorem followEdges_tidy {vs : List (Fin n)} {f : Front α n} (h : f.scratch.Tidy)
    (hvs : ∀ v ∈ vs, .signal v ∈ f.scratch.touched) : (followEdges vs f).scratch.Tidy := by
  induction vs generalizing f with
  | nil => exact h
  | cons v vs ih =>
      rw [followEdges_cons]
      refine ih (h.modify (hvs v List.mem_cons_self) _) fun u hu => ?_
      rw [Scratch.touched_followEdge]
      exact hvs u (List.mem_cons_of_mem _ hu)

section Arrivals

variable [Add α] [Sub α] [LT α] [DecidableLT α] {view : TimingView α n} {a : Arrival α n}

theorem relaxAll_tidy {vs : List (Fin n)} {s : Scratch α n} (h : s.Tidy)
    (hvs : ∀ v ∈ vs, .signal v ∈ s.touched) : (view.relaxAll a vs s).2.Tidy := by
  induction vs generalizing s with
  | nil => exact h
  | cons u vs ih =>
      cases hd : view.delay u with
      | error e =>
          rw [relaxAll_cons_of_error hd]
          exact h
      | ok d =>
          rw [relaxAll_cons_of_ok hd]
          refine ih (h.modify (hvs u List.mem_cons_self) _) fun v hv => ?_
          rw [Scratch.touched_setArrival]
          exact hvs v (List.mem_cons_of_mem _ hv)

@[simp] theorem expand_touched (vs : List (Fin n)) (f : Front α n) :
    (view.expand a vs f).2.scratch.touched = f.scratch.touched := by
  induction vs generalizing f with
  | nil => rfl
  | cons u vs ih =>
      cases hd : view.delay u with
      | error e => rw [expand_cons_of_error hd]
      | ok d => rw [expand_cons_of_ok hd, ih, followEdges_touched, Scratch.touched_setArrival]

/-- Expanding keeps marks tidy, also up to a missing delay. -/
theorem expand_tidy {vs : List (Fin n)} {f : Front α n} (h : f.scratch.Tidy)
    (hvs : ∀ v ∈ vs, .signal v ∈ f.scratch.touched) : (view.expand a vs f).2.scratch.Tidy := by
  induction vs generalizing f with
  | nil => exact h
  | cons u vs ih =>
      have hu := hvs u List.mem_cons_self
      cases hd : view.delay u with
      | error e =>
          rw [expand_cons_of_error hd]
          exact h
      | ok d =>
          rw [expand_cons_of_ok hd]
          refine ih ?_ fun v hv => ?_
          · refine followEdges_tidy (h.modify hu _) fun v hv => ?_
            rw [Scratch.touched_setArrival, List.mem_singleton.mp hv]
            exact hu
          · rw [followEdges_touched, Scratch.touched_setArrival]
            exact hvs v (List.mem_cons_of_mem _ hv)

end Arrivals

variable {view : TimingView α n} {start : Fin n} {d : α}

/-! ### One query -/

/-- What is reached is recorded when the region is collected. -/
theorem IsRegion.mem_touched {region : List (Fin n)} (hr : view.IsRegion start region) {v : Fin n}
    (hv : view.Reaches start v) :
    .signal v ∈ (view.collectRegion .fresh start : Scratch α n).touched :=
  hr.tidy.mem_touched ((hr.inRegion v).mpr ((hr.mem_iff v).mpr hv))

variable [Zero α] [Add α]

theorem launched_touched :
    (view.launched start d).touched = (view.collectRegion .fresh start).touched := by
  rw [launched, Scratch.touched_setArrival, Scratch.touched_setArrival]

/-- The departure from the start leaves its arrival at the launch, which is recorded from the
beginning. -/
theorem IsRegion.launched_tidy {region : List (Fin n)} (hr : view.IsRegion start region) :
    (view.launched start d).Tidy := by
  refine (hr.tidy.modify hr.launch _).modify ?_ _
  rw [Scratch.touched_modify]
  exact hr.launch

variable [Sub α] [LT α] [DecidableLT α]

theorem Sweeping.touched {done : List (Fin n)} {f : Front α n}
    (h : Sweeping view start d done f) :
    f.scratch.touched = (view.collectRegion .fresh start).touched := by
  induction h with
  | launch ok => rw [TimingView.launch, expand_touched, launched_touched]
  | take before next ok ih =>
      rw [TimingView.take, expand_touched]
      exact ih

/-- Taking a ready signal keeps marks tidy, also up to a missing delay. -/
theorem Sweeping.take_tidy {region done ready : List (Fin n)} {f : Front α n} {u : Fin n}
    (h : Sweeping view start d done f) (hr : view.IsRegion start region)
    (next : f.ready = u :: ready) (ht : f.scratch.Tidy) : (view.take f u ready).2.scratch.Tidy := by
  refine expand_tidy ht fun v hv => ?_
  obtain ⟨hpass, hf⟩ := view.mem_onward.mp hv
  have hu : view.Reaches start u := (hr.mem_iff u).mp ((h.swept hr).subset (by simp [next]))
  have hmem := hr.mem_touched (hu.onward hpass hf)
  rw [← h.touched] at hmem
  exact hmem

/-- All that a sweep touches is in the region, so it was recorded when the region was collected. -/
theorem Sweeping.tidy {region done : List (Fin n)} {f : Front α n}
    (h : Sweeping view start d done f) (hr : view.IsRegion start region) : f.scratch.Tidy := by
  induction h with
  | launch ok =>
      refine expand_tidy hr.launched_tidy fun v hv => ?_
      rw [launched_touched]
      exact hr.mem_touched (Reaches.of_feeds hv)
  | take before next ok ih => exact before.take_tidy hr next ih

/-- Whatever the outcome of a query is, it leaves tidy marks. -/
theorem Outcome.tidy {r : Except (TimingError α) (List (TimingPath α)) × Scratch α n}
    (h : Outcome view start r) : r.2.Tidy := by
  obtain ⟨region, hr⟩ := exists_isRegion view start
  cases h with
  | noLaunch h => exact hr.tidy.modify hr.launch _
  | noDeparture h =>
      refine relaxAll_tidy hr.launched_tidy fun v hv => ?_
      rw [launched_touched]
      exact hr.mem_touched (Reaches.of_feeds hv)
  | noStep before next h => exact before.take_tidy hr next (before.tidy hr)
  | paths delay sweeping ended => exact sweeping.tidy hr

/-- Whatever an earlier query has left, clearing takes it away, and a query begins with fresh marks.
-/
theorem analyzeFrom_of_startpoint {s : Scratch α n} (h : s.Tidy)
    (hstart : view.isStartpoint start = true) :
    view.analyzeFrom s start = view.launchFrom (view.collectRegion .fresh start) start := by
  rw [analyzeFrom, if_pos hstart, h.reset_eq]

theorem analyzeFrom_of_not_startpoint {s : Scratch α n} (h : s.Tidy)
    (hstart : ¬ view.isStartpoint start = true) : view.analyzeFrom s start = (.ok [], .fresh) := by
  rw [analyzeFrom, if_neg hstart, h.reset_eq]

end TimingView

/-- On tidy marks a query is one on fresh marks. -/
theorem Scratch.Tidy.analyzeFrom_eq [Zero α] [Add α] [Sub α] [LT α] [DecidableLT α]
    {s : Scratch α n} (h : s.Tidy) (view : TimingView α n) (start : Fin n) :
    view.analyzeFrom s start = view.analyzeFrom .fresh start := by
  unfold TimingView.analyzeFrom
  rw [h.reset_eq, tidy_fresh.reset_eq]

namespace TimingView

variable [Zero α] [Add α] [Sub α] [LT α] [DecidableLT α]
variable {view : TimingView α n} {start : Fin n}

theorem tidy_analyzeFrom {s : Scratch α n} (h : s.Tidy) (view : TimingView α n) (start : Fin n) :
    (view.analyzeFrom s start).2.Tidy := by
  by_cases hstart : view.isStartpoint start = true
  · rw [analyzeFrom_of_startpoint h hstart]
    exact (outcome_launchFrom view start).tidy
  · rw [analyzeFrom_of_not_startpoint h hstart]
    exact Scratch.tidy_fresh

/-! ### Sequences of queries -/

/-- Queries for several startpoints return the paths of each on fresh marks, or the first
failure. -/
theorem analyzeEach_fst {s : Scratch α n} (h : s.Tidy) (starts : List (Fin n)) :
    (view.analyzeEach starts s).1 =
      List.flatten <$> starts.mapM fun start => (view.analyzeFrom .fresh start).1 := by
  induction starts generalizing s with
  | nil => rfl
  | cons start starts ih =>
      rw [analyzeEach, List.mapM_cons, ← h.analyzeFrom_eq view start]
      have htidy := tidy_analyzeFrom h view start
      cases hfrom : view.analyzeFrom s start with
      | mk result s' =>
          rw [hfrom] at htidy
          cases result with
          | error e => rfl
          | ok paths =>
              have hrest := ih htidy
              dsimp only
              cases heach : view.analyzeEach starts s' with
              | mk result' s'' =>
                  rw [heach] at hrest
                  cases hmap : starts.mapM fun start => (view.analyzeFrom .fresh start).1 with
                  | error e => rw [hmap] at hrest; cases hrest; rfl
                  | ok lists => rw [hmap] at hrest; cases hrest; rfl

/-- Between the queries of a series nothing is cleared but by the queries themselves. -/
theorem tidy_analyzeEach {s : Scratch α n} (h : s.Tidy) (starts : List (Fin n)) :
    (view.analyzeEach starts s).2.Tidy := by
  induction starts generalizing s with
  | nil => exact Scratch.tidy_reset h
  | cons start starts ih =>
      rw [analyzeEach]
      have htidy := tidy_analyzeFrom h view start
      cases hfrom : view.analyzeFrom s start with
      | mk result s' =>
          rw [hfrom] at htidy
          cases result with
          | error e => exact htidy
          | ok paths =>
              have hrest := ih htidy
              dsimp only
              -- whether the rest answers or not, what it leaves behind is tidy
              cases heach : view.analyzeEach starts s' with
              | mk result' s'' =>
                  rw [heach] at hrest
                  cases result' with
                  | error e => exact hrest
                  | ok more => exact hrest

/-- The marks that queries, one after the other, leave on fresh ones. -/
inductive Leftover (view : TimingView α n) : Scratch α n → Prop where
  | fresh : Leftover view .fresh
  | analyzeFrom {s : Scratch α n} (before : Leftover view s) (start : Fin n) :
      Leftover view (view.analyzeFrom s start).2
  | analyzeAll {s : Scratch α n} (before : Leftover view s) :
      Leftover view (view.analyzeAll s).2

theorem Leftover.tidy {s : Scratch α n} (h : Leftover view s) : s.Tidy := by
  induction h with
  | fresh => exact Scratch.tidy_fresh
  | analyzeFrom _ start ih => exact tidy_analyzeFrom ih view start
  | analyzeAll _ ih => exact tidy_analyzeEach ih view.startpoints

/-- The query for all startpoints returns what the queries for each return on fresh marks. -/
theorem analyzeAll_fst {s : Scratch α n} (h : s.Tidy) :
    (view.analyzeAll s).1 =
      List.flatten <$> view.startpoints.mapM fun start => (view.analyzeFrom .fresh start).1 :=
  analyzeEach_fst h view.startpoints

/-- A request for paths. -/
inductive Query (n : Nat) where
  /-- The paths from one signal. -/
  | single (start : Fin n)
  /-- The paths from all startpoints. -/
  | all
  deriving DecidableEq, Repr

/-- What a query answers on the marks `s`, and the marks that it leaves. -/
def answer (view : TimingView α n) :
    Query n → Scratch α n → Except (TimingError α) (List (TimingPath α)) × Scratch α n
  | .single start, s => view.analyzeFrom s start
  | .all, s => view.analyzeAll s

/-- What queries answer one after the other, each on the marks that those before it left, also where
they failed. -/
def answers (view : TimingView α n) :
    List (Query n) → Scratch α n → List (Except (TimingError α) (List (TimingPath α)))
  | [], _ => []
  | q :: queries, s => (view.answer q s).1 :: view.answers queries (view.answer q s).2

theorem tidy_answer {s : Scratch α n} (h : s.Tidy) (q : Query n) : (view.answer q s).2.Tidy := by
  cases q with
  | single start => exact tidy_analyzeFrom h view start
  | all => exact tidy_analyzeEach h view.startpoints

/-- On tidy marks a query answers as on fresh ones. -/
theorem answer_fst {s : Scratch α n} (h : s.Tidy) (q : Query n) :
    (view.answer q s).1 = (view.answer q .fresh).1 := by
  cases q with
  | single start => exact congrArg Prod.fst (h.analyzeFrom_eq view start)
  | all => exact (analyzeAll_fst h).trans (analyzeAll_fst Scratch.tidy_fresh).symm

/-- Every query of a series is answered as the first one would be. -/
theorem answers_of_tidy {s : Scratch α n} (h : s.Tidy) (queries : List (Query n)) :
    view.answers queries s = queries.map fun q => (view.answer q .fresh).1 := by
  induction queries generalizing s with
  | nil => rfl
  | cons q queries ih => rw [answers, ih (tidy_answer h q), answer_fst h q, List.map_cons]

/-- A query for a startpoint that returns paths has swept the whole region. -/
theorem exists_sweep_of_analyzeFrom {s : Scratch α n} {paths : List (TimingPath α)} (h : s.Tidy)
    (hstart : view.isStartpoint start = true) (ok : (view.analyzeFrom s start).1 = .ok paths) :
    ∃ d done f, view.delay start = .ok d ∧ Sweeping view start d done f ∧ f.ready = [] ∧
      paths = f.reached.map fun v => view.pathOf start v (arrivalOf f v) := by
  have hout := outcome_launchFrom view start
  rw [← analyzeFrom_of_startpoint h hstart] at hout
  cases hfrom : view.analyzeFrom s start with
  | mk result s' =>
      rw [hfrom] at hout ok
      obtain rfl : result = .ok paths := ok
      exact hout.of_ok

end TimingView

/-- In every sequence of queries on one set of marks, each query answers what it answers on marks of
its own, whatever was asked before it and whether that failed. -/
theorem Netlist.answers_fresh [Zero α] [Add α] [Sub α] [LT α] [DecidableLT α] (g : Netlist α)
    (queries : List (TimingView.Query g.internedSize)) :
    g.timingView.answers queries .fresh =
      queries.map fun q => (g.timingView.answer q .fresh).1 :=
  TimingView.answers_of_tidy Scratch.tidy_fresh queries

/-- A register that feeds something unregistered. -/
def Netlist.dangling : Netlist Int :=
  (register .empty ⟨"r", .Reg, none, none, some 1, none, 0⟩).connect "r" "ghost"

/-- A query that fails does leave marks. -/
example :
    let r : Fin Netlist.dangling.internedSize := ⟨1, by decide +kernel⟩
    let after := Netlist.dangling.timingView.analyzeFrom .fresh r
    after.1 = .error (.unknownNode "ghost") ∧ after.2 ≠ .fresh ∧
      Netlist.dangling.timingView.answers [.single r, .all, .single r] .fresh =
        List.replicate 3 (.error (.unknownNode "ghost")) := by
  decide +kernel

end Presynth
