import Presynth.Proofs.Timing.Isolation
/-!
# The delays that queries read

Queries read the delays of startpoints and of signals that something feeds, and no others. So they
give the same answers whatever the other delays are, and none fails where all that are read are
there.

Main statements: `TimingView.answer_withDelays` (no other delay matters) and `TimingView.answer_ok`
(where the delays that are read are there, every query answers).
-/

namespace Presynth

variable {α : Type} {n : Nat}

theorem exists_mapM_eq_ok {ε β γ : Type} {f : β → Except ε γ} {l : List β}
    (h : ∀ b ∈ l, ∃ c, f b = .ok c) : ∃ r, l.mapM f = .ok r := by
  induction l with
  | nil => exact ⟨[], rfl⟩
  | cons b l ih =>
      obtain ⟨c, hc⟩ := h b List.mem_cons_self
      obtain ⟨r, hr⟩ := ih fun b' hb' => h b' (List.mem_cons_of_mem _ hb')
      refine ⟨c :: r, ?_⟩
      rw [List.mapM_cons, hc, hr]
      rfl

namespace TimingView

/-- Do queries read the delay of this signal? -/
def Reads (view : TimingView α n) (i : Fin n) : Prop :=
  view.isStartpoint i = true ∨ ∃ u, view.Feeds u i

/-- The same signals with other delays. -/
def withDelays (view : TimingView α n) (delays : Vector (Option (Option α)) n) : TimingView α n :=
  { view with delays := delays }

/-- These delays are those of the view wherever queries read them. -/
def AgreesOnReads (view : TimingView α n) (delays : Vector (Option (Option α)) n) : Prop :=
  ∀ i, view.Reads i → delays.get i = view.delays.get i

variable {view : TimingView α n} {delays : Vector (Option (Option α)) n}

/-! ### Other delays -/

theorem AgreesOnReads.delay_eq (h : view.AgreesOnReads delays) {i : Fin n} (hi : view.Reads i) :
    (view.withDelays delays).delay i = view.delay i := by
  unfold delay
  rw [show (view.withDelays delays).delays.get i = view.delays.get i from h i hi]
  rfl

/-- Regions are collected without a look at delays. -/
theorem searchRegion_withDelays (steps : Nat) (s : Scratch α n) (stack : List (Fin n)) :
    (view.withDelays delays).searchRegion steps s stack = view.searchRegion steps s stack := by
  induction steps generalizing s stack with
  | zero => rfl
  | succ steps ih =>
      cases stack with
      | nil => rfl
      | cons u stack =>
          rw [searchRegion, searchRegion]
          simp only [ih]
          rfl

theorem collectRegion_withDelays (s : Scratch α n) (start : Fin n) :
    (view.withDelays delays).collectRegion s start = view.collectRegion s start :=
  searchRegion_withDelays n _ _

/-- Following edges makes no other signals ready than their ends. -/
theorem mem_ready_followEdges {vs : List (Fin n)} {f : Front α n} {v : Fin n}
    (hv : v ∈ (followEdges vs f).ready) : v ∈ f.ready ∨ v ∈ vs := by
  induction vs generalizing f with
  | nil => exact .inl hv
  | cons u vs ih =>
      rw [followEdges_cons] at hv
      rcases ih hv with hv | hv
      · dsimp only at hv
        split at hv
        · rcases List.mem_append.mp hv with hv | hv
          · exact .inl hv
          · exact .inr (List.mem_cons.mpr (.inl (List.mem_singleton.mp hv)))
        · exact .inl hv
      · exact .inr (List.mem_cons_of_mem _ hv)

/-- The delay of an endpoint is read when a path to it is closed. -/
theorem pathsTo_withDelays [Zero α] [Add α] (h : view.AgreesOnReads delays) (start : Fin n)
    {stops : List (Fin n)} (hstops : ∀ v ∈ stops, view.Reads v) (s : Scratch α n) :
    (view.withDelays delays).pathsTo start stops s = view.pathsTo start stops s := by
  induction stops generalizing s with
  | nil => rfl
  | cons v stops ih =>
      have hrest := ih fun w hw => hstops w (List.mem_cons_of_mem _ hw)
      rw [pathsTo, pathsTo, finish, finish, h.delay_eq (hstops v List.mem_cons_self)]
      simp only [hrest]
      rfl

section Arrivals

variable [Add α] [Sub α] [LT α] [DecidableLT α]

theorem relax_withDelays (h : view.AgreesOnReads delays) (s : Scratch α n) {v : Fin n}
    (hv : view.Reads v) (a : Arrival α n) :
    (view.withDelays delays).relax s v a = view.relax s v a := by
  rw [relax, relax, h.delay_eq hv]

theorem relaxAll_withDelays (h : view.AgreesOnReads delays) {vs : List (Fin n)}
    (hvs : ∀ v ∈ vs, view.Reads v) (a : Arrival α n) (s : Scratch α n) :
    (view.withDelays delays).relaxAll a vs s = view.relaxAll a vs s := by
  induction vs generalizing s with
  | nil => rfl
  | cons v vs ih =>
      rw [relaxAll, relaxAll, relax_withDelays h s (hvs v List.mem_cons_self)]
      cases view.relax s v a with
      | error e => rfl
      | ok s' => exact ih (fun w hw => hvs w (List.mem_cons_of_mem _ hw)) s'

theorem expand_withDelays (h : view.AgreesOnReads delays) {vs : List (Fin n)}
    (hvs : ∀ v ∈ vs, view.Reads v) (a : Arrival α n) (f : Front α n) :
    (view.withDelays delays).expand a vs f = view.expand a vs f := by
  induction vs generalizing f with
  | nil => rfl
  | cons v vs ih =>
      rw [expand, expand, relax_withDelays h f.scratch (hvs v List.mem_cons_self)]
      cases view.relax f.scratch v a with
      | error e => rfl
      | ok s => exact ih (fun w hw => hvs w (List.mem_cons_of_mem _ hw)) _

/-- Expanding makes no other signals ready than those it offers to. -/
theorem mem_ready_expand {vs : List (Fin n)} {a : Arrival α n} {f : Front α n} {v : Fin n}
    (hv : v ∈ (view.expand a vs f).2.ready) : v ∈ f.ready ∨ v ∈ vs := by
  induction vs generalizing f with
  | nil => exact .inl hv
  | cons u vs ih =>
      cases hd : view.delay u with
      | error e =>
          rw [expand_cons_of_error hd] at hv
          exact .inl hv
      | ok d =>
          rw [expand_cons_of_ok hd] at hv
          rcases ih hv with hv | hv
          · rcases mem_ready_followEdges hv with hv | hv
            · exact .inl hv
            · exact .inr (List.mem_cons.mpr (.inl (List.mem_singleton.mp hv)))
          · exact .inr (List.mem_cons_of_mem _ hv)

/-- All offers are accepted where every signal has a delay. -/
theorem relaxAll_ok {vs : List (Fin n)} (hvs : ∀ v ∈ vs, ∃ d, view.delay v = .ok d)
    (a : Arrival α n) (s : Scratch α n) : (view.relaxAll a vs s).1 = .ok () := by
  induction vs generalizing s with
  | nil => rfl
  | cons v vs ih =>
      obtain ⟨d, hd⟩ := hvs v List.mem_cons_self
      rw [relaxAll_cons_of_ok hd]
      exact ih (fun w hw => hvs w (List.mem_cons_of_mem _ hw)) _

variable [Zero α]

theorem take_withDelays (h : view.AgreesOnReads delays) (f : Front α n) (u : Fin n)
    (ready : List (Fin n)) : (view.withDelays delays).take f u ready = view.take f u ready :=
  expand_withDelays h (fun _ hv => .inr ⟨u, (view.mem_onward.mp hv).2⟩) _ _

/-- A sweep reads the delays of signals that are fed, and no others. -/
theorem sweep_withDelays (h : view.AgreesOnReads delays) (steps : Nat) (f : Front α n) :
    (view.withDelays delays).sweep steps f = view.sweep steps f := by
  induction steps generalizing f with
  | zero => rfl
  | succ steps ih =>
      cases hready : f.ready with
      | nil => rw [sweep_of_ready_nil hready, sweep_of_ready_nil hready]
      | cons u ready =>
          have htake := take_withDelays h f u ready
          cases hok : (view.take f u ready).1 with
          | error e =>
              rw [sweep_succ_of_error hready (htake ▸ hok), sweep_succ_of_error hready hok, htake]
          | ok _ =>
              rw [sweep_succ_of_ok hready (htake ▸ hok), sweep_succ_of_ok hready hok, htake, ih]

/-- What a sweep reaches is read. -/
theorem reads_of_mem_reached {steps : Nat} {f : Front α n}
    (hready : ∀ v ∈ f.ready, view.Reads v) (hreached : ∀ v ∈ f.reached, view.Reads v)
    (ok : (view.sweep steps f).1 = .ok ()) :
    ∀ v ∈ (view.sweep steps f).2.reached, view.Reads v := by
  -- on the steps; what becomes ready was fed, so its delay was read by the relaxation
  induction steps generalizing f with
  | zero => exact hreached
  | succ steps ih =>
      cases hnext : f.ready with
      | nil =>
          rw [sweep_of_ready_nil hnext]
          exact hreached
      | cons u ready =>
          cases hok : (view.take f u ready).1 with
          | error e =>
              rw [sweep_succ_of_error hnext hok] at ok
              cases ok
          | ok _ =>
              rw [sweep_succ_of_ok hnext hok] at ok ⊢
              rw [hnext] at hready
              refine ih (fun v hv => ?_) (fun v hv => ?_) ok
              · rcases mem_ready_expand hv with hv | hv
                · exact hready v (List.mem_cons_of_mem _ hv)
                · exact .inr ⟨u, (view.mem_onward.mp hv).2⟩
              · rw [take, expand_reached hok, taken] at hv
                dsimp only at hv
                split at hv
                · rcases List.mem_append.mp hv with hv | hv
                  · exact hreached v hv
                  · exact hready v (List.mem_cons.mpr (.inl (List.mem_singleton.mp hv)))
                · exact hreached v hv

/-- All delays of a query are those of its start, of what the sweep takes, and of what it reaches.
-/
theorem launchFrom_withDelays (h : view.AgreesOnReads delays) {start : Fin n}
    (hstart : view.isStartpoint start = true) (s : Scratch α n) :
    (view.withDelays delays).launchFrom s start = view.launchFrom s start := by
  have hfanout : ∀ v ∈ view.fanout start, view.Reads v := fun v hv => .inr ⟨start, hv⟩
  rw [launchFrom, launchFrom, finish, finish, h.delay_eq (.inl hstart)]
  cases view.delay start with
  | error e => rfl
  | ok d =>
      dsimp only
      rw [show (view.withDelays delays).fanout start = view.fanout start from rfl,
        relaxAll_withDelays h hfanout]
      split
      · rfl
      · rename_i s' _
        -- the sweep is the same, so only the delays of what it has reached are left
        rw [sweep_withDelays h]
        split
        · rfl
        · rename_i f hsweep
          refine pathsTo_withDelays h start (fun v hv => ?_) f.scratch
          have hend := congrArg (fun r => r.2.reached) hsweep
          refine reads_of_mem_reached (fun w hw => ?_) (fun w hw => ?_)
            (congrArg Prod.fst hsweep) v (hend ▸ hv)
          · exact hfanout w ((mem_ready_followEdges hw).resolve_left List.not_mem_nil)
          · rw [followEdges_reached] at hw
            exact absurd hw List.not_mem_nil

theorem analyzeFrom_withDelays (h : view.AgreesOnReads delays) (s : Scratch α n)
    (start : Fin n) : (view.withDelays delays).analyzeFrom s start = view.analyzeFrom s start := by
  rw [analyzeFrom, analyzeFrom, collectRegion_withDelays]
  by_cases hstart : view.isStartpoint start = true
  · rw [if_pos hstart, launchFrom_withDelays h hstart]
    exact if_pos hstart
  · rw [if_neg hstart]
    exact if_neg hstart

theorem analyzeEach_withDelays (h : view.AgreesOnReads delays) (starts : List (Fin n))
    (s : Scratch α n) :
    (view.withDelays delays).analyzeEach starts s = view.analyzeEach starts s := by
  induction starts generalizing s with
  | nil => rfl
  | cons start starts ih =>
      rw [analyzeEach, analyzeEach, analyzeFrom_withDelays h]
      simp only [ih]

/-- Delays that are not read change no answer. -/
theorem answer_withDelays (h : view.AgreesOnReads delays) (q : Query n) (s : Scratch α n) :
    (view.withDelays delays).answer q s = view.answer q s := by
  cases q with
  | single start => exact analyzeFrom_withDelays h s start
  | all => exact analyzeEach_withDelays h view.startpoints s

/-! ### Missing delays -/

/-- A query for a startpoint fails on delays that are missing where they are read, and on no
others. -/
theorem analyzeFrom_ok {s : Scratch α n} (hs : s.Tidy)
    (h : ∀ i, view.Reads i → ∃ d, view.delay i = .ok d) (start : Fin n) :
    ∃ paths, (view.analyzeFrom s start).1 = .ok paths := by
  by_cases hstart : view.isStartpoint start = true
  · have hedge : ∀ u, ∀ v ∈ view.fanout u, ∃ d, view.delay v = .ok d :=
      fun u v hv => h v (.inr ⟨u, hv⟩)
    -- each way to fail is a delay that is not there
    have hout := outcome_launchFrom view start
    rw [analyzeFrom_of_startpoint hs hstart]
    generalize view.launchFrom _ start = r at hout
    cases hout with
    | noLaunch herr =>
        obtain ⟨d, hd⟩ := h start (.inl hstart)
        rw [hd] at herr
        cases herr
    | noDeparture herr =>
        rw [departed, relaxAll_ok (hedge start)] at herr
        cases herr
    | @noStep d done ready f u e before next herr =>
        rw [TimingView.take, expand_fst,
          relaxAll_ok fun v hv => hedge u v (view.mem_onward.mp hv).2] at herr
        cases herr
    | paths => exact ⟨_, rfl⟩
  · rw [analyzeFrom_of_not_startpoint hs hstart]
    exact ⟨[], rfl⟩

/-- Where all delays that are read are there, every query answers. -/
theorem answer_ok {s : Scratch α n} (hs : s.Tidy)
    (h : ∀ i, view.Reads i → ∃ d, view.delay i = .ok d) (q : Query n) :
    ∃ paths, (view.answer q s).1 = .ok paths := by
  cases q with
  | single start => exact analyzeFrom_ok hs h start
  | all =>
      obtain ⟨lists, hlists⟩ := exists_mapM_eq_ok (l := view.startpoints) fun start _ =>
        analyzeFrom_ok Scratch.tidy_fresh h start
      refine ⟨lists.flatten, (analyzeAll_fst hs).trans ?_⟩
      rw [hlists]
      rfl

end Arrivals

end TimingView

end Presynth
