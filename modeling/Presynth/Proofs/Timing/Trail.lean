import Presynth.Proofs.Timing.Sweeping
/-!
# What arrivals are made of

Every arrival in a sweep is one along some walk: it holds the signals of the walk and the sum of
their delays, taken from left to right. This needs no law of arithmetic, so it holds of rounded
numbers as well.

Main statements: `Arrives.exists_walk` (an arrival read as a walk with its delays),
`Sweeping.arrives` (all arrivals of a sweep are such) and `Sweeping.exists_arrival` (what is taken
or ready has one).
-/

namespace Presynth

variable {α : Type} {n : Nat}

namespace TimingView

variable {view : TimingView α n} {start : Fin n} {d : α}

/-! ### Arrivals along walks -/

section Walks

variable [Zero α] [Add α]

/-- The arrivals at a signal along the walks from `start`, whose delay is `d`. -/
inductive Arrives (view : TimingView α n) (start : Fin n) (d : α) :
    Fin n → Arrival α n → Prop where
  /-- From the launch to what the start feeds. -/
  | fed {v : Fin n} {dv : α} (edge : view.Feeds start v) (delay : view.delay v = .ok dv) :
      Arrives view start d v (through (departure start d) v dv)
  /-- From a passed signal to what it feeds. -/
  | onward {u v : Fin n} {a : Arrival α n} {dv : α} (before : Arrives view start d u a)
      (pass : ¬ view.Stops u) (edge : view.Feeds u v) (delay : view.delay v = .ok dv) :
      Arrives view start d v (through a v dv)

/-- An arrival holds the signals of a walk, the last one first, and the sum of their delays from the
launch on. -/
theorem Arrives.exists_walk {v : Fin n} {a : Arrival α n} (h : Arrives view start d v a)
    (hd : view.delay start = .ok d) :
    ∃ (l : List (Fin n)) (ds : List α), view.Walk start l v ∧
      a.trail.reverse = start :: l ++ [v] ∧
      (start :: l ++ [v]).map view.delay = ds.map .ok ∧ a.time = ds.foldl (· + ·) 0 := by
  induction h with
  | @fed v dv edge delay =>
      exact ⟨[], [d, dv], Walk.nil_iff.mpr edge, rfl, by simp [hd, delay], rfl⟩
  | @onward u v a dv before pass edge delay ih =>
      obtain ⟨l, ds, w, htrail, hds, htime⟩ := ih
      refine ⟨l ++ [u], ds ++ [dv], Walk.append_singleton_iff.mpr ⟨w, pass, edge⟩, ?_, ?_, ?_⟩
      · rw [through, List.reverse_cons, htrail]
        simp
      · rw [← List.cons_append, List.map_append, hds, List.map_append]
        simp [delay]
      · rw [through, htime, List.foldl_append]
        rfl

theorem Arrives.head?_trail {v : Fin n} {a : Arrival α n} (h : Arrives view start d v a) :
    a.trail.head? = some v := by
  cases h with
  | fed => rfl
  | onward => rfl

/-- Before the edges of the start are followed, no signal of the region has an arrival. -/
theorem launched_arrival? {region : List (Fin n)} (hr : view.IsRegion start region) (v : Fin n) :
    (view.launched start d).arrival? v = none := by
  rw [launched, Scratch.arrival?_setArrival_launch, Scratch.arrival?_setArrival_launch]
  exact hr.arrival (.signal v)

end Walks

theorem arrivalOf_eq [Zero α] {f : Front α n} {u : Fin n} {a : Arrival α n}
    (h : f.scratch.arrival? u = some a) : arrivalOf f u = a := by
  rw [arrivalOf, h, Option.getD_some]

variable [Add α] [Sub α] [LT α] [DecidableLT α]

/-! ### Offers to one signal -/

theorem later_cases (known : Option (Arrival α n)) (a : Arrival α n) (v : Fin n) (d : α) :
    later known a v d = through a v d ∨ known = some (later known a v d) := by
  cases known with
  | none => exact Or.inl rfl
  | some k =>
      unfold later
      dsimp only
      split
      · exact Or.inl rfl
      · exact Or.inr rfl

/-- After some offers of one arrival to a signal, its arrival is the one offered or the one known
before. -/
theorem later_iterate (known : Option (Arrival α n)) (a : Arrival α n) (v : Fin n) (d : α)
    (m : Nat) :
    ∃ b, (fun known => some (later known a v d))^[m + 1] known = some b ∧
      (b = through a v d ∨ known = some b) := by
  induction m with
  | zero => exact ⟨_, rfl, later_cases known a v d⟩
  | succ m ih =>
      obtain ⟨b, hb, hcases⟩ := ih
      rw [Function.iterate_succ_apply', hb]
      refine ⟨_, rfl, ?_⟩
      rcases later_cases (some b) a v d with h | h
      · exact Or.inl h
      · rw [← Option.some.inj h]
        exact hcases

/-- A signal along whose edges an arrival was offered has an arrival, the one offered or the one it
had. -/
theorem expand_arrival_of_mem {vs : List (Fin n)} {f : Front α n} {a : Arrival α n}
    (ok : (view.expand a vs f).1 = .ok ()) {v : Fin n} (hv : v ∈ vs) :
    ∃ dv b, view.delay v = .ok dv ∧ (view.expand a vs f).2.scratch.arrival? v = some b ∧
      (b = through a v dv ∨ f.scratch.arrival? v = some b) := by
  obtain ⟨dv, hdv⟩ := delay_of_expand_ok ok hv
  obtain ⟨m, hm⟩ := Nat.exists_eq_succ_of_ne_zero (List.count_pos_iff.mpr hv).ne'
  obtain ⟨b, hb, hcases⟩ := later_iterate (f.scratch.arrival? v) a v dv m
  refine ⟨dv, b, hdv, ?_, hcases⟩
  rw [expand_arrival ok hdv, hm, hb]

/-! ### The arrivals of a sweep -/

variable [Zero α]

/-- What the start or a taken signal passes on to has an arrival. -/
theorem Sweeping.exists_arrival_of_edge {done : List (Fin n)} {f : Front α n}
    (h : Sweeping view start d done f) {v : Fin n}
    (hv : view.Feeds start v ∨ ∃ u ∈ done, v ∈ view.onward u) :
    ∃ a, f.scratch.arrival? v = some a := by
  induction h with
  | launch ok =>
      obtain ⟨_, b, _, hb, _⟩ := expand_arrival_of_mem ok (hv.resolve_right (by simp))
      exact ⟨b, hb⟩
  | @take done f u ready before next ok ih =>
      by_cases hu : v ∈ view.onward u
      · obtain ⟨_, b, _, hb, _⟩ := expand_arrival_of_mem ok hu
        exact ⟨b, hb⟩
      · rw [TimingView.take, expand_arrival_of_not_mem ok hu]
        refine ih (hv.imp_right fun hedge => ?_)
        obtain ⟨w, hw, hedge⟩ := hedge
        rcases List.mem_append.mp hw with hw | hw
        · exact ⟨w, hw, hedge⟩
        · exact absurd (List.mem_singleton.mp hw ▸ hedge) hu

/-- Whatever is taken or ready has an arrival. -/
theorem Sweeping.exists_arrival {region done : List (Fin n)} {f : Front α n}
    (h : Sweeping view start d done f) (hr : view.IsRegion start region) {v : Fin n}
    (hv : v ∈ done ++ f.ready) : ∃ a, f.scratch.arrival? v = some a := by
  have hs := h.swept hr
  refine h.exists_arrival_of_edge ?_
  rcases reaches_iff_last.mp ((hr.mem_iff v).mp (hs.subset hv)) with hf | ⟨u, hu, hpass, hf⟩
  · exact Or.inl hf
  · exact Or.inr ⟨u, hs.driver_mem hr hv hu hpass hf, view.mem_onward.mpr ⟨hpass, hf⟩⟩

/-- Every arrival of a sweep is one along a walk. -/
theorem Sweeping.arrives {region done : List (Fin n)} {f : Front α n}
    (h : Sweeping view start d done f) (hr : view.IsRegion start region) {v : Fin n}
    {a : Arrival α n} (ha : f.scratch.arrival? v = some a) : Arrives view start d v a := by
  induction h generalizing v a with
  | launch ok =>
      by_cases hv : v ∈ view.fanout start
      · obtain ⟨dv, b, hdv, hb, hcases⟩ := expand_arrival_of_mem ok hv
        obtain rfl : b = a := Option.some.inj (hb.symm.trans ha)
        rcases hcases with rfl | hold
        · exact .fed hv hdv
        · exact absurd hold (by simp [launched_arrival? hr])
      · rw [TimingView.launch, expand_arrival_of_not_mem ok hv, launched_arrival? hr] at ha
        exact absurd ha (by simp)
  | @take done f u ready before next ok ih =>
      -- only the arrivals at the edges of `u` are changed, to one through `u` or not at all
      by_cases hv : v ∈ view.onward u
      · obtain ⟨dv, b, hdv, hb, hcases⟩ := expand_arrival_of_mem ok hv
        obtain rfl : b = a := Option.some.inj (hb.symm.trans ha)
        rcases hcases with rfl | hold
        · obtain ⟨c, hc⟩ := before.exists_arrival hr (v := u) (by simp [next])
          obtain ⟨hpass, hf⟩ := view.mem_onward.mp hv
          rw [arrivalOf_eq hc]
          exact .onward (ih hc) hpass hf hdv
        · exact ih hold
      · rw [TimingView.take, expand_arrival_of_not_mem ok hv] at ha
        exact ih ha

end TimingView

end Presynth
