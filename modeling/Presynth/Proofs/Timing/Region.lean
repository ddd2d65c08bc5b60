import Mathlib.Data.List.Nodup
import Mathlib.Data.Fintype.EquivFin
import Presynth.Proofs.Timing.Marks
import Presynth.Proofs.Timing.Naming
/-!
# The region of a startpoint

The search that collects a region takes signals off a stack. It is described here as a relation
`Searching` between the signals seen so far, the marks and the stack, so that each fact about the
search is an induction over its steps. Every signal is put on the stack once at most, which is why
as many steps as there are signals empty the stack.

Main statement: `exists_isRegion`: the region is what is reached from the start, and the pending
edges of a signal are its edges from the start and from all passed signals of the region, repeated
edges repeated.
-/

namespace Presynth

variable {α : Type} {n : Nat}

namespace TimingView

variable {view : TimingView α n} {start : Fin n}

/-! ### Counting the edges of one fanout list -/

/-- An edge is counted in any case, but only the first one to a signal puts it on the stack. -/
theorem countEdges_cons (v : Fin n) (vs : List (Fin n)) (s : Scratch α n) (stack : List (Fin n)) :
    countEdges (v :: vs) s stack =
      if s.inRegion v then countEdges vs (s.countEdge v) stack
      else countEdges vs ((s.countEdge v).touch (.signal v)) (v :: stack) := by
  rw [countEdges, Scratch.inRegion_countEdge]

/-- Every entry of a list counts, repeated ones as often as they stand there. -/
theorem countEdges_pending (vs : List (Fin n)) (s : Scratch α n) (stack : List (Fin n))
    (v : Fin n) : (countEdges vs s stack).1.pending v = s.pending v + vs.count v := by
  induction vs generalizing s stack with
  | nil => simp [countEdges]
  | cons u vs ih =>
      have hcount : (u :: vs).count v = vs.count v + if u = v then 1 else 0 := by
        simp [List.count_cons]
      rw [countEdges_cons, hcount]
      split
      · rw [ih, Scratch.pending_countEdge]
        omega
      · rw [ih, Scratch.pending_touch, Scratch.pending_countEdge]
        omega

theorem countEdges_inRegion (vs : List (Fin n)) (s : Scratch α n) (stack : List (Fin n))
    (v : Fin n) :
    (countEdges vs s stack).1.inRegion v = true ↔ s.inRegion v = true ∨ v ∈ vs := by
  induction vs generalizing s stack with
  | nil => simp [countEdges]
  | cons u vs ih =>
      rw [countEdges_cons, List.mem_cons]
      split
      · rename_i hu
        rw [ih, Scratch.inRegion_countEdge]
        constructor
        · rintro (h | h)
          · exact Or.inl h
          · exact Or.inr (Or.inr h)
        · rintro (h | rfl | h)
          · exact Or.inl h
          · exact Or.inl hu
          · exact Or.inr h
      · rw [ih, Scratch.inRegion_touch, Scratch.inRegion_countEdge, eq_comm (a := u)]
        tauto

theorem countEdges_arrival (vs : List (Fin n)) (s : Scratch α n) (stack : List (Fin n))
    (p : Place n) : ((countEdges vs s stack).1.get p).arrival = (s.get p).arrival := by
  induction vs generalizing s stack with
  | nil => rfl
  | cons u vs ih =>
      rw [countEdges_cons]
      split
      · rw [ih, Scratch.arrival_get_countEdge]
      · rw [ih, Scratch.arrival_get_touch, Scratch.arrival_get_countEdge]

/-- The signals put on the stack are those of the fanout list that were not in the region, each
once. -/
theorem countEdges_stack (vs : List (Fin n)) (s : Scratch α n) (stack : List (Fin n)) :
    ∃ new, (countEdges vs s stack).2 = new ++ stack ∧ new.Nodup ∧
      ∀ v, v ∈ new ↔ v ∈ vs ∧ s.inRegion v = false := by
  -- on the list; a signal that is new is in the region for the rest of the list
  induction vs generalizing s stack with
  | nil => exact ⟨[], rfl, List.nodup_nil, by simp⟩
  | cons u vs ih =>
      rw [countEdges_cons]
      split
      · rename_i hu
        obtain ⟨new, hstack, hnodup, hmem⟩ := ih (s.countEdge u) stack
        refine ⟨new, hstack, hnodup, fun v => ?_⟩
        rw [hmem, Scratch.inRegion_countEdge, List.mem_cons]
        constructor
        · exact fun h => ⟨Or.inr h.1, h.2⟩
        · rintro ⟨rfl | h, hv⟩
          · exact absurd hu (by simp [hv])
          · exact ⟨h, hv⟩
      · -- `u` is marked now, so the rest of the list does not stack it again
        rename_i hu
        obtain ⟨new, hstack, hnodup, hmem⟩ := ih ((s.countEdge u).touch (.signal u)) (u :: stack)
        have hmem' : ∀ v, v ∈ new ↔ v ∈ vs ∧ u ≠ v ∧ s.inRegion v = false := by
          intro v
          rw [hmem, ← Bool.not_eq_true, Scratch.inRegion_touch, Scratch.inRegion_countEdge]
          simp
        refine ⟨new ++ [u], by simp [hstack], ?_, fun v => ?_⟩
        · refine List.nodup_append.mpr ⟨hnodup, by simp, fun a ha b hb hab => ?_⟩
          rw [List.mem_singleton] at hb
          exact ((hmem' a).mp ha).2.1 (hab.trans hb).symm
        · rw [List.mem_append, hmem', List.mem_singleton, List.mem_cons]
          constructor
          · rintro (h | rfl)
            · exact ⟨Or.inr h.1, h.2.2⟩
            · exact ⟨Or.inl rfl, by simpa using hu⟩
          · rintro ⟨rfl | h, hv⟩
            · exact Or.inr rfl
            · by_cases huv : u = v
              · exact Or.inr huv.symm
              · exact Or.inl ⟨h, huv, hv⟩

theorem countEdges_touched (vs : List (Fin n)) (s : Scratch α n) (stack : List (Fin n))
    {p : Place n} (h : p ∈ s.touched) : p ∈ (countEdges vs s stack).1.touched := by
  induction vs generalizing s stack with
  | nil => exact h
  | cons u vs ih =>
      rw [countEdges_cons]
      split
      · exact ih _ _ (by rwa [Scratch.touched_countEdge])
      · exact ih _ _ (Scratch.mem_touched_touch (by rwa [Scratch.touched_countEdge]))

/-- Edges are counted at signals that are recorded at once if they are not yet. -/
theorem countEdges_tidy (vs : List (Fin n)) (s : Scratch α n) (stack : List (Fin n))
    (h : s.Tidy) : (countEdges vs s stack).1.Tidy := by
  induction vs generalizing s stack with
  | nil => exact h
  | cons u vs ih =>
      rw [countEdges_cons]
      split
      · rename_i hu
        exact ih _ _ (h.modify (h.mem_touched hu) _)
      · exact ih _ _ (h.touch_countEdge u)

/-! ### The search -/

/-- The states of the search of the region of `start`: the signals taken off the stack so far, the
marks, and the stack. -/
inductive Searching (view : TimingView α n) (start : Fin n) :
    List (Fin n) → Scratch α n → List (Fin n) → Prop where
  /-- The search begins with what the start feeds. -/
  | begin : Searching view start []
      (countEdges (view.fanout start) (Scratch.fresh.touch .launch) []).1
      (countEdges (view.fanout start) (Scratch.fresh.touch .launch : Scratch α n) []).2
  /-- A signal is taken off the stack and its edges are counted, if paths go on there. -/
  | visit {seen : List (Fin n)} {s : Scratch α n} {u : Fin n} {stack : List (Fin n)}
      (before : Searching view start seen s (u :: stack)) :
      Searching view start (seen ++ [u]) (countEdges (view.onward u) s stack).1
        (countEdges (view.onward u) s stack).2

theorem searchRegion_succ_cons (view : TimingView α n) (steps : Nat) (s : Scratch α n) (u : Fin n)
    (stack : List (Fin n)) :
    view.searchRegion (steps + 1) s (u :: stack) =
      view.searchRegion steps (countEdges (view.onward u) s stack).1
        (countEdges (view.onward u) s stack).2 := by
  rw [searchRegion, onward]
  split <;> rfl

/-- Running the search goes through its states until the stack or the steps are used up. -/
theorem Searching.run {seen stack : List (Fin n)} {s : Scratch α n}
    (h : Searching view start seen s stack) (steps : Nat) :
    ∃ seen' stack', Searching view start seen' (view.searchRegion steps s stack) stack' ∧
      (stack' = [] ∨ seen'.length = seen.length + steps) := by
  induction steps generalizing seen s stack with
  | zero => exact ⟨seen, stack, h, Or.inr rfl⟩
  | succ steps ih =>
      cases stack with
      | nil => exact ⟨seen, [], h, Or.inl rfl⟩
      | cons u stack =>
          obtain ⟨seen', stack', h', hend⟩ := ih h.visit
          rw [← searchRegion_succ_cons] at h'
          refine ⟨seen', stack', h', hend.imp_right fun hlen => ?_⟩
          rw [hlen, List.length_append, List.length_singleton]
          omega

/-- What holds in every state of the search. -/
structure Collected (view : TimingView α n) (start : Fin n) (seen stack : List (Fin n))
    (s : Scratch α n) : Prop where
  /-- No signal is put on the stack twice. -/
  nodup : (seen ++ stack).Nodup
  /-- The region is what was put on the stack. -/
  inRegion : ∀ v, s.inRegion v = true ↔ v ∈ seen ++ stack
  /-- What the start feeds is in the region. -/
  fed : ∀ v, view.Feeds start v → v ∈ seen ++ stack
  /-- So is what paths go on to from a signal that was taken off the stack. -/
  closed : ∀ u ∈ seen, ∀ v ∈ view.onward u, v ∈ seen ++ stack
  /-- Nothing else is in the region than what is reached. -/
  reached : ∀ v ∈ seen ++ stack, view.Reaches start v
  /-- The edges from the start and from the signals seen are pending. -/
  pending : ∀ v, s.pending v = (view.fanout start ++ seen.flatMap view.onward).count v
  /-- Nothing has arrived anywhere. -/
  arrival : ∀ p, (s.get p).arrival = none
  /-- Every mark is recorded, the launch among them. -/
  tidy : s.Tidy
  launch : .launch ∈ s.touched

/-- Counting edges brings the signals of the list into the region, each once. -/
theorem countEdges_region {seen stack : List (Fin n)} (vs : List (Fin n)) {s : Scratch α n}
    (hnodup : (seen ++ stack).Nodup) (hin : ∀ v, s.inRegion v = true ↔ v ∈ seen ++ stack) :
    (seen ++ (countEdges vs s stack).2).Nodup ∧
      (∀ v, (countEdges vs s stack).1.inRegion v = true ↔ v ∈ seen ++ (countEdges vs s stack).2) ∧
      ∀ v, v ∈ seen ++ (countEdges vs s stack).2 ↔ v ∈ seen ++ stack ∨ v ∈ vs := by
  obtain ⟨new, hstack, hnew, hmem⟩ := countEdges_stack vs s stack
  have hfresh : ∀ v, v ∈ new ↔ v ∈ vs ∧ v ∉ seen ++ stack := fun v => by
    rw [hmem, ← Bool.not_eq_true, hin]
  have hall : ∀ v, v ∈ seen ++ (new ++ stack) ↔ v ∈ seen ++ stack ∨ v ∈ vs := by
    intro v
    have hv := hfresh v
    simp only [List.mem_append] at hv ⊢
    tauto
  rw [hstack]
  refine ⟨?_, fun v => by rw [countEdges_inRegion, hin, hall], hall⟩
  have hperm : (seen ++ (new ++ stack)).Perm (new ++ (seen ++ stack)) := by
    rw [← List.append_assoc, ← List.append_assoc]
    exact List.perm_append_comm.append_right stack
  rw [hperm.nodup_iff]
  exact List.nodup_append.mpr ⟨hnew, hnodup, fun a ha b hb hab =>
    ((hfresh a).mp ha).2 (hab ▸ hb)⟩

/-- The search begins with the list of the start, which counts for the launch. -/
theorem collected_begin (view : TimingView α n) (start : Fin n) :
    Collected view start []
      (countEdges (view.fanout start) (Scratch.fresh.touch .launch : Scratch α n) []).2
      (countEdges (view.fanout start) (Scratch.fresh.touch .launch) []).1 := by
  have hfresh : ∀ v, (Scratch.fresh.touch .launch : Scratch α n).inRegion v = true ↔
      v ∈ ([] : List (Fin n)) ++ [] := by
    intro v
    rw [Scratch.inRegion_touch_launch, Scratch.inRegion_eq, Scratch.get_fresh]
    simp [Mark.fresh]
  obtain ⟨hnodup, hin, hmem⟩ := countEdges_region (view.fanout start) (by simp) hfresh
  exact
    { nodup := hnodup
      inRegion := hin
      fed := fun v hv => (hmem v).mpr (Or.inr hv)
      closed := by simp
      reached := fun v hv => Reaches.of_feeds (((hmem v).mp hv).resolve_left (by simp))
      pending := fun v => by
        rw [countEdges_pending, Scratch.pending_touch, Scratch.pending_eq, Scratch.get_fresh]
        simp [Mark.fresh]
      arrival := fun p => by
        rw [countEdges_arrival, Scratch.arrival_get_touch, Scratch.get_fresh]
        rfl
      tidy := countEdges_tidy _ _ _ (Scratch.tidy_fresh.touch .launch)
      launch := countEdges_touched _ _ _ (Scratch.self_mem_touched_touch Scratch.tidy_fresh _) }

/-- A signal from the stack is visited: its edges are counted, and what is new of them goes on the
stack. The counts are those of the signals visited so far. -/
theorem Collected.visit {seen stack : List (Fin n)} {s : Scratch α n} {u : Fin n}
    (h : Collected view start seen (u :: stack) s) :
    Collected view start (seen ++ [u]) (countEdges (view.onward u) s stack).2
      (countEdges (view.onward u) s stack).1 := by
  have happ : seen ++ u :: stack = (seen ++ [u]) ++ stack := by simp
  obtain ⟨hnodup, hin, hmem⟩ := countEdges_region (view.onward u) (happ ▸ h.nodup)
    (fun v => happ ▸ h.inRegion v)
  rw [← happ] at hmem
  refine ⟨hnodup, hin, fun v hv => (hmem v).mpr (Or.inl (h.fed v hv)), ?_, ?_, ?_, ?_,
    countEdges_tidy _ _ _ h.tidy, countEdges_touched _ _ _ h.launch⟩
  · -- what was closed stays so, and the edges of `u` were just counted
    intro w hw v hv
    rw [hmem]
    rcases List.mem_append.mp hw with hw | hw
    · exact Or.inl (h.closed w hw v hv)
    · rw [List.mem_singleton] at hw
      exact Or.inr (hw ▸ hv)
  · intro v hv
    rcases (hmem v).mp hv with hv | hv
    · exact h.reached v hv
    · -- what is new is fed by `u`, which is reached
      obtain ⟨hu, hf⟩ := view.mem_onward.mp hv
      exact (h.reached u (by simp)).onward hu hf
  · intro v
    rw [countEdges_pending, h.pending v]
    simp [Nat.add_assoc]
  · intro p
    rw [countEdges_arrival, h.arrival p]

/-- An invariant of every step holds as long as the search lasts. -/
theorem Searching.collected {seen stack : List (Fin n)} {s : Scratch α n}
    (h : Searching view start seen s stack) : Collected view start seen stack s := by
  induction h with
  | begin => exact collected_begin view start
  | visit _ ih => exact ih.visit

/-! ### The collected region -/

/-- `region` lists what is reached from `start`, each signal once, and the marks of the collected
region say so: every signal has its edges from the start and from all passed signals of the region
pending, and nothing has arrived yet. -/
structure IsRegion (view : TimingView α n) (start : Fin n) (region : List (Fin n)) : Prop where
  nodup : region.Nodup
  mem_iff : ∀ v, v ∈ region ↔ view.Reaches start v
  inRegion : ∀ v, (view.collectRegion .fresh start).inRegion v = true ↔ v ∈ region
  pending : ∀ v, (view.collectRegion .fresh start).pending v =
    (view.fanout start ++ region.flatMap view.onward).count v
  arrival : ∀ p, ((view.collectRegion .fresh start).get p).arrival = none
  tidy : (view.collectRegion .fresh start).Tidy
  launch : .launch ∈ (view.collectRegion .fresh start).touched

/-- When the stack is empty, the signals that were taken off it are the region. -/
theorem Collected.isRegion {region : List (Fin n)}
    (hc : Collected view start region [] (view.collectRegion .fresh start : Scratch α n)) :
    view.IsRegion start region := by
  have happ : region ++ [] = region := List.append_nil region
  refine ⟨happ ▸ hc.nodup, fun v => ⟨fun hv => ?_, fun hv => ?_⟩,
    fun v => happ ▸ hc.inRegion v, hc.pending, hc.arrival, hc.tidy, hc.launch⟩
  · exact hc.reached v (happ.symm ▸ hv)
  · obtain ⟨l, w⟩ := hv
    induction w using Walk.induction_on with
    | first v hf => exact happ ▸ hc.fed v hf
    | onward l u v w hu hf ih => exact happ ▸ hc.closed u ih v (view.mem_onward.mpr ⟨hu, hf⟩)

/-- The search collects the region of its start. -/
theorem exists_isRegion (view : TimingView α n) (start : Fin n) :
    ∃ region, view.IsRegion start region := by
  have hbegin : Searching view start [] _ _ := Searching.begin
  obtain ⟨region, stack, hrun, hend⟩ := hbegin.run n
  have hc := hrun.collected
  have hstack : stack = [] := by
    rcases hend with h | h
    · exact h
    · -- all signals were taken off the stack, and none is put on it twice
      have hle := hc.nodup.length_le_card
      rw [Fintype.card_fin, List.length_append] at hle
      simp only [List.length_nil, Nat.zero_add] at h
      exact List.eq_nil_of_length_eq_zero (by omega)
  subst hstack
  exact ⟨region, hc.isRegion⟩

end TimingView

end Presynth
