import Mathlib.Data.List.Nodup
import Mathlib.Logic.Function.Iterate
import Presynth.Proofs.Timing.Marks
/-!
# Expanding a signal

To expand a signal is to offer its arrival along its edges and to follow them. The program does both
edge by edge; since offers and edges are kept in different parts of a mark, this is the same as to
make all offers first and to follow all edges then.

Main statements: `expand_eq` (that decomposition), `relaxAll_arrival` (what the offers make of each
arrival) and `followEdges_ready` (which signals become ready, each once).
-/

namespace Presynth

variable {α : Type} {n : Nat}

namespace TimingView

/-! ### Following edges -/

/-- An edge that was the last one to be followed makes its signal ready, at the end of the queue. -/
theorem followEdges_cons (v : Fin n) (vs : List (Fin n)) (f : Front α n) :
    followEdges (v :: vs) f =
      followEdges vs
        { f with
          scratch := f.scratch.followEdge v
          ready := if (f.scratch.followEdge v).pending v = 0 then f.ready ++ [v] else f.ready } :=
  rfl

@[simp] theorem scratch_followEdges_singleton (v : Fin n) (f : Front α n) :
    (followEdges [v] f).scratch = f.scratch.followEdge v := rfl

@[simp] theorem followEdges_reached (vs : List (Fin n)) (f : Front α n) :
    (followEdges vs f).reached = f.reached := by
  induction vs generalizing f with
  | nil => rfl
  | cons v vs ih => rw [followEdges_cons, ih]

@[simp] theorem followEdges_arrival? (vs : List (Fin n)) (f : Front α n) (v : Fin n) :
    (followEdges vs f).scratch.arrival? v = f.scratch.arrival? v := by
  induction vs generalizing f with
  | nil => rfl
  | cons u vs ih => rw [followEdges_cons, ih, Scratch.arrival?_followEdge]

@[simp] theorem followEdges_touched (vs : List (Fin n)) (f : Front α n) :
    (followEdges vs f).scratch.touched = f.scratch.touched := by
  induction vs generalizing f with
  | nil => rfl
  | cons u vs ih => rw [followEdges_cons, ih, Scratch.touched_followEdge]

/-- Every edge of a list is one less to follow for the signal that it leads to. -/
theorem followEdges_pending (vs : List (Fin n)) (f : Front α n) (v : Fin n) :
    (followEdges vs f).scratch.pending v = f.scratch.pending v - vs.count v := by
  induction vs generalizing f with
  | nil => simp [followEdges]
  | cons u vs ih =>
      rw [followEdges_cons, ih, Scratch.pending_followEdge, List.count_cons]
      simp only [beq_iff_eq]
      omega

/-- After one edge, the signals that are still to become ready are those of the rest, and the end of
that edge if it was the last one there. -/
theorem pending_eq_count_cons_iff {s : Scratch α n} {u : Fin n} {vs : List (Fin n)}
    (h : ∀ v, (u :: vs).count v ≤ s.pending v) (v : Fin n) :
    v ∈ u :: vs ∧ s.pending v = (u :: vs).count v ↔
      (v = u ∧ (s.followEdge u).pending u = 0) ∨
        (v ∈ vs ∧ (s.followEdge u).pending v = vs.count v) := by
  have hv := h v
  by_cases huv : v = u
  · subst huv
    rw [List.count_cons_self] at hv ⊢
    rw [Scratch.pending_followEdge, if_pos rfl]
    by_cases hmem : v ∈ vs
    · have hpos := List.count_pos_iff.mpr hmem
      simp only [List.mem_cons, hmem, true_and, true_or]
      omega
    · have hzero := List.count_eq_zero.mpr hmem
      simp only [List.mem_cons, hmem, true_and, false_and, or_false]
      omega
  · have hsame : (s.followEdge u).pending v = s.pending v := by
      rw [Scratch.pending_followEdge, if_neg (Ne.symm huv), Nat.sub_zero]
    rw [hsame, List.count_cons_of_ne (Ne.symm huv)]
    simp [huv]

/-- Where every edge of a list is pending, so are the others once the first is followed. -/
theorem count_le_pending_followEdge {s : Scratch α n} {u : Fin n} {vs : List (Fin n)}
    (h : ∀ v, (u :: vs).count v ≤ s.pending v) (v : Fin n) :
    vs.count v ≤ (s.followEdge u).pending v := by
  have hv := h v
  rw [List.count_cons] at hv
  rw [Scratch.pending_followEdge]
  simp only [beq_iff_eq] at hv
  omega

/-- Where every edge followed is pending, the signals without further edges become ready, each
once. -/
theorem followEdges_ready (vs : List (Fin n)) (f : Front α n)
    (h : ∀ v, vs.count v ≤ f.scratch.pending v) :
    ∃ new, (followEdges vs f).ready = f.ready ++ new ∧ new.Nodup ∧
      ∀ v, v ∈ new ↔ v ∈ vs ∧ f.scratch.pending v = vs.count v := by
  induction vs generalizing f with
  | nil => exact ⟨[], by simp [followEdges], List.nodup_nil, by simp⟩
  | cons u vs ih =>
      rw [followEdges_cons]
      obtain ⟨new, hready, hnodup, hmem⟩ := ih
        { f with
          scratch := f.scratch.followEdge u
          ready := if (f.scratch.followEdge u).pending u = 0 then f.ready ++ [u] else f.ready }
        (count_le_pending_followEdge h)
      -- after its last edge `u` is ready, and it is not in the rest of the list any more
      by_cases hlast : (f.scratch.followEdge u).pending u = 0
      · have hnot : u ∉ new := by
          intro hu
          obtain ⟨hvs, hcount⟩ := (hmem u).mp hu
          have hpos := List.count_pos_iff.mpr hvs
          exact absurd (hcount.symm.trans hlast) (by omega)
        refine ⟨u :: new, by simpa [hlast] using hready, List.nodup_cons.mpr ⟨hnot, hnodup⟩,
          fun v => ?_⟩
        rw [pending_eq_count_cons_iff h, List.mem_cons, hmem, and_iff_left hlast]
      · refine ⟨new, by simpa [hlast] using hready, hnodup, fun v => ?_⟩
        rw [pending_eq_count_cons_iff h, hmem, or_iff_right fun hu => hlast hu.2]

/-! ### Offering arrivals -/

section Arrivals

variable [Add α] [Sub α] [LT α] [DecidableLT α] {view : TimingView α n} {a : Arrival α n}

theorem relax_of_ok {s : Scratch α n} {v : Fin n} {d : α} (hd : view.delay v = .ok d) :
    view.relax s v a = .ok (s.setArrival (.signal v) (later (s.arrival? v) a v d)) := by
  unfold relax
  rw [hd]

theorem relax_of_error {s : Scratch α n} {v : Fin n} {e : TimingError α}
    (he : view.delay v = .error e) : view.relax s v a = .error e := by
  unfold relax
  rw [he]

theorem relaxAll_cons_of_ok {s : Scratch α n} {v : Fin n} {vs : List (Fin n)} {d : α}
    (hd : view.delay v = .ok d) :
    view.relaxAll a (v :: vs) s =
      view.relaxAll a vs (s.setArrival (.signal v) (later (s.arrival? v) a v d)) := by
  rw [relaxAll, relax_of_ok hd]

theorem relaxAll_cons_of_error {s : Scratch α n} {v : Fin n} {vs : List (Fin n)}
    {e : TimingError α} (he : view.delay v = .error e) :
    view.relaxAll a (v :: vs) s = (.error e, s) := by
  rw [relaxAll, relax_of_error he]

@[simp] theorem relaxAll_pending (vs : List (Fin n)) (s : Scratch α n) (v : Fin n) :
    (view.relaxAll a vs s).2.pending v = s.pending v := by
  induction vs generalizing s with
  | nil => rfl
  | cons u vs ih =>
      cases hd : view.delay u with
      | error e => rw [relaxAll_cons_of_error hd]
      | ok d => rw [relaxAll_cons_of_ok hd, ih, Scratch.pending_setArrival]

/-- All offers are accepted only where every signal has a delay. -/
theorem delay_of_relaxAll_ok {vs : List (Fin n)} {s : Scratch α n}
    (h : (view.relaxAll a vs s).1 = .ok ()) {v : Fin n} (hv : v ∈ vs) :
    ∃ d, view.delay v = .ok d := by
  induction vs generalizing s with
  | nil => exact absurd hv List.not_mem_nil
  | cons u vs ih =>
      cases hd : view.delay u with
      | error e =>
          rw [relaxAll_cons_of_error hd] at h
          exact absurd h (by simp)
      | ok d =>
          rw [relaxAll_cons_of_ok hd] at h
          rcases List.mem_cons.mp hv with rfl | hv
          · exact ⟨d, hd⟩
          · exact ih h hv

/-- A signal receives one offer for each of its edges in the list. -/
theorem relaxAll_arrival {vs : List (Fin n)} {s : Scratch α n}
    (h : (view.relaxAll a vs s).1 = .ok ()) {v : Fin n} {d : α} (hd : view.delay v = .ok d) :
    (view.relaxAll a vs s).2.arrival? v =
      (fun known => some (later known a v d))^[vs.count v] (s.arrival? v) := by
  induction vs generalizing s with
  | nil => rfl
  | cons u vs ih =>
      obtain ⟨d', hd'⟩ := delay_of_relaxAll_ok h List.mem_cons_self
      rw [relaxAll_cons_of_ok hd'] at h ⊢
      rw [ih h, Scratch.arrival?_setArrival, List.count_cons]
      by_cases huv : u = v
      · subst huv
        obtain rfl : d' = d := by simpa [hd'] using hd
        simp
      · simp [huv]

theorem relaxAll_arrival_of_not_mem (vs : List (Fin n)) (s : Scratch α n) {v : Fin n}
    (hv : v ∉ vs) : (view.relaxAll a vs s).2.arrival? v = s.arrival? v := by
  induction vs generalizing s with
  | nil => rfl
  | cons u vs ih =>
      rw [List.mem_cons, not_or] at hv
      cases hd : view.delay u with
      | error e => rw [relaxAll_cons_of_error hd]
      | ok d =>
          rw [relaxAll_cons_of_ok hd, ih _ hv.2, Scratch.arrival?_setArrival,
            if_neg (Ne.symm hv.1)]

/-- Offers do not see whether edges were followed. -/
theorem relaxAll_followEdge (vs : List (Fin n)) (s : Scratch α n) (u : Fin n) :
    view.relaxAll a vs (s.followEdge u) =
      ((view.relaxAll a vs s).1, (view.relaxAll a vs s).2.followEdge u) := by
  induction vs generalizing s with
  | nil => rfl
  | cons v vs ih =>
      cases hd : view.delay v with
      | error e => rw [relaxAll_cons_of_error hd, relaxAll_cons_of_error hd]
      | ok d =>
          rw [relaxAll_cons_of_ok hd, relaxAll_cons_of_ok hd, Scratch.arrival?_followEdge,
            Scratch.setArrival_followEdge, ih]

/-! ### Expanding -/

/-- The first signal of a list is offered its arrival before its edge is followed, and both before
the next signal has its turn. -/
theorem expand_cons_of_ok {f : Front α n} {v : Fin n} {vs : List (Fin n)} {d : α}
    (hd : view.delay v = .ok d) :
    view.expand a (v :: vs) f = view.expand a vs (followEdges [v] { f with
      scratch := f.scratch.setArrival (.signal v) (later (f.scratch.arrival? v) a v d) }) := by
  rw [expand, relax_of_ok hd]

theorem expand_cons_of_error {f : Front α n} {v : Fin n} {vs : List (Fin n)} {e : TimingError α}
    (he : view.delay v = .error e) : view.expand a (v :: vs) f = (.error e, f) := by
  rw [expand, relax_of_error he]

/-- Expanding fails as the offers do. -/
theorem expand_fst (vs : List (Fin n)) (f : Front α n) :
    (view.expand a vs f).1 = (view.relaxAll a vs f.scratch).1 := by
  induction vs generalizing f with
  | nil => rfl
  | cons v vs ih =>
      cases hd : view.delay v with
      | error e => rw [expand_cons_of_error hd, relaxAll_cons_of_error hd]
      | ok d =>
          rw [expand_cons_of_ok hd, relaxAll_cons_of_ok hd, ih, scratch_followEdges_singleton,
            relaxAll_followEdge]

/-- Unless a delay is missing, to expand is to make all offers and then to follow all edges. -/
theorem expand_eq {vs : List (Fin n)} {f : Front α n}
    (h : (view.relaxAll a vs f.scratch).1 = .ok ()) :
    view.expand a vs f =
      (.ok (), followEdges vs { f with scratch := (view.relaxAll a vs f.scratch).2 }) := by
  induction vs generalizing f with
  | nil => rfl
  | cons v vs ih =>
      obtain ⟨d, hd⟩ := delay_of_relaxAll_ok h List.mem_cons_self
      rw [relaxAll_cons_of_ok hd] at h ⊢
      rw [expand_cons_of_ok hd, ih]
      · simp only [followEdges, relaxAll_followEdge, Scratch.pending_followEdge, relaxAll_pending]
      · rw [scratch_followEdges_singleton, relaxAll_followEdge]
        exact h

/-- If no delay is missing, it does not matter whether the edges are followed in between or at the
end. -/
theorem expand_snd {vs : List (Fin n)} {f : Front α n} (ok : (view.expand a vs f).1 = .ok ()) :
    (view.expand a vs f).2 =
      followEdges vs { f with scratch := (view.relaxAll a vs f.scratch).2 } := by
  rw [expand_eq ((expand_fst vs f).symm.trans ok)]

theorem expand_reached {vs : List (Fin n)} {f : Front α n}
    (ok : (view.expand a vs f).1 = .ok ()) : (view.expand a vs f).2.reached = f.reached := by
  rw [expand_snd ok, followEdges_reached]

theorem expand_pending {vs : List (Fin n)} {f : Front α n}
    (ok : (view.expand a vs f).1 = .ok ()) (v : Fin n) :
    (view.expand a vs f).2.scratch.pending v = f.scratch.pending v - vs.count v := by
  rw [expand_snd ok, followEdges_pending, relaxAll_pending]

/-- Where every edge followed is pending, the signals that are out of pending edges become ready. -/
theorem expand_ready {vs : List (Fin n)} {f : Front α n}
    (ok : (view.expand a vs f).1 = .ok ()) (h : ∀ v, vs.count v ≤ f.scratch.pending v) :
    ∃ new, (view.expand a vs f).2.ready = f.ready ++ new ∧ new.Nodup ∧
      ∀ v, v ∈ new ↔ v ∈ vs ∧ f.scratch.pending v = vs.count v := by
  rw [expand_snd ok]
  have hready := followEdges_ready vs { f with scratch := (view.relaxAll a vs f.scratch).2 }
  simpa only [relaxAll_pending] using hready fun v => by
    rw [relaxAll_pending]
    exact h v

/-- An expansion that fails has got as far as the expansion of the edges before the failure. -/
theorem exists_prefix_of_expand_error {vs : List (Fin n)} {f : Front α n} {e : TimingError α}
    (he : (view.expand a vs f).1 = .error e) :
    ∃ done, done <+: vs ∧ (view.expand a done f).1 = .ok () ∧
      (view.expand a vs f).2 = (view.expand a done f).2 := by
  induction vs generalizing f with
  | nil => cases he
  | cons v vs ih =>
      cases hd : view.delay v with
      | error e' =>
          refine ⟨[], List.nil_prefix, rfl, ?_⟩
          rw [expand_cons_of_error hd]
          rfl
      | ok d =>
          rw [expand_cons_of_ok hd] at he ⊢
          obtain ⟨done, hprefix, hok, hsame⟩ := ih he
          refine ⟨v :: done, List.cons_prefix_cons.mpr ⟨rfl, hprefix⟩, ?_, ?_⟩
          · rw [expand_cons_of_ok hd]
            exact hok
          · rw [expand_cons_of_ok hd]
            exact hsame

/-- A signal receives one offer for each of its edges that are followed. -/
theorem expand_arrival {vs : List (Fin n)} {f : Front α n} (ok : (view.expand a vs f).1 = .ok ())
    {v : Fin n} {d : α} (hd : view.delay v = .ok d) :
    (view.expand a vs f).2.scratch.arrival? v =
      (fun known => some (later known a v d))^[vs.count v] (f.scratch.arrival? v) := by
  rw [expand_snd ok, followEdges_arrival?]
  exact relaxAll_arrival ((expand_fst vs f).symm.trans ok) hd

theorem expand_arrival_of_not_mem {vs : List (Fin n)} {f : Front α n}
    (ok : (view.expand a vs f).1 = .ok ()) {v : Fin n} (hv : v ∉ vs) :
    (view.expand a vs f).2.scratch.arrival? v = f.scratch.arrival? v := by
  rw [expand_snd ok, followEdges_arrival?]
  exact relaxAll_arrival_of_not_mem vs f.scratch hv

/-- An expansion that succeeds has read the delays of its whole list. -/
theorem delay_of_expand_ok {vs : List (Fin n)} {f : Front α n}
    (ok : (view.expand a vs f).1 = .ok ()) {v : Fin n} (hv : v ∈ vs) :
    ∃ d, view.delay v = .ok d :=
  delay_of_relaxAll_ok ((expand_fst vs f).symm.trans ok) hv

end Arrivals

end TimingView

end Presynth
