import Mathlib.Algebra.Order.Group.Defs
import Mathlib.Algebra.Order.Group.Int
import Presynth.Proofs.Timing.WorstPath
/-!
# The arrival that offers leave

A signal is offered one arrival for each edge to it. What it knows afterwards is kept as one time
that holds its own delay already, so to compare it with an offer that delay is taken off again. With
exact arithmetic this loses nothing: the arrival always is the offer of one driver, delayed once,
and the next offer competes with that driver's own time.

Main statements: `later_through` (an offer competes with the one that was accepted),
`exists_relaxed` (a sequence of offers leaves the first of its latest ones, delayed once) and
`relax_in_turn`.
-/

namespace Presynth

variable {α : Type} {n : Nat} [LinearOrder α]

/-! ### The first of the latest -/

namespace Arrival

variable {offers : List (Arrival α n)} {first : Arrival α n}

/-- No offer is later than `first`, and those made before it are all earlier. -/
structure IsFirstLatest (offers : List (Arrival α n)) (first : Arrival α n) : Prop where
  latest : ∀ a ∈ offers, a.time ≤ first.time
  earlier : ∃ before after, offers = before ++ first :: after ∧ ∀ a ∈ before, a.time < first.time

theorem IsFirstLatest.mem (h : IsFirstLatest offers first) : first ∈ offers := by
  obtain ⟨before, after, rfl, -⟩ := h.earlier
  simp

theorem isFirstLatest_singleton (a : Arrival α n) : IsFirstLatest [a] a :=
  ⟨by simp, [], [], rfl, by simp⟩

/-- One more offer is the first of the latest only if it is later than all before it. -/
theorem IsFirstLatest.concat (h : IsFirstLatest offers first) (a : Arrival α n) :
    IsFirstLatest (offers ++ [a]) (if first.time < a.time then a else first) := by
  by_cases hlt : first.time < a.time
  · have hall : ∀ b ∈ offers, b.time < a.time := fun b hb => (h.latest b hb).trans_lt hlt
    rw [if_pos hlt]
    refine ⟨fun b hb => ?_, offers, [], rfl, hall⟩
    rcases List.mem_append.mp hb with hb | hb
    · exact (hall b hb).le
    · rw [List.mem_singleton.mp hb]
  · obtain ⟨before, after, hsplit, hbefore⟩ := h.earlier
    rw [if_neg hlt]
    refine ⟨fun b hb => ?_, before, after ++ [a], by simp [hsplit], hbefore⟩
    rcases List.mem_append.mp hb with hb | hb
    · exact h.latest b hb
    · rw [List.mem_singleton.mp hb]
      exact not_lt.mp hlt

end Arrival

namespace TimingView

variable [AddCommGroup α] {view : TimingView α n} {v : Fin n} {d : α}

/-! ### Offers in turn -/

/-- An accepted offer competes with the next one by its own time, whatever the delay. -/
theorem later_through (first a : Arrival α n) (v : Fin n) (d : α) :
    later (some (through first v d)) a v d =
      through (if first.time < a.time then a else first) v d := by
  unfold later through
  dsimp only
  rw [add_sub_cancel_right]
  split <;> rfl

/-- Offers to a signal that knows of none leave the first of the latest of them, delayed once. -/
theorem exists_relaxed (hd : view.delay v = .ok d) {s : Scratch α n} (hs : s.arrival? v = none)
    {offers : List (Arrival α n)} (hne : offers ≠ []) :
    ∃ s' first, offers.foldlM (fun s a => view.relax s v a) s = .ok s' ∧
      Arrival.IsFirstLatest offers first ∧ s'.arrival? v = some (through first v d) := by
  induction offers using List.reverseRecOn with
  | nil => exact absurd rfl hne
  | append_singleton offers a ih =>
      simp only [List.foldlM_append, List.foldlM_cons, List.foldlM_nil, bind_pure]
      by_cases hnil : offers = []
      · subst hnil
        refine ⟨_, a, relax_of_ok hd, Arrival.isFirstLatest_singleton a, ?_⟩
        rw [Scratch.arrival?_setArrival, if_pos rfl, hs]
        rfl
      · obtain ⟨s', first, hfold, hfirst, hknown⟩ := ih hnil
        rw [hfold]
        refine ⟨_, _, relax_of_ok hd, hfirst.concat a, ?_⟩
        rw [Scratch.arrival?_setArrival, if_pos rfl, hknown, later_through]

/-- Offers made in turn to a signal of any delay that knows of none yet leave the delay added once
to the time of the latest offer, and the trail of the first offer of that time with the signal put
behind it. However many offers follow, the arrival does not become earlier. -/
theorem relax_in_turn [IsOrderedAddMonoid α] (view : TimingView α n)
    (hd : view.delay v = .ok d) {s : Scratch α n} (hs : s.arrival? v = none)
    {offers : List (Arrival α n)} (hne : offers ≠ []) (more : List (Arrival α n)) :
    ∃ s₁ s₂ first arrival,
      offers.foldlM (fun s a => view.relax s v a) s = .ok s₁ ∧
      Arrival.IsFirstLatest offers first ∧
      s₁.arrival? v = some ⟨d + first.time, v :: first.trail⟩ ∧
      more.foldlM (fun s a => view.relax s v a) s₁ = .ok s₂ ∧
      s₂.arrival? v = some arrival ∧ d + first.time ≤ arrival.time := by
  obtain ⟨s₁, first, hfold, hfirst, hknown⟩ := exists_relaxed hd hs hne
  obtain ⟨s₂, last, hfold', hlast, hknown'⟩ :=
    exists_relaxed hd hs (List.append_ne_nil_of_left_ne_nil hne more)
  have hrest : more.foldlM (fun s a => view.relax s v a) s₁ = .ok s₂ := by
    rw [List.foldlM_append, hfold] at hfold'
    exact hfold'
  -- the first of the latest offers is among all of them
  have hle : first.time ≤ last.time := hlast.latest first (List.mem_append_left more hfirst.mem)
  refine ⟨s₁, s₂, first, _, hfold, hfirst, ?_, hrest, hknown', ?_⟩
  · rw [hknown, through, add_comm]
  · rw [through, add_comm d]
    exact add_le_add_left hle d

end TimingView

/-- A gate of a negative delay that merges three inputs. -/
def Netlist.merging : Netlist Int :=
  let node (name : String) (kind : NodeKind) (delay : Int) : Node Int :=
    ⟨name, kind, none, none, some delay, none, 0⟩
  { registry := .ofList [("a", node "a" .Input 5), ("b", node "b" .Input 7),
      ("c", node "c" .Input 7), ("o", node "o" .Output 1), ("x", node "x" .Operator (-2))]
    fanout := .ofList [("a", ["x"]), ("b", ["x"]), ("c", ["x"]), ("x", ["o"])] }

/-- Of two equally late offers to the gate the first is kept, and its delay is taken off once. -/
theorem TimingView.relax_in_turn_merging :
    let a : Fin Netlist.merging.internedSize := ⟨0, by decide +kernel⟩
    let b : Fin Netlist.merging.internedSize := ⟨1, by decide +kernel⟩
    let c : Fin Netlist.merging.internedSize := ⟨2, by decide +kernel⟩
    let x : Fin Netlist.merging.internedSize := ⟨4, by decide +kernel⟩
    let view := Netlist.merging.timingView
    let offers := [⟨5, [a]⟩, ⟨7, [b]⟩, ⟨7, [c]⟩]
    view.delay x = .ok (-2) ∧ (Scratch.fresh : Scratch Int _).arrival? x = none ∧ offers ≠ [] ∧
      ∃ s₁ s₂ arrival,
        offers.foldlM (fun s a => view.relax s x a) .fresh = .ok s₁ ∧
        Arrival.IsFirstLatest offers ⟨7, [b]⟩ ∧ s₁.arrival? x = some ⟨-2 + 7, [x, b]⟩ ∧
        [⟨6, [a]⟩, ⟨8, [c]⟩].foldlM (fun s a => view.relax s x a) s₁ = .ok s₂ ∧
        s₂.arrival? x = some arrival ∧ -2 + 7 ≤ arrival.time := by
  intro a b c x view offers
  have hd : view.delay x = .ok (-2) := by decide +kernel
  have hs : (Scratch.fresh : Scratch Int _).arrival? x = none := by decide +kernel
  have hne : offers ≠ [] := List.cons_ne_nil _ _
  obtain ⟨s₁, s₂, first, arrival, hfold, hfirst, hknown, hrest, hafter, hle⟩ :=
    relax_in_turn view hd hs hne [⟨6, [a]⟩, ⟨8, [c]⟩]
  have hkept : (offers.foldlM (fun s a => view.relax s x a) .fresh).map (·.arrival? x) =
      .ok (some ⟨-2 + 7, [x, b]⟩) := by
    decide +kernel
  rw [hfold, Except.map, hknown] at hkept
  obtain ⟨time, trail⟩ := first
  obtain ⟨htime, rfl⟩ : -2 + time = 5 ∧ trail = [b] := by simpa using hkept
  obtain rfl : time = 7 := by omega
  exact ⟨hd, hs, hne, s₁, s₂, arrival, hfold, hfirst, hknown, hrest, hafter, hle⟩

end Presynth
