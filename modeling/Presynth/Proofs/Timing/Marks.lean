import Mathlib.Tactic.ByContra
import Presynth.Timing.Sweep
/-!
# Marks after each operation of a query

A query writes three things into the mark of a place: whether the place is in the region, how many
of its edges are pending, and its latest arrival. Each operation changes one of them, and every
place that is marked at all is recorded as touched.

Main statements: the reads of `inRegion`, `pending` and `arrival?` after each operation, the frame
`Scratch.Tidy` (what is not recorded is unmarked) with its preservation by every operation on a
recorded place, and `Tidy.reset_eq` (tidy marks clear to no marks at all).
-/

namespace Presynth

variable {α : Type} {n : Nat}

namespace Scratch

variable {s : Scratch α n}

/-! ### One place changes -/

@[grind =] theorem get_modify (s : Scratch α n) (p q : Place n) (f : Mark α n → Mark α n) :
    (s.modify p f).get q = if p = q then f (s.get p) else s.get q := by
  rw [modify, get_set]

@[simp] theorem touched_modify (s : Scratch α n) (p : Place n) (f : Mark α n → Mark α n) :
    (s.modify p f).touched = s.touched := by
  rw [modify, touched_set]

theorem inRegion_eq (s : Scratch α n) (v : Fin n) :
    s.inRegion v = (s.get (.signal v)).inRegion := rfl

theorem pending_eq (s : Scratch α n) (v : Fin n) :
    s.pending v = (s.get (.signal v)).pending := rfl

theorem arrival?_eq (s : Scratch α n) (v : Fin n) :
    s.arrival? v = (s.get (.signal v)).arrival := rfl

/-! ### Arrivals -/

@[simp] theorem pending_setArrival (s : Scratch α n) (p : Place n) (a : Arrival α n) (v : Fin n) :
    (s.setArrival p a).pending v = s.pending v := by
  rw [pending_eq, setArrival, get_modify]
  split
  · rename_i h; subst h; rfl
  · rfl

theorem arrival?_setArrival (s : Scratch α n) (u v : Fin n) (a : Arrival α n) :
    (s.setArrival (.signal u) a).arrival? v = if u = v then some a else s.arrival? v := by
  rw [arrival?_eq, setArrival, get_modify]
  by_cases h : u = v
  · simp [h]
  · simp [h, arrival?_eq]

@[simp] theorem arrival?_setArrival_launch (s : Scratch α n) (a : Arrival α n) (v : Fin n) :
    (s.setArrival .launch a).arrival? v = s.arrival? v := by
  rw [arrival?_eq, setArrival, get_modify, if_neg (by simp)]
  rfl

@[simp] theorem arrival_get_setArrival_self (s : Scratch α n) (p : Place n) (a : Arrival α n) :
    ((s.setArrival p a).get p).arrival = some a := by
  rw [setArrival, get_modify, if_pos rfl]

@[simp] theorem touched_setArrival (s : Scratch α n) (p : Place n) (a : Arrival α n) :
    (s.setArrival p a).touched = s.touched := touched_modify ..

/-! ### Edges -/

@[simp] theorem inRegion_countEdge (s : Scratch α n) (u v : Fin n) :
    (s.countEdge u).inRegion v = s.inRegion v := by
  rw [inRegion_eq, countEdge, get_modify]
  split
  · rename_i h; cases h; rfl
  · rfl

theorem pending_countEdge (s : Scratch α n) (u v : Fin n) :
    (s.countEdge u).pending v = s.pending v + if u = v then 1 else 0 := by
  rw [pending_eq, countEdge, get_modify]
  by_cases h : u = v
  · simp [h, pending_eq]
  · simp [h, pending_eq]

@[simp] theorem arrival_get_countEdge (s : Scratch α n) (u : Fin n) (p : Place n) :
    ((s.countEdge u).get p).arrival = (s.get p).arrival := by
  rw [countEdge, get_modify]
  split
  · rename_i h; subst h; rfl
  · rfl

@[simp] theorem touched_countEdge (s : Scratch α n) (u : Fin n) :
    (s.countEdge u).touched = s.touched := touched_modify ..

/-- Following an edge takes one away. The subtraction stops at zero, which a region that was
collected never makes use of. -/
theorem pending_followEdge (s : Scratch α n) (u v : Fin n) :
    (s.followEdge u).pending v = s.pending v - if u = v then 1 else 0 := by
  rw [pending_eq, followEdge, get_modify]
  by_cases h : u = v
  · simp [h, pending_eq]
  · simp [h, pending_eq]

@[simp] theorem arrival?_followEdge (s : Scratch α n) (u v : Fin n) :
    (s.followEdge u).arrival? v = s.arrival? v := by
  rw [arrival?_eq, followEdge, get_modify]
  split
  · rename_i h; cases h; rfl
  · rfl

@[simp] theorem touched_followEdge (s : Scratch α n) (u : Fin n) :
    (s.followEdge u).touched = s.touched := touched_modify ..

/-- Following an edge and recording an arrival do not see each other. -/
theorem setArrival_followEdge (s : Scratch α n) (u : Fin n) (p : Place n) (a : Arrival α n) :
    (s.followEdge u).setArrival p a = (s.setArrival p a).followEdge u := by
  refine ext_get (fun q => ?_) (by simp)
  unfold setArrival followEdge
  simp only [get_modify]
  by_cases hp : p = q <;> by_cases hu : Place.signal u = q
  · subst hp; subst hu; simp
  · subst hp; simp [hu]
  · subst hu; simp [hp]
  · simp [hp, hu]

/-! ### The region -/

theorem get_with_touched (s : Scratch α n) (l : List (Place n)) (p : Place n) :
    ({ s with touched := l } : Scratch α n).get p = s.get p := by cases p <;> rfl

/-- Taking a place into the region sets its flag and nothing else, also if it is in already. -/
theorem get_touch (s : Scratch α n) (p q : Place n) :
    (s.touch p).get q = if p = q then { s.get p with inRegion := true } else s.get q := by
  unfold touch
  by_cases hin : (s.get p).inRegion = true
  · rw [if_pos hin]
    split
    · rename_i h
      subst h
      rw [← hin]
    · rfl
  · rw [if_neg hin, get_with_touched, get_modify]

theorem inRegion_touch (s : Scratch α n) (u v : Fin n) :
    (s.touch (.signal u)).inRegion v = true ↔ u = v ∨ s.inRegion v = true := by
  rw [inRegion_eq, get_touch]
  by_cases h : u = v
  · simp [h]
  · simp [h, inRegion_eq]

@[simp] theorem inRegion_touch_launch (s : Scratch α n) (v : Fin n) :
    (s.touch .launch).inRegion v = s.inRegion v := by
  rw [inRegion_eq, get_touch, if_neg (by simp)]
  rfl

@[simp] theorem pending_touch (s : Scratch α n) (p : Place n) (v : Fin n) :
    (s.touch p).pending v = s.pending v := by
  rw [pending_eq, get_touch]
  split
  · rename_i h; subst h; rfl
  · rfl

@[simp] theorem arrival_get_touch (s : Scratch α n) (p q : Place n) :
    ((s.touch p).get q).arrival = (s.get q).arrival := by
  rw [get_touch]
  split
  · rename_i h; subst h; rfl
  · rfl

theorem mem_touched_touch {s : Scratch α n} {p q : Place n} (h : q ∈ s.touched) :
    q ∈ (s.touch p).touched := by
  unfold touch
  split
  · exact h
  · exact List.mem_cons_of_mem _ h

/-! ### What is not recorded is unmarked -/

/-- Every place that is not recorded as touched is fresh. -/
def Tidy (s : Scratch α n) : Prop := ∀ p, p ∉ s.touched → s.get p = .fresh

theorem tidy_fresh : (fresh : Scratch α n).Tidy := fun p _ => get_fresh p

/-- Tidy marks clear to no marks at all. -/
theorem Tidy.reset_eq (h : s.Tidy) : s.reset = fresh := by
  refine ext_get (fun p => ?_) rfl
  rw [get_reset, get_fresh]
  split
  · rfl
  · rename_i hp
    exact h p hp

theorem tidy_reset (h : s.Tidy) : s.reset.Tidy := h.reset_eq ▸ tidy_fresh

/-- In tidy marks a signal of the region is recorded, since fresh marks have no region. -/
theorem Tidy.mem_touched (h : s.Tidy) {v : Fin n} (hv : s.inRegion v = true) :
    .signal v ∈ s.touched := by
  by_contra hnot
  rw [inRegion_eq, h _ hnot] at hv
  exact absurd hv (by simp [Mark.fresh])

/-- A mark may be changed in any way at a place that is recorded. -/
theorem Tidy.modify (h : s.Tidy) {p : Place n} (hp : p ∈ s.touched) (f : Mark α n → Mark α n) :
    (s.modify p f).Tidy := by
  intro q hq
  rw [touched_modify] at hq
  rw [get_modify, if_neg (fun hpq : p = q => hq (hpq ▸ hp))]
  exact h q hq

/-- A place is recorded when it is touched for the first time, and it is still recorded when it is
touched again. -/
theorem self_mem_touched_touch (h : s.Tidy) (p : Place n) : p ∈ (s.touch p).touched := by
  unfold touch
  split
  · rename_i hin
    by_contra hnot
    rw [h p hnot] at hin
    exact absurd hin (by simp [Mark.fresh])
  · exact List.mem_cons_self

theorem Tidy.touch (h : s.Tidy) (p : Place n) : (s.touch p).Tidy := by
  intro q hq
  have hpq : p ≠ q := fun hpq => hq (hpq ▸ self_mem_touched_touch h p)
  rw [get_touch, if_neg hpq]
  exact h q fun hmem => hq (mem_touched_touch hmem)

/-- A signal may be marked just before it is recorded. -/
theorem Tidy.touch_countEdge (h : s.Tidy) (u : Fin n) :
    ((s.countEdge u).touch (.signal u)).Tidy := by
  by_cases hu : s.inRegion u = true
  · exact (h.modify (h.mem_touched hu) _).touch _
  · have hin : ((s.countEdge u).get (.signal u)).inRegion = false := by
      rw [← inRegion_eq, inRegion_countEdge]
      simpa using hu
    intro q hq
    have hne : q ≠ .signal u ∧ q ∉ s.touched := by
      simpa [Scratch.touch, hin] using hq
    rw [get_touch, if_neg hne.1.symm, countEdge, get_modify, if_neg hne.1.symm]
    exact h q hne.2

end Scratch

end Presynth
