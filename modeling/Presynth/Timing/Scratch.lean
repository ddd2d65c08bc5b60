import Presynth.Timing.View
/-!
# Scratch marks of a timing query

A query marks the places that it visits: every signal is a place, and the launch of the startpoint
is one more, so that a signal may start a path and be met again on it. All places that were ever
marked are recorded, and clearing these clears all.

Main statements: `get_set` (a place holds what was last put there) and `get_reset` (clearing makes
the recorded places fresh and leaves the others).
-/

namespace Presynth

variable {α : Type} {n : Nat}

/-- The latest arrival known at a place, and how it got there. -/
structure Arrival (α : Type) (n : Nat) where
  time : α
  /-- The signals on the way, the last one first. -/
  trail : List (Fin n)
  deriving DecidableEq, Repr

/-- A place that a query marks. -/
inductive Place (n : Nat) where
  /-- The start of the paths. -/
  | launch
  | signal (i : Fin n)
  deriving DecidableEq, Repr

/-- What a query knows about a place. -/
structure Mark (α : Type) (n : Nat) where
  arrival : Option (Arrival α n)
  /-- The number of edges from the region that have not been followed yet. -/
  pending : Nat
  /-- Has the place been reached by the search of the region? -/
  inRegion : Bool
  deriving DecidableEq, Repr

/-- The mark of a place that was not visited. -/
def Mark.fresh : Mark α n := ⟨none, 0, false⟩

/-- The marks of all places, and the places that were ever marked. -/
structure Scratch (α : Type) (n : Nat) where
  launch : Mark α n
  signals : Vector (Mark α n) n
  touched : List (Place n)
  deriving DecidableEq

namespace Scratch

/-- No place is marked. -/
def fresh : Scratch α n := ⟨.fresh, Vector.replicate n .fresh, []⟩

/-- The mark of a place. -/
def get (s : Scratch α n) : Place n → Mark α n
  | .launch => s.launch
  | .signal i => s.signals.get i

/-- Replaces the mark of a place. -/
def set (s : Scratch α n) (p : Place n) (m : Mark α n) : Scratch α n :=
  match p with
  | .launch => { s with launch := m }
  | .signal i => { s with signals := s.signals.set i m i.isLt }

/-- Changes the mark of a place. -/
def modify (s : Scratch α n) (p : Place n) (f : Mark α n → Mark α n) : Scratch α n :=
  s.set p (f (s.get p))

/-- Takes a place into the region, once. -/
def touch (s : Scratch α n) (p : Place n) : Scratch α n :=
  if (s.get p).inRegion then s
  else { s.modify p fun m => { m with inRegion := true } with touched := p :: s.touched }

/-- Clears the marks of all places that were ever marked. -/
def reset (s : Scratch α n) : Scratch α n :=
  { s.touched.foldl (fun s p => s.set p .fresh) s with touched := [] }

/-! ### Marks after each operation -/

@[grind =] theorem get_set (s : Scratch α n) (p q : Place n) (m : Mark α n) :
    (s.set p m).get q = if p = q then m else s.get q := by
  cases p with
  | launch => cases q <;> simp [set, get]
  | signal i =>
    cases q with
    | launch => simp [set, get]
    | signal j =>
      change (s.signals.set i m)[j] = if Place.signal i = .signal j then m else s.signals[j]
      simp [Vector.getElem_set, Fin.ext_iff]

@[simp] theorem get_set_self (s : Scratch α n) (p : Place n) (m : Mark α n) :
    (s.set p m).get p = m := by simp [get_set]

@[simp] theorem touched_set (s : Scratch α n) (p : Place n) (m : Mark α n) :
    (s.set p m).touched = s.touched := by cases p <;> rfl

@[simp] theorem get_fresh (p : Place n) : (fresh : Scratch α n).get p = .fresh := by
  cases p with
  | launch => rfl
  | signal i => exact Vector.getElem_replicate i.isLt

/-- Two scratches with the same marks and records are the same. -/
theorem ext_get {s t : Scratch α n} (h : ∀ p, s.get p = t.get p) (ht : s.touched = t.touched) :
    s = t := by
  have hl := h .launch
  have hs : s.signals = t.signals := Vector.ext fun i hi => h (.signal ⟨i, hi⟩)
  cases s; cases t
  simp_all [get]

theorem get_foldl_set_fresh (l : List (Place n)) (s : Scratch α n) (p : Place n) :
    (l.foldl (fun s p => s.set p .fresh) s).get p = if p ∈ l then .fresh else s.get p := by
  induction l generalizing s with
  | nil => simp
  | cons q l ih =>
    rw [List.foldl_cons, ih, get_set]
    by_cases h₁ : p ∈ l
    · simp [h₁]
    · by_cases h₂ : q = p
      · simp [h₂]
      · simp [h₁, h₂, Ne.symm h₂]

@[grind =] theorem get_reset (s : Scratch α n) (p : Place n) :
    s.reset.get p = if p ∈ s.touched then .fresh else s.get p := by
  rw [← get_foldl_set_fresh]
  cases p <;> rfl

@[simp] theorem touched_reset (s : Scratch α n) : s.reset.touched = [] := rfl

end Scratch

end Presynth
