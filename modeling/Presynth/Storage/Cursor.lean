import Presynth.Storage.Entry
import Presynth.Storage.Fault
import Presynth.Storage.Path
/-!
# Following paths

A cursor is a position in a tree of entries together with the way to it, so that a path can lead out
of a directory again. A path is followed part by part, and every part needs a directory to start
from, even one that leads nowhere else. Nothing need stand where a path ends.

Main statements: `get?_location` (a cursor shows what stands at its location) and `exists_walk` (a
path ends at the same location in every tree that has the same directories, and maybe more).
-/

namespace Presynth

/-- A position in a tree of entries. -/
structure Cursor where
  /-- The directories on the way, the innermost first, each with the name that was followed. -/
  above : List (Entry × String)
  /-- What stands at the position. -/
  here : Option Entry

namespace Cursor

/-- The position of an entry itself. -/
def start (root : Entry) : Cursor := ⟨[], some root⟩

/-- The location of a position. -/
def location (c : Cursor) : Location := (c.above.map (·.2)).reverse

/-- The directory around a position; the outermost is around itself. -/
def up : Cursor → Cursor
  | ⟨[], here⟩ => ⟨[], here⟩
  | ⟨(dir, _) :: above, _⟩ => ⟨above, some dir⟩

/-- The position to which one part of a path leads. -/
def step (c : Cursor) (part : String) : Except Fault Cursor :=
  match c.here with
  | none => .error .notFound
  | some (.file _) => .error .notDirectory
  | some (.directory entries) =>
    if Path.isTooLong part then .error .nameTooLong
    else if Path.isIdle part then .ok c
    else if part = ".." then .ok c.up
    else .ok ⟨(.directory entries, part) :: c.above, NameMap.lookup part entries⟩

/-- The position to which the parts of a path lead. -/
def walk : Cursor → List String → Except Fault Cursor
  | c, [] => .ok c
  | c, part :: rest =>
    match c.step part with
    | .error fault => .error fault
    | .ok c => c.walk rest

/-! ### Positions in a tree -/

/-- The directories above a position and what stands at it are those of a tree. -/
def IsIn (root : Entry) : List (Entry × String) → Option Entry → Prop
  | [], here => here = some root
  | (dir, name) :: above, here =>
    dir.kind = .directory ∧ here = dir.child? name ∧ IsIn root above (some dir)

theorem get?_location {root : Entry} {above : List (Entry × String)} {here : Option Entry}
    (h : IsIn root above here) : root.get? (Cursor.mk above here).location = here := by
  induction above generalizing here with
  | nil => exact h.symm
  | cons x above ih =>
    obtain ⟨-, rfl, h⟩ := h
    have := ih h
    simp only [location, List.map_cons, List.reverse_cons] at this ⊢
    simp [Entry.get?_append_singleton, this]

theorem isIn_up {root : Entry} {c : Cursor} (h : IsIn root c.above c.here) :
    IsIn root c.up.above c.up.here := by
  obtain ⟨above, here⟩ := c
  cases above with
  | nil => exact h
  | cons x above => exact h.2.2

theorem isIn_step {root : Entry} {c d : Cursor} {part : String} (h : IsIn root c.above c.here)
    (hs : c.step part = .ok d) : IsIn root d.above d.here := by
  unfold step at hs
  split at hs
  · cases hs
  · cases hs
  · next entries hc =>
    split at hs
    · cases hs
    · split at hs
      · cases hs; exact h
      · split at hs
        · cases hs; exact isIn_up h
        · cases hs; exact ⟨rfl, rfl, hc ▸ h⟩

theorem isIn_walk {root : Entry} {c d : Cursor} {parts : List String}
    (h : IsIn root c.above c.here) (hw : c.walk parts = .ok d) : IsIn root d.above d.here := by
  induction parts generalizing c with
  | nil => cases hw; exact h
  | cons part rest ih =>
    rw [walk] at hw
    split at hw
    · cases hw
    · next e he => exact ih (isIn_step h he) hw

/-! ### The same path in another tree -/

theorem location_up (c : Cursor) : c.up.location = c.location.dropLast := by
  obtain ⟨above, here⟩ := c
  cases above <;> simp [up, location]

/-- A step depends only on what stands where it starts. -/
theorem exists_step {c c' d : Cursor} {part : String} (hl : c'.location = c.location)
    (hk : ∀ e, c.here = some e → e.kind = .directory →
      ∃ e', c'.here = some e' ∧ e'.kind = .directory)
    (hs : c.step part = .ok d) : ∃ d', c'.step part = .ok d' ∧ d'.location = d.location := by
  unfold step at hs
  split at hs
  · cases hs
  · cases hs
  · next entries hc =>
    obtain ⟨e', he', hk'⟩ := hk _ hc rfl
    cases e' with
    | file content => cases hk'
    | directory entries' =>
      rw [step, he']
      split at hs
      · cases hs
      · next h₁ =>
        simp only [if_neg h₁]
        split at hs
        · next h₂ => cases hs; exact ⟨c', if_pos h₂, hl⟩
        · next h₂ =>
          simp only [if_neg h₂]
          split at hs
          · next h₃ =>
            cases hs
            exact ⟨c'.up, if_pos h₃, by rw [location_up, location_up, hl]⟩
          · next h₃ =>
            cases hs
            refine ⟨_, if_neg h₃, ?_⟩
            simp only [location, List.map_cons, List.reverse_cons] at hl ⊢
            rw [hl]

/-- Where all directories of a tree are directories of another tree, a walk that ends in the one
ends at the same location in the other. -/
theorem exists_walk {root root' : Entry}
    (hd : ∀ here, root.kind? here = some .directory → root'.kind? here = some .directory)
    {c c' d : Cursor} {parts : List String} (hc : IsIn root c.above c.here)
    (hc' : IsIn root' c'.above c'.here) (hl : c'.location = c.location)
    (hw : c.walk parts = .ok d) : ∃ d', c'.walk parts = .ok d' ∧ d'.location = d.location := by
  induction parts generalizing c c' with
  | nil => cases hw; exact ⟨c', rfl, hl⟩
  | cons part rest ih =>
    rw [walk] at hw
    split at hw
    · cases hw
    · next e he =>
      have hk : ∀ e, c.here = some e → e.kind = .directory →
          ∃ e', c'.here = some e' ∧ e'.kind = .directory := by
        intro e hce hek
        have h₁ : root.get? c.location = c.here := get?_location hc
        have h₂ : root'.get? c'.location = c'.here := get?_location hc'
        have h₃ := hd c.location (by simp [Entry.kind?, h₁, hce, hek])
        rw [← hl, Entry.kind?, h₂] at h₃
        simpa using h₃
      obtain ⟨e', he', hle⟩ := exists_step hl hk he
      obtain ⟨d', hd', hld⟩ := ih (isIn_step hc he) (isIn_step hc' he') hle hw
      exact ⟨d', by rw [walk, he']; exact hd', hld⟩

end Cursor

end Presynth
