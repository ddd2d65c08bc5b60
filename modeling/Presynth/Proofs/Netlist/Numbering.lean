import Mathlib.Data.List.Nodup
import Presynth.Netlist.Interning
/-!
# The numbering of a netlist is one to one

Every name that occurs in a netlist has exactly one number, and every number stands for such a name.
What is computed on numbers can therefore be read back on names without loss.

Main statements: `numbering_name_inj` (no name has two numbers), `exists_numbering_name` (every
name that is registered, drives or is fed has a number) and `numbering_id?_eq_some_iff` (looking a
number up inverts reading its name).
-/

namespace Presynth

variable {α : Type}

namespace Netlist

/-! ### The list of interned names -/

theorem mem_intern {names : List String} {name other : String} :
    other ∈ intern names name ↔ other ∈ names ∨ other = name := by
  unfold intern
  split
  · rename_i h
    constructor
    · exact Or.inl
    · rintro (ho | rfl)
      · exact ho
      · exact h
  · simp

/-- A name that is known keeps its number, so no name has two. -/
theorem intern_nodup {names : List String} {name : String} (h : names.Nodup) :
    (intern names name).Nodup := by
  unfold intern
  split
  · exact h
  · rename_i hn
    exact List.nodup_append.mpr ⟨h, by simp, fun a ha b hb hab => by
      rw [List.mem_singleton] at hb
      exact hn (hb ▸ hab ▸ ha)⟩

theorem mem_foldl_intern {names acc : List String} {name : String} :
    name ∈ names.foldl intern acc ↔ name ∈ acc ∨ name ∈ names := by
  induction names generalizing acc with
  | nil => simp
  | cons hd tl ih => rw [List.foldl_cons, ih, mem_intern, List.mem_cons, or_assoc]

theorem foldl_intern_nodup {names acc : List String} (h : acc.Nodup) :
    (names.foldl intern acc).Nodup := by
  induction names generalizing acc with
  | nil => exact h
  | cons hd tl ih => exact ih (intern_nodup h)

theorem internedNames_nodup (g : Netlist α) : g.internedNames.Nodup :=
  foldl_intern_nodup List.nodup_nil

theorem mem_internedNames {g : Netlist α} {name : String} :
    name ∈ g.internedNames ↔ name ∈ g.signals ∨ ∃ node, g.node? name = some node := by
  rw [internedNames, mem_foldl_intern, List.mem_append, NameMap.mem_keys_iff]
  simp [node?]

theorem mem_signals_of_mem_neighbors {g : Netlist α} {u v : String} (h : v ∈ g.neighbors u) :
    u ∈ g.signals ∧ v ∈ g.signals := by
  unfold neighbors at h
  cases hu : g.fanout.get? u with
  | none => simp [hu] at h
  | some l =>
      have he : (u, l) ∈ g.fanout.toList := NameMap.mem_toList_iff.mpr hu
      rw [hu, Option.getD_some] at h
      exact ⟨mem_signals.mpr ⟨_, he, Or.inl rfl⟩, mem_signals.mpr ⟨_, he, Or.inr h⟩⟩

/-! ### Names and numbers -/

theorem numbering_name_inj (g : Netlist α) {i j : Fin g.internedSize}
    (h : g.numbering.name i = g.numbering.name j) : i = j :=
  Fin.ext ((List.Nodup.getElem_inj_iff g.internedNames_nodup).mp h)

/-- Every name of the netlist has a number. -/
theorem exists_numbering_name {g : Netlist α} {name : String} (h : name ∈ g.internedNames) :
    ∃ i, g.numbering.name i = name := by
  obtain ⟨i, hi, hname⟩ := List.getElem_of_mem h
  exact ⟨⟨i, hi⟩, hname⟩

theorem exists_numbering_name_of_node? {g : Netlist α} {name : String} {node : Node α}
    (h : g.node? name = some node) : ∃ i, g.numbering.name i = name :=
  exists_numbering_name (mem_internedNames.mpr (Or.inr ⟨node, h⟩))

theorem exists_numbering_name_of_mem_neighbors {g : Netlist α} {u v : String}
    (h : v ∈ g.neighbors u) : ∃ i, g.numbering.name i = v :=
  exists_numbering_name (mem_internedNames.mpr (Or.inl (mem_signals_of_mem_neighbors h).2))

theorem numbering_id? (g : Netlist α) (name : String) :
    g.numbering.id? name = g.internedNames.finIdxOf? name := by
  refine (Vector.finIdxOf?_mk _ name).trans ?_
  rw [List.finIdxOf?_toArray]
  exact congrFun Option.map_id _

/-- The number of a name is the one that stands for it. -/
theorem numbering_id?_eq_some_iff {g : Netlist α} {name : String} {i : Fin g.internedSize} :
    g.numbering.id? name = some i ↔ g.numbering.name i = name := by
  rw [numbering_id?]
  refine List.finIdxOf?_eq_some_iff.trans ⟨fun h => h.1, fun h => ⟨h, fun j hj hname => ?_⟩⟩
  -- an earlier occurrence of the name would be the same number
  have hij : j = i := numbering_name_inj g (hname.trans h.symm)
  exact absurd hj (hij ▸ Nat.lt_irrefl _)

end Netlist

end Presynth
