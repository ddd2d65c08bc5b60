import Presynth.Proofs.Timing.Annotation
/-!
# Bit slices as boundaries of timing

A slice starts and ends paths by the kind of the node that it selects from. That is one step along
fathers: the kind is taken as it stands, also where the father is a slice and itself times by the
kind of another node. So a slice of a register is a boundary like the register, but a slice of that
slice is none, and paths lead through it.

Main statements: `IsSliceOf.timingKind?_eq` (one step), `timingKind?_of_nested` (further steps) and
`timing_of_slices`.
-/

namespace Presynth

variable {α : Type}

theorem NodeKind.not_boundary_of_isSlice {kind : NodeKind} (h : kind.isSlice = true) :
    kind.launchesPaths = false ∧ kind.capturesPaths = false := by
  cases kind <;> first | exact ⟨rfl, rfl⟩ | cases h

namespace Netlist

variable {g : Netlist α} {name father root : String} {node : Node α}

/-! ### Chains of slices -/

variable (g) in
/-- `name` is a slice of what `father` names. -/
def IsSliceOf (name father : String) : Prop :=
  ∃ slice, g.node? name = some slice ∧ slice.kind.isSlice = true ∧ slice.father = some father

instance (g : Netlist α) : DecidableRel g.IsSliceOf := fun name father =>
  decidable_of_iff ((g.node? name).any fun slice =>
    slice.kind.isSlice && slice.father == some father) <| by
      simp [IsSliceOf, Option.any_eq_true]

variable (g) in
/-- `name` is a slice of `root`, or a slice of a slice of it, and so on. -/
abbrev SelectsFrom : String → String → Prop := Relation.TransGen g.IsSliceOf

/-- What selects is a slice. -/
theorem SelectsFrom.exists_slice (h : g.SelectsFrom name root) :
    ∃ slice, g.node? name = some slice ∧ slice.kind.isSlice = true := by
  obtain ⟨father, ⟨slice, hslice, hkind, -⟩, -⟩ := Relation.TransGen.head'_iff.mp h
  exact ⟨slice, hslice, hkind⟩

/-- A chain is one slice, or it goes on with a slice of a slice. -/
theorem SelectsFrom.cases_head (h : g.SelectsFrom name root) :
    g.IsSliceOf name root ∨ ∃ father, g.IsSliceOf name father ∧ g.SelectsFrom father root := by
  obtain ⟨father, hslice, hrest⟩ := Relation.TransGen.head'_iff.mp h
  rcases Relation.reflTransGen_iff_eq_or_transGen.mp hrest with rfl | hrest
  · exact .inl hslice
  · exact .inr ⟨father, hslice, hrest⟩

/-! ### The kind of a slice -/

/-- A slice times by the kind of the node that it selects from. -/
theorem IsSliceOf.timingKind?_eq (h : g.IsSliceOf name father)
    (hfather : g.node? father = some node) : g.timingKind? name = some node.kind := by
  obtain ⟨slice, hslice, hkind, hname⟩ := h
  rw [timingKind?_of_node? hslice, if_pos hkind, hname, Option.bind_some, hfather]
  rfl

/-- A slice of a slice times as a slice, whatever it selects from in the end. -/
theorem timingKind?_of_nested (h : g.SelectsFrom name root) (hnested : ¬ g.IsSliceOf name root) :
    ∃ kind, g.timingKind? name = some kind ∧ kind.isSlice = true := by
  obtain ⟨father, hslice, hrest⟩ := h.cases_head.resolve_left hnested
  obtain ⟨between, hbetween, hkind⟩ := hrest.exists_slice
  exact ⟨_, hslice.timingKind?_eq hbetween, hkind⟩

/-- What times as a slice starts no paths, and ends them only where nothing follows. -/
theorem not_boundary_of_timingKind? {kind : NodeKind} (h : g.timingKind? name = some kind)
    (hkind : kind.isSlice = true) :
    ¬ g.IsStartpoint name ∧ (g.IsEndpoint name ↔ g.neighbors name = []) := by
  obtain ⟨hlaunches, hcaptures⟩ := NodeKind.not_boundary_of_isSlice hkind
  constructor
  · rintro ⟨-, kind', hkind', hlaunch⟩
    obtain rfl : kind = kind' := Option.some.inj (h.symm.trans hkind')
    rw [hlaunches] at hlaunch
    cases hlaunch
  · refine or_iff_left ?_
    rintro ⟨kind', hkind', hcapture⟩
    obtain rfl : kind = kind' := Option.some.inj (h.symm.trans hkind')
    rw [hcaptures] at hcapture
    cases hcapture

/-- No path leads through a slice of what captures paths. -/
theorem Walk.not_isSliceOf {s e u : String} {between : List String} (w : g.Walk s between e)
    (hu : u ∈ between) (hnode : g.node? root = some node)
    (hcaptures : node.kind.capturesPaths = true) : ¬ g.IsSliceOf u root := fun hslice =>
  w.passing u hu (.inr ⟨_, hslice.timingKind?_eq hnode, hcaptures⟩)

/-- A slice times by the kind of what it selects from directly. Among the slices that select, over
any number of others, from a node that is no slice, the direct ones time by its kind, and these
only; the others start no paths and end them only where nothing follows. So no reported path leads
through a direct slice of what captures paths. -/
theorem timing_of_slices [Zero α] [Add α] [Sub α] [LT α] [DecidableLT α] (g : Netlist α) :
    (∀ name father node, g.IsSliceOf name father → g.node? father = some node →
      g.timingKind? name = some node.kind) ∧
    (∀ name root node, g.SelectsFrom name root → g.node? root = some node →
      node.kind.isSlice = false →
        (g.timingKind? name = some node.kind ↔ g.IsSliceOf name root) ∧
        (¬ g.IsSliceOf name root →
          ¬ g.IsStartpoint name ∧ (g.IsEndpoint name ↔ g.neighbors name = []))) ∧
    ∀ paths, g.timingPaths = .ok paths → ∀ path ∈ paths, ∃ s between e,
      path.nodes = s :: between ++ [e] ∧ ∀ u ∈ between, ∀ root node, g.node? root = some node →
        node.kind.capturesPaths = true → ¬ g.IsSliceOf u root := by
  refine ⟨fun name father node h hfather => h.timingKind?_eq hfather,
    fun name root node h hroot hkind => ⟨⟨fun htimes => ?_, fun h => h.timingKind?_eq hroot⟩,
      fun hnested => ?_⟩, fun paths hpaths path hpath => ?_⟩
  · -- were it not direct, it would time as a slice, and `root` is none
    by_contra hnested
    obtain ⟨kind, htimes', hslice⟩ := timingKind?_of_nested h hnested
    obtain rfl : node.kind = kind := Option.some.inj (htimes.symm.trans htimes')
    rw [hkind] at hslice
    cases hslice
  · obtain ⟨kind, htimes, hslice⟩ := timingKind?_of_nested h hnested
    exact not_boundary_of_timingKind? htimes hslice
  · obtain ⟨s, e, h⟩ := isPath_of_answer Scratch.tidy_fresh (q := .all) hpaths hpath
    obtain ⟨between, hnodes, walk, -⟩ := h.shape
    exact ⟨s, between, e, hnodes, fun u hu root node hroot hcaptures =>
      Walk.not_isSliceOf walk hu hroot hcaptures⟩

/-- An output `r`, a part of it, and a bit of that part. Register `a` feeds both slices, and both
feed register `q`. -/
def selected : Netlist Int :=
  let node (name : String) (kind : NodeKind) (father : Option String) : Node Int :=
    ⟨name, kind, none, father, some 1, none, 0⟩
  { registry := .ofList [("a", node "a" .Reg none), ("r", node "r" .Output none),
      ("p", node "p" .Partselect (some "r")), ("b", node "b" .Pointer (some "p")),
      ("q", node "q" .Reg none)]
    fanout := .ofList [("a", ["p", "b"]), ("p", ["q"]), ("b", ["q"])] }

/-- Paths end at the part, as they do at the output. -/
theorem timing_of_slices_part : selected.IsSliceOf "p" "r" ∧
    selected.timingKind? "p" = some .Output ∧
    ∃ paths, selected.timingPaths = .ok paths ∧
      paths.map (·.nodes) = [["a", "p"], ["a", "b", "q"]] ∧
      ∀ path ∈ paths, ∃ s between e, path.nodes = s :: between ++ [e] ∧
        ∀ u ∈ between, ¬ selected.IsSliceOf u "r" := by
  obtain ⟨hkind, -, hpath⟩ := selected.timing_of_slices
  have hslice : selected.IsSliceOf "p" "r" := by decide +kernel
  have houtput : selected.node? "r" = some ⟨"r", .Output, none, none, some 1, none, 0⟩ := by
    decide +kernel
  have hpaths : selected.timingPaths = .ok [⟨"a", "p", ["a", "p"], 2, .RegToOut⟩,
      ⟨"a", "q", ["a", "b", "q"], 3, .RegToReg⟩] := by
    decide +kernel
  refine ⟨hslice, hkind _ _ _ hslice houtput, _, hpaths, rfl, fun path hmem => ?_⟩
  obtain ⟨s, between, e, hnodes, hbetween⟩ := hpath _ hpaths path hmem
  exact ⟨s, between, e, hnodes, fun u hu => hbetween u hu _ _ houtput rfl⟩

/-- The bit selects from the output, too, by way of the part. It does not time as the part times but
by the kind of the part, and a path leads through it. -/
theorem selected_bit : selected.SelectsFrom "b" "r" ∧ selected.IsSliceOf "b" "p" ∧
    selected.timingKind? "p" = some .Output ∧ selected.timingKind? "b" = some .Partselect ∧
    selected.timingPaths = .ok [⟨"a", "p", ["a", "p"], 2, .RegToOut⟩,
      ⟨"a", "q", ["a", "b", "q"], 3, .RegToReg⟩] := by
  have hbit : selected.IsSliceOf "b" "p" := by decide +kernel
  have hpart : selected.IsSliceOf "p" "r" := by decide +kernel
  exact ⟨.tail (.single hbit) hpart, hbit, by decide +kernel, by decide +kernel,
    by decide +kernel⟩

end Netlist

end Presynth
