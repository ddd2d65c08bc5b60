import Presynth.Netlist.Width
import Presynth.Proofs.Walk
/-!
# Which widths can be inferred

What the inference of widths is to find, without reference to passes: an unresolved signal is
resolvable if it feeds something, and nothing of unknown width that is not resolvable. Its width is
the greatest one met on walks through signals of unknown width.

Main statements: `fanoutWidth?_eq_some_iff` (what one visit computes), `resolvable_iff` and
`meetsWidth_iff` (both notions by the first edge).
-/

namespace Presynth

variable {α : Type}

theorem Node.knownWidth?_ne_zero {node : Node α} {w : UInt32} (h : node.knownWidth? = some w) :
    w ≠ 0 := by
  obtain ⟨-, hpos⟩ := Option.filter_eq_some_iff.mp h
  intro hw
  subst hw
  exact absurd hpos (by decide)

theorem Node.knownWidth?_of_ne_zero (node : Node α) {w : UInt32} (h : w ≠ 0) :
    ({ node with width := some w } : Node α).knownWidth? = some w :=
  Option.filter_eq_some_iff.mpr ⟨rfl, decide_eq_true (UInt32.pos_iff_ne_zero.mpr h)⟩

/-! ### The greatest of some widths -/

/-- All of `names` have a width, and `w` is the greatest of these. -/
structure IsGreatestWidth (known : String → Option UInt32) (names : List String) (w : UInt32) :
    Prop where
  bound : ∀ v ∈ names, ∃ u, known v = some u ∧ u ≤ w
  attained : ∃ v ∈ names, known v = some w

/-- Each of two greatest widths is known of some name, and so it is no greater than the other. -/
theorem IsGreatestWidth.unique {known : String → Option UInt32} {names : List String}
    {w w' : UInt32} (h : IsGreatestWidth known names w) (h' : IsGreatestWidth known names w') :
    w = w' := by
  obtain ⟨v, hv, hw⟩ := h.attained
  obtain ⟨v', hv', hw'⟩ := h'.attained
  obtain ⟨u, hu, hle⟩ := h.bound v' hv'
  obtain ⟨u', hu', hle'⟩ := h'.bound v hv
  obtain rfl : w = u' := Option.some.inj (hw.symm.trans hu')
  obtain rfl : w' = u := Option.some.inj (hw'.symm.trans hu)
  exact UInt32.le_antisymm hle' hle

namespace Netlist

variable {g : Netlist α}

/-- The fold over some names bounds their widths, and is one of them or still zero. -/
theorem greatestWidth?_bound {names : List String} {w : UInt32}
    (h : g.greatestWidth? names = some w) :
    (∀ v ∈ names, ∃ u, g.knownWidth? v = some u ∧ u ≤ w) ∧
      (w = 0 ∨ ∃ v ∈ names, g.knownWidth? v = some w) := by
  -- on the names; the fold starts at zero, which is the width of none of them
  induction names generalizing w with
  | nil =>
      obtain rfl : 0 = w := Option.some.inj h
      exact ⟨by simp, Or.inl rfl⟩
  | cons name names ih =>
      obtain ⟨u, hu, h⟩ := Option.bind_eq_some_iff.mp h
      obtain ⟨others, hothers, h⟩ := Option.bind_eq_some_iff.mp h
      obtain ⟨hbound, hattained⟩ := ih hothers
      have hmax : (if u ≤ others then others else u) = w := Option.some.inj h
      by_cases hle : u ≤ others
      · rw [if_pos hle] at hmax
        subst hmax
        refine ⟨fun v hv => ?_, hattained.imp_right fun hv => ?_⟩
        · rcases List.mem_cons.mp hv with rfl | hv
          · exact ⟨u, hu, hle⟩
          · exact hbound v hv
        · obtain ⟨v, hv, hw⟩ := hv
          exact ⟨v, List.mem_cons_of_mem _ hv, hw⟩
      · rw [if_neg hle] at hmax
        subst hmax
        have hother : others ≤ u := (UInt32.le_total u others).resolve_left hle
        refine ⟨fun v hv => ?_, Or.inr ⟨name, List.mem_cons_self, hu⟩⟩
        rcases List.mem_cons.mp hv with rfl | hv
        · exact ⟨u, hu, UInt32.le_refl u⟩
        · obtain ⟨x, hx, hxle⟩ := hbound v hv
          exact ⟨x, hx, UInt32.le_trans hxle hother⟩

theorem exists_greatestWidth? {names : List String}
    (h : ∀ v ∈ names, ∃ u, g.knownWidth? v = some u) : ∃ w, g.greatestWidth? names = some w := by
  induction names with
  | nil => exact ⟨0, rfl⟩
  | cons name names ih =>
      obtain ⟨u, hu⟩ := h name List.mem_cons_self
      obtain ⟨w, hw⟩ := ih fun v hv => h v (List.mem_cons_of_mem _ hv)
      exact ⟨max u w, by simp [greatestWidth?, hu, hw]⟩

/-- A visit finds the greatest width among the signals that are fed, if all are known. -/
theorem fanoutWidth?_eq_some_iff {name : String} {w : UInt32} :
    g.fanoutWidth? name = some w ↔ IsGreatestWidth g.knownWidth? (g.neighbors name) w := by
  have hfound : ∀ {u}, g.fanoutWidth? name = some u →
      IsGreatestWidth g.knownWidth? (g.neighbors name) u := by
    intro u h
    unfold fanoutWidth? at h
    split at h
    · exact absurd h (by simp)
    · rename_i hfed
      obtain ⟨hbound, hattained⟩ := greatestWidth?_bound h
      refine ⟨hbound, ?_⟩
      rcases hattained with rfl | hattained
      · -- a width that is bounded by zero is zero
        obtain ⟨v, hv⟩ := List.exists_mem_of_ne_nil _ (by simpa using hfed)
        obtain ⟨x, hx, hle⟩ := hbound v hv
        exact ⟨v, hv, hx.trans (congrArg some (UInt32.le_antisymm hle (UInt32.zero_le)))⟩
      · exact hattained
  constructor
  · exact hfound
  · intro h
    obtain ⟨v, hv, -⟩ := h.attained
    obtain ⟨u, hu⟩ := exists_greatestWidth? fun v hv => (h.bound v hv).imp fun _ hx => hx.1
    have hu' : g.fanoutWidth? name = some u := by
      unfold fanoutWidth?
      rw [if_neg (by simpa using List.ne_nil_of_mem hv), hu]
    rw [hu', (hfound hu').unique h]

/-- A visit finds a width wherever something is fed and all that is fed has one. -/
theorem exists_fanoutWidth? {name : String} (hfed : g.neighbors name ≠ [])
    (h : ∀ v ∈ g.neighbors name, ∃ u, g.knownWidth? v = some u) :
    ∃ w, g.fanoutWidth? name = some w := by
  obtain ⟨w, hw⟩ := exists_greatestWidth? h
  refine ⟨w, ?_⟩
  unfold fanoutWidth?
  rw [if_neg (by simpa using hfed), hw]

/-! ### Unresolved and resolvable names -/

variable (g) in
/-- A node is registered under `name`, but its width is not known. -/
def Unresolved (name : String) : Prop := ∃ node, g.node? name = some node ∧ node.knownWidth? = none

variable (g) in
/-- The unresolved names that feed something, and nothing that is neither of known width nor
resolvable. -/
inductive Resolvable : String → Prop where
  | intro {name : String} (unresolved : g.Unresolved name) (fed : g.neighbors name ≠ [])
      (fanout : ∀ v ∈ g.neighbors name, g.knownWidth? v = none → Resolvable v) : Resolvable name

theorem Resolvable.unresolved {name : String} (h : g.Resolvable name) : g.Unresolved name := by
  cases h with
  | intro unresolved => exact unresolved

theorem Unresolved.knownWidth?_eq {name : String} (h : g.Unresolved name) :
    g.knownWidth? name = none := by
  obtain ⟨node, hnode, hwidth⟩ := h
  rw [knownWidth?, hnode]
  exact hwidth

/-- All that a resolvable name feeds is registered, and has a known width or is resolvable. -/
theorem resolvable_iff {name : String} :
    g.Resolvable name ↔ g.Unresolved name ∧ g.neighbors name ≠ [] ∧ ∀ v ∈ g.neighbors name,
      (∃ node, g.node? v = some node) ∧ (g.knownWidth? v ≠ none ∨ g.Resolvable v) := by
  constructor
  · intro h
    cases h with
    | intro unresolved fed fanout =>
        refine ⟨unresolved, fed, fun v hv => ?_⟩
        cases hw : g.knownWidth? v with
        | none =>
            obtain ⟨node, hnode, -⟩ := (fanout v hv hw).unresolved
            exact ⟨⟨node, hnode⟩, Or.inr (fanout v hv hw)⟩
        | some w =>
            obtain ⟨node, hnode, -⟩ := Option.bind_eq_some_iff.mp hw
            exact ⟨⟨node, hnode⟩, Or.inl (by simp)⟩
  · intro h
    obtain ⟨unresolved, fed, fanout⟩ := h
    exact .intro unresolved fed fun v hv hw => (fanout v hv).2.resolve_left (by simp [hw])

/-! ### Widths met on walks -/

variable (g) in
/-- `w` is the first known width on some walk from `name`. -/
def MeetsWidth (name : String) (w : UInt32) : Prop :=
  ∃ v, Reaches g.Feeds (fun u => g.knownWidth? u ≠ none) name v ∧ g.knownWidth? v = some w

/-- Widths are met at the next signal, or behind it if it has none. -/
theorem meetsWidth_iff {name : String} {w : UInt32} :
    g.MeetsWidth name w ↔ ∃ v ∈ g.neighbors name,
      g.knownWidth? v = some w ∨ (g.knownWidth? v = none ∧ g.MeetsWidth v w) := by
  constructor
  · intro h
    obtain ⟨e, hreach, hw⟩ := h
    obtain ⟨v, hf, rfl | ⟨hpass, hreach⟩⟩ := reaches_iff_first.mp hreach
    · exact ⟨v, hf, Or.inl hw⟩
    · exact ⟨v, hf, Or.inr ⟨not_not.mp hpass, e, hreach, hw⟩⟩
  · intro h
    obtain ⟨v, hf, hw | ⟨hnone, e, hreach, hw⟩⟩ := h
    · exact ⟨v, Reaches.of_feeds hf, hw⟩
    · exact ⟨e, (Reaches.of_feeds hf).trans (not_not.mpr hnone) hreach, hw⟩

variable (g) in
/-- `w` is the greatest width that is met first on walks from `name`. -/
structure IsGreatestMet (name : String) (w : UInt32) : Prop where
  met : g.MeetsWidth name w
  greatest : ∀ u, g.MeetsWidth name u → u ≤ w

end Netlist

end Presynth
