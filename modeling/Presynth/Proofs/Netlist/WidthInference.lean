import Presynth.Proofs.Netlist.Resolvable
/-!
# The inference of widths finds the least solution

A visit assigns a width as soon as all that a signal feeds has one, so the widths at hand depend on
the order of the visits. What does not is kept as an invariant: every unresolved signal is either
still waiting, unchanged, or it is resolvable and has the greatest width met on walks from it. A
pass that resolves nothing leaves no resolvable signal waiting, so in the end exactly the resolvable
signals have been assigned.

Main statements: `Inferring.assign` (one visit keeps the invariant), `Inferring.resolveWidths` (a
whole run) and `resolveWidths_least`.
-/

namespace Presynth

variable {α : Type}

namespace Netlist

/-- Every node is registered under its own name. -/
def KeyedByName (g : Netlist α) : Prop := ∀ name node, g.node? name = some node → node.name = name

/-! ### The unresolved names -/

theorem keyedByName_iff {g : Netlist α} :
    g.KeyedByName ↔ ∀ entry ∈ g.registry.toList, entry.2.name = entry.1 :=
  ⟨fun h entry hentry => h entry.1 entry.2 (NameMap.mem_toList_iff.mp hentry),
    fun h name node hnode => h (name, node) (NameMap.mem_toList_iff.mpr hnode)⟩

instance (g : Netlist α) : Decidable g.KeyedByName := decidable_of_iff _ keyedByName_iff.symm

/-- Where nodes are kept under their own names, the names to visit are the keys without a width. -/
theorem mem_unresolvedNames {g : Netlist α} (hkeys : g.KeyedByName) {name : String} :
    name ∈ g.unresolvedNames ↔ g.Unresolved name := by
  unfold unresolvedNames nodes NameMap.values
  rw [List.mem_map]
  constructor
  · intro h
    obtain ⟨node, hnode, rfl⟩ := h
    rw [List.mem_filter, List.mem_map] at hnode
    obtain ⟨⟨⟨key, node'⟩, hentry, rfl⟩, hwidth⟩ := hnode
    have hget : g.node? key = some node' := NameMap.mem_toList_iff.mp hentry
    rw [hkeys key node' hget]
    exact ⟨node', hget, by simpa using hwidth⟩
  · intro h
    obtain ⟨node, hget, hwidth⟩ := h
    refine ⟨node, ?_, hkeys name node hget⟩
    rw [List.mem_filter, List.mem_map]
    exact ⟨⟨(name, node), NameMap.mem_toList_iff.mpr hget, rfl⟩, by simpa using hwidth⟩

/-- The unresolved names are visited in name order. -/
theorem unresolvedNames_pairwise {g : Netlist α} (hkeys : g.KeyedByName) :
    g.unresolvedNames.Pairwise (· < ·) := by
  have hnames : g.nodes.map (·.name) = g.registry.keys := by
    unfold nodes NameMap.values NameMap.keys
    rw [List.map_map]
    exact List.map_congr_left (keyedByName_iff.mp hkeys)
  have hsorted : g.registry.keys.Pairwise (· < ·) := List.pairwise_map.mpr g.registry.sorted
  rw [← hnames] at hsorted
  exact hsorted.sublist (List.filter_sublist.map _)

theorem unresolvedNames_nodup {g : Netlist α} (hkeys : g.KeyedByName) :
    g.unresolvedNames.Nodup := (unresolvedNames_pairwise hkeys).imp String.ne_of_lt

/-! ### The invariant -/

/-- What holds of the netlist `net` that the inference on `g` has at hand, while the names `pending`
wait for a width. -/
structure Inferring (g net : Netlist α) (pending : List String) : Prop where
  fanout : net.fanout = g.fanout
  nodup : pending.Nodup
  waiting : ∀ name ∈ pending, g.Unresolved name ∧ net.node? name = g.node? name
  assigned : ∀ name, g.Unresolved name → name ∉ pending → g.Resolvable name ∧
    ∃ node w, g.node? name = some node ∧ net.node? name = some { node with width := some w } ∧
      w ≠ 0 ∧ g.IsGreatestMet name w
  others : ∀ name, ¬ g.Unresolved name → net.node? name = g.node? name

variable {g net : Netlist α} {pending : List String}

theorem Inferring.neighbors (h : Inferring g net pending) (name : String) :
    net.neighbors name = g.neighbors name := by
  unfold Netlist.neighbors
  rw [h.fanout]

/-- A known width is kept. -/
theorem Inferring.knownWidth?_of_known (h : Inferring g net pending) {v : String} {w : UInt32}
    (hw : g.knownWidth? v = some w) : net.knownWidth? v = some w := by
  have hnot : ¬ g.Unresolved v := fun hv => by simp [hv.knownWidth?_eq] at hw
  rw [knownWidth?, h.others v hnot]
  exact hw

/-- What does not wait any more has the greatest width that it meets. -/
theorem Inferring.knownWidth?_of_assigned (h : Inferring g net pending) {v : String}
    (hv : g.Unresolved v) (hnot : v ∉ pending) :
    ∃ w, net.knownWidth? v = some w ∧ g.IsGreatestMet v w := by
  obtain ⟨-, node, w, -, hnode, hzero, hmet⟩ := h.assigned v hv hnot
  refine ⟨w, ?_, hmet⟩
  rw [knownWidth?, hnode]
  exact node.knownWidth?_of_ne_zero hzero

/-- A width at hand was known, or it is the greatest one met from a resolvable name. -/
theorem Inferring.knownWidth?_cases (h : Inferring g net pending) {v : String} {w : UInt32}
    (hw : net.knownWidth? v = some w) :
    g.knownWidth? v = some w ∨
      (g.knownWidth? v = none ∧ g.Resolvable v ∧ g.IsGreatestMet v w) := by
  by_cases hv : g.Unresolved v
  · by_cases hmem : v ∈ pending
    · rw [knownWidth?, (h.waiting v hmem).2] at hw
      exact Or.inl hw
    · obtain ⟨w', hw', hmet⟩ := h.knownWidth?_of_assigned hv hmem
      obtain rfl : w = w' := Option.some.inj (hw.symm.trans hw')
      exact Or.inr ⟨hv.knownWidth?_eq, (h.assigned v hv hmem).1, hmet⟩
  · rw [knownWidth?, h.others v hv] at hw
    exact Or.inl hw

theorem Inferring.unchanged_of_not_resolvable (h : Inferring g net pending) {name : String}
    (hres : ¬ g.Resolvable name) :
    net.node? name = g.node? name := by
  by_cases hunres : g.Unresolved name
  · by_cases hmem : name ∈ pending
    · exact (h.waiting name hmem).2
    · exact absurd (h.assigned name hunres hmem).1 hres
  · exact h.others name hunres

/-! ### One visit -/

/-- A visit that finds a width finds the greatest one met, of a resolvable name. -/
theorem Inferring.visit (h : Inferring g net pending) {name : String} {w : UInt32}
    (hname : name ∈ pending) (hw : net.fanoutWidth? name = some w) :
    g.Resolvable name ∧ w ≠ 0 ∧ g.IsGreatestMet name w := by
  obtain ⟨hbound, v, hv, hattained⟩ := fanoutWidth?_eq_some_iff.mp hw
  rw [h.neighbors] at hbound hv
  refine ⟨.intro (h.waiting name hname).1 (List.ne_nil_of_mem hv) fun u hu hnone => ?_, ?_, ?_, ?_⟩
  · -- what is fed has a width at hand, so it is resolvable if that was not known at first
    obtain ⟨x, hx, -⟩ := hbound u hu
    rcases h.knownWidth?_cases hx with hx | hx
    · exact absurd hx (by simp [hnone])
    · exact hx.2.1
  · obtain ⟨node, -, hnode⟩ := Option.bind_eq_some_iff.mp hattained
    exact node.knownWidth?_ne_zero hnode
  · rw [meetsWidth_iff]
    refine ⟨v, hv, ?_⟩
    rcases h.knownWidth?_cases hattained with hx | hx
    · exact Or.inl hx
    · exact Or.inr ⟨hx.1, hx.2.2.met⟩
  · intro u hu
    obtain ⟨v', hv', hu⟩ := meetsWidth_iff.mp hu
    obtain ⟨x, hx, hle⟩ := hbound v' hv'
    rcases h.knownWidth?_cases hx with hx | hx
    · -- no walk goes on at a known width
      rcases hu with hu | hu
      · obtain rfl : x = u := Option.some.inj (hx.symm.trans hu)
        exact hle
      · exact absurd hu.1 (by simp [hx])
    · rcases hu with hu | hu
      · exact absurd hu (by simp [hx.1])
      · exact UInt32.le_trans (hx.2.2.greatest u hu.2) hle

theorem node?_setWidth (net : Netlist α) (name other : String) (w : UInt32) :
    (net.setWidth name w).node? other =
      if name = other then (net.node? other).map fun node => { node with width := some w }
      else net.node? other :=
  node?_modifyNode net name other _

/-- A name that is assigned does not wait any more. -/
theorem Inferring.assign {kept rest : List String} {name : String} {w : UInt32}
    (h : Inferring g net (kept ++ name :: rest)) (hw : net.fanoutWidth? name = some w) :
    Inferring g (net.setWidth name w) (kept ++ rest) := by
  have hname : name ∈ kept ++ name :: rest := by simp
  obtain ⟨hresolvable, hzero, hmet⟩ := h.visit hname hw
  obtain ⟨hunresolved, hsame⟩ := h.waiting name hname
  have hnodup : (name :: (kept ++ rest)).Nodup := List.perm_middle.nodup_iff.mp h.nodup
  obtain ⟨hnot, hnodup⟩ := List.nodup_cons.mp hnodup
  have hmem : ∀ other, other ∈ kept ++ name :: rest ↔ other = name ∨ other ∈ kept ++ rest := by
    intro other
    rw [List.perm_middle.mem_iff, List.mem_cons]
  have hother : ∀ other, name ≠ other → (net.setWidth name w).node? other = net.node? other := by
    intro other hne
    rw [node?_setWidth, if_neg hne]
  -- `name` alone goes from those that wait to those that are assigned
  refine ⟨h.fanout, hnodup, fun other hin => ?_, fun other hother' hout => ?_, fun other hres => ?_⟩
  · obtain ⟨hunres, hkeep⟩ := h.waiting other ((hmem other).mpr (Or.inr hin))
    rw [hother other fun hne => hnot (hne ▸ hin)]
    exact ⟨hunres, hkeep⟩
  · by_cases hne : name = other
    · subst hne
      obtain ⟨node, hnode, -⟩ := hunresolved
      refine ⟨hresolvable, node, w, hnode, ?_, hzero, hmet⟩
      rw [node?_setWidth, if_pos rfl, hsame, hnode, Option.map_some]
    · rw [hother other hne]
      refine h.assigned other hother' fun hin => ?_
      rcases (hmem other).mp hin with heq | hin
      · exact hne heq.symm
      · exact hout hin
  · rw [hother other fun hne => hres (hne ▸ hunresolved)]
    exact h.others other hres

/-! ### One pass -/

/-- A pass goes through the names one by one, and what is kept so far waits for the next pass. -/
theorem Inferring.widthPass (kept : List String) {names : List String}
    (h : Inferring g net (kept ++ names)) :
    Inferring g (net.widthPass names).1 (kept ++ (net.widthPass names).2) := by
  induction names generalizing net kept with
  | nil => exact h
  | cons name rest ih =>
      rw [Netlist.widthPass]
      cases hw : net.fanoutWidth? name with
      | some w => exact ih kept (h.assign hw)
      | none =>
          have hkept := ih (kept ++ [name]) (by rwa [List.append_assoc])
          rwa [List.append_assoc] at hkept

/-- The names that still wait after a pass keep their order. -/
theorem widthPass_sublist (net : Netlist α) (names : List String) :
    (net.widthPass names).2.Sublist names := by
  induction names generalizing net with
  | nil => exact List.Sublist.refl []
  | cons name rest ih =>
      rw [Netlist.widthPass]
      cases net.fanoutWidth? name with
      | some w => exact (ih _).cons name
      | none => exact (ih net).cons_cons name

/-- A pass that resolves nothing found no width at any name, and changes nothing. -/
theorem widthPass_of_stalled {names : List String}
    (h : ¬ (net.widthPass names).2.length < names.length) :
    net.widthPass names = (net, names) ∧ ∀ name ∈ names, net.fanoutWidth? name = none := by
  induction names with
  | nil => exact ⟨rfl, by simp⟩
  | cons name rest ih =>
      rw [Netlist.widthPass] at h ⊢
      cases hw : net.fanoutWidth? name with
      | some w =>
          rw [hw] at h
          have hle := (net.setWidth name w).length_widthPass_le rest
          exact absurd (Nat.lt_succ_of_le hle) h
      | none =>
          rw [hw] at h
          obtain ⟨hpass, hnone⟩ := ih fun hlt => h (Nat.succ_lt_succ hlt)
          refine ⟨by rw [hpass], fun other hother => ?_⟩
          rcases List.mem_cons.mp hother with rfl | hother
          · exact hw
          · exact hnone other hother

/-- Where no visit finds a width, nothing that waits is resolvable: a resolvable name feeds names
that do not wait, by induction on why it is resolvable. -/
theorem Inferring.not_resolvable (h : Inferring g net pending)
    (hstalled : ∀ name ∈ pending, net.fanoutWidth? name = none) :
    ∀ name ∈ pending, ¬ g.Resolvable name := by
  intro name hname hres
  induction hres with
  | @intro name unresolved fed fanout ih =>
      have hknown : ∀ v ∈ net.neighbors name, ∃ u, net.knownWidth? v = some u := by
        intro v hv
        rw [h.neighbors] at hv
        cases hw : g.knownWidth? v with
        | some w => exact ⟨w, h.knownWidth?_of_known hw⟩
        | none =>
            obtain ⟨w, hw', -⟩ :=
              h.knownWidth?_of_assigned (fanout v hv hw).unresolved (ih v hv hw)
            exact ⟨w, hw'⟩
      obtain ⟨w, hw⟩ := exists_fanoutWidth? ((h.neighbors name).symm ▸ fed) hknown
      exact absurd hw (by simp [hstalled name hname])

/-! ### A whole run -/

/-- A run ends with all names assigned, or with just those waiting that are not resolvable. -/
theorem Inferring.resolveWidths {names : List String} (h : Inferring g net names)
    (report : WidthReport) :
    ∃ pending, Inferring g (net.resolveWidths names report).2 pending ∧
      pending.Sublist names ∧ (∀ name ∈ pending, ¬ g.Resolvable name) ∧
      ((pending = [] ∧ ∃ passes, (net.resolveWidths names report).1 =
          .ok ⟨report.inferred + names.length, passes⟩) ∨
        (pending ≠ [] ∧ ∃ passes, (net.resolveWidths names report).1 =
          .error ⟨pending, passes⟩)) := by
  -- along the recursion of the run: nothing waits, a pass resolves some names, or it resolves none
  induction net, names, report using Netlist.resolveWidths.induct with
  | case1 net names report hempty =>
      obtain rfl : names = [] := by simpa using hempty
      rw [Netlist.resolveWidths, if_pos hempty]
      exact ⟨[], h, List.Sublist.refl [], by simp, Or.inl ⟨rfl, report.passes, rfl⟩⟩
  | case2 net names report hempty next hlt ih =>
      have hpass : Inferring g next.1 next.2 := h.widthPass []
      obtain ⟨pending, hinf, hsub, hres, hend⟩ := ih hpass
      rw [Netlist.resolveWidths, if_neg hempty, dif_pos hlt]
      refine ⟨pending, hinf, hsub.trans (net.widthPass_sublist names), hres, ?_⟩
      refine hend.imp_left fun hok => ⟨hok.1, ?_⟩
      obtain ⟨passes, hok⟩ := hok.2
      refine ⟨passes, hok.trans ?_⟩
      have hle : next.2.length ≤ names.length := Nat.le_of_lt hlt
      rw [Nat.add_assoc, Nat.sub_add_cancel hle]
  | case3 net names report hempty next hge =>
      obtain ⟨hpass, hnone⟩ := widthPass_of_stalled hge
      rw [Netlist.resolveWidths, if_neg hempty, dif_neg hge, hpass]
      refine ⟨names, h, List.Sublist.refl _, h.not_resolvable hnone, Or.inr ⟨?_, _, rfl⟩⟩
      simpa using hempty

/-- At first all unresolved names wait. -/
theorem inferring_start {names : List String} (hkeys : g.KeyedByName)
    (hnames : names.Perm g.unresolvedNames) : Inferring g g names where
  fanout := rfl
  nodup := hnames.nodup_iff.mpr (unresolvedNames_nodup hkeys)
  waiting := fun _ hname =>
    ⟨(mem_unresolvedNames hkeys).mp (hnames.mem_iff.mp hname), rfl⟩
  assigned := fun _ hres hnot =>
    absurd (hnames.mem_iff.mpr ((mem_unresolvedNames hkeys).mpr hres)) hnot
  others := fun _ _ => rfl

/-! ### The end of a run -/

section End

variable (h : Inferring g net pending) (hend : ∀ name ∈ pending, ¬ g.Resolvable name)
include h hend

/-- In the end a resolvable name is assigned. -/
theorem Inferring.assigned_of_resolvable {name : String} (hres : g.Resolvable name) :
    ∃ node w, g.node? name = some node ∧ net.node? name = some { node with width := some w } ∧
      w ≠ 0 ∧ g.IsGreatestMet name w :=
  (h.assigned name hres.unresolved fun hmem => hend name hmem hres).2

/-- When nothing moves any more, the names that are left are those that cannot be resolved at all.
-/
theorem Inferring.mem_pending_iff {name : String} :
    name ∈ pending ↔ g.Unresolved name ∧ ¬ g.Resolvable name := by
  constructor
  · intro hmem
    exact ⟨(h.waiting name hmem).1, hend name hmem⟩
  · intro hname
    by_contra hnot
    exact hname.2 (h.assigned name hname.1 hnot).1

/-- In the end the greatest width met from a resolvable name is the greatest of what it feeds. -/
theorem Inferring.isGreatestWidth_of_met {name : String} {w : UInt32} (hres : g.Resolvable name)
    (hmet : g.IsGreatestMet name w) :
    IsGreatestWidth net.knownWidth? (g.neighbors name) w := by
  obtain ⟨-, -, hfanout⟩ := resolvable_iff.mp hres
  -- what a name that is fed has is met first on its edge or behind it
  have hbound : ∀ v ∈ g.neighbors name, ∃ u, net.knownWidth? v = some u ∧ u ≤ w ∧
      (g.knownWidth? v = none → g.IsGreatestMet v u) := by
    intro v hv
    cases hw : g.knownWidth? v with
    | some u =>
        have hmeets : g.MeetsWidth name u := meetsWidth_iff.mpr ⟨v, hv, Or.inl hw⟩
        exact ⟨u, h.knownWidth?_of_known hw, hmet.greatest u hmeets, by simp⟩
    | none =>
        have hv' : g.Resolvable v := (hfanout v hv).2.resolve_left (by simp [hw])
        obtain ⟨u, hu, hmetv⟩ :=
          h.knownWidth?_of_assigned hv'.unresolved fun hmem => hend v hmem hv'
        have hmeets : g.MeetsWidth name u :=
          meetsWidth_iff.mpr ⟨v, hv, Or.inr ⟨hw, hmetv.met⟩⟩
        exact ⟨u, hu, hmet.greatest u hmeets, fun _ => hmetv⟩
  refine ⟨fun v hv => ?_, ?_⟩
  · obtain ⟨u, hu, hle, -⟩ := hbound v hv
    exact ⟨u, hu, hle⟩
  · obtain ⟨v, hv, hw | ⟨hnone, hmeets⟩⟩ := meetsWidth_iff.mp hmet.met
    · exact ⟨v, hv, h.knownWidth?_of_known hw⟩
    · obtain ⟨u, hu, hle, hmetv⟩ := hbound v hv
      obtain rfl : u = w := UInt32.le_antisymm hle ((hmetv hnone).greatest w hmeets)
      exact ⟨v, hv, hu⟩

end End

/-- Two runs on one netlist end in the same one. -/
theorem Inferring.unique {net' : Netlist α} {pending' : List String}
    (h : Inferring g net pending) (hend : ∀ name ∈ pending, ¬ g.Resolvable name)
    (h' : Inferring g net' pending') (hend' : ∀ name ∈ pending', ¬ g.Resolvable name) :
    net = net' := by
  have hnode : ∀ name, net.node? name = net'.node? name := by
    intro name
    by_cases hres : g.Resolvable name
    · obtain ⟨node, w, hnode, hw, -, hmet⟩ := h.assigned_of_resolvable hend hres
      obtain ⟨node', w', hnode', hw', -, hmet'⟩ := h'.assigned_of_resolvable hend' hres
      obtain rfl : node = node' := Option.some.inj (hnode.symm.trans hnode')
      obtain rfl : w = w' :=
        UInt32.le_antisymm (hmet'.greatest w hmet.met) (hmet.greatest w' hmet'.met)
      rw [hw, hw']
    · rw [h.unchanged_of_not_resolvable hres, h'.unchanged_of_not_resolvable hres]
  have hregistry : net.registry = net'.registry := NameMap.ext_get? hnode
  have hfanout : net.fanout = net'.fanout := h.fanout.trans h'.fanout.symm
  cases net
  cases net'
  simp_all

/-! ### The least solution -/

variable (g) in
/-- Widths that keep what is known, and give each unresolved name the greatest width that it feeds
as soon as all that it feeds has one. -/
structure IsWidthSolution (known : String → Option UInt32) : Prop where
  keeps : ∀ name w, g.knownWidth? name = some w → known name = some w
  closed : ∀ name w, g.Unresolved name → IsGreatestWidth known (g.neighbors name) w →
    known name = some w

/-- In the end the widths at hand are a solution. -/
theorem Inferring.isWidthSolution (h : Inferring g net pending)
    (hend : ∀ name ∈ pending, ¬ g.Resolvable name) : g.IsWidthSolution net.knownWidth? := by
  refine ⟨fun name w hw => h.knownWidth?_of_known hw, fun name w hunres hw => ?_⟩
  obtain ⟨v, hv, -⟩ := hw.attained
  have hres : g.Resolvable name := by
    refine .intro hunres (List.ne_nil_of_mem hv) fun u hu hnone => ?_
    obtain ⟨x, hx, -⟩ := hw.bound u hu
    rcases h.knownWidth?_cases hx with hx | hx
    · exact absurd hx (by simp [hnone])
    · exact hx.2.1
  obtain ⟨u, hu, hmet⟩ := h.knownWidth?_of_assigned hunres fun hmem => hend name hmem hres
  rw [hu, hw.unique (h.isGreatestWidth_of_met hend hres hmet)]

/-- Every solution has the widths that the inference ends with. -/
theorem Inferring.le_solution (h : Inferring g net pending)
    (hend : ∀ name ∈ pending, ¬ g.Resolvable name) {known : String → Option UInt32}
    (hknown : g.IsWidthSolution known) {name : String} {w : UInt32}
    (hw : net.knownWidth? name = some w) : known name = some w := by
  -- by induction on why a name is resolvable: what it feeds has its width in every solution
  have hresolved : ∀ name, g.Resolvable name → ∀ w, net.knownWidth? name = some w →
      known name = some w := by
    intro name hres
    induction hres with
    | @intro name unresolved fed fanout ih =>
        intro w hw
        have hres : g.Resolvable name := .intro unresolved fed fanout
        obtain ⟨u, hu, hmet⟩ :=
          h.knownWidth?_of_assigned unresolved fun hmem => hend name hmem hres
        obtain rfl : u = w := Option.some.inj (hu.symm.trans hw)
        have hgreatest := h.isGreatestWidth_of_met hend hres hmet
        have hfed : ∀ v ∈ g.neighbors name, ∀ x, net.knownWidth? v = some x →
            known v = some x := by
          intro v hv x hx
          rcases h.knownWidth?_cases hx with hk | hk
          · exact hknown.keeps v x hk
          · exact ih v hv hk.1 x hx
        refine hknown.closed name u unresolved ⟨fun v hv => ?_, ?_⟩
        · obtain ⟨x, hx, hle⟩ := hgreatest.bound v hv
          exact ⟨x, hfed v hv x hx, hle⟩
        · obtain ⟨v, hv, hx⟩ := hgreatest.attained
          exact ⟨v, hv, hfed v hv u hx⟩
  rcases h.knownWidth?_cases hw with hk | hk
  · exact hknown.keeps name w hk
  · exact hresolved name hk.2.1 w hw

/-- Whatever the order of the unresolved names, the inference ends with the same netlist: each
resolvable name has the greatest width that it meets, which is the greatest width of what it feeds
in the end, and nothing else has changed. It is complete exactly if all unresolved names are
resolvable; else the others are reported in the order of the visits. -/
theorem resolveWidths_least (g : Netlist α) (hkeys : g.KeyedByName) {names : List String}
    (hnames : names.Perm g.unresolvedNames) :
    names.Nodup ∧ (∀ name, name ∈ names ↔ g.Unresolved name) ∧
    ∃ result net, g.resolveWidths names ⟨0, 0⟩ = (result, net) ∧ g.inferWidths.2 = net ∧
      net.fanout = g.fanout ∧
      (∀ name, g.Resolvable name → ∃ node w, g.node? name = some node ∧
        net.node? name = some { node with width := some w } ∧ w ≠ 0 ∧
        IsGreatestWidth net.knownWidth? (net.neighbors name) w ∧ g.IsGreatestMet name w) ∧
      (∀ name, ¬ g.Resolvable name → net.node? name = g.node? name) ∧
      g.IsWidthSolution net.knownWidth? ∧
      (∀ known, g.IsWidthSolution known →
        ∀ name w, net.knownWidth? name = some w → known name = some w) ∧
      ((∃ passes, result = .ok ⟨names.length, passes⟩) ↔ ∀ name ∈ names, g.Resolvable name) ∧
      ((¬ ∀ name ∈ names, g.Resolvable name) →
        ∃ stall, result = .error stall ∧ stall.unresolved.Sublist names ∧
          ∀ name, name ∈ stall.unresolved ↔ name ∈ names ∧ ¬ g.Resolvable name) := by
  have hstart := inferring_start hkeys hnames
  have hmem : ∀ name, name ∈ names ↔ g.Unresolved name := fun name => by
    rw [hnames.mem_iff, mem_unresolvedNames hkeys]
  obtain ⟨pending, hinf, hsub, hend, hresult⟩ := hstart.resolveWidths ⟨0, 0⟩
  -- the names in their own order lead to the same netlist, since the invariant pins it down
  obtain ⟨pending', hinf', -, hend', -⟩ :=
    (inferring_start hkeys (List.Perm.refl _)).resolveWidths ⟨0, 0⟩
  have hpending : ∀ name, name ∈ pending ↔ name ∈ names ∧ ¬ g.Resolvable name := fun name => by
    rw [hinf.mem_pending_iff hend, hmem]
  refine ⟨hstart.nodup, hmem, _, _, rfl, hinf'.unique hend' hinf hend, hinf.fanout,
    fun name hres => ?_, fun name => hinf.unchanged_of_not_resolvable,
    hinf.isWidthSolution hend, fun known hknown name w => hinf.le_solution hend hknown, ?_,
    fun hnot => ?_⟩
  · obtain ⟨node, w, hnode, hw, hzero, hmet⟩ := hinf.assigned_of_resolvable hend hres
    refine ⟨node, w, hnode, hw, hzero, ?_, hmet⟩
    rw [hinf.neighbors]
    exact hinf.isGreatestWidth_of_met hend hres hmet
  · rcases hresult with ⟨rfl, passes, hok⟩ | ⟨hne, passes, herror⟩
    · refine iff_of_true ⟨passes, ?_⟩ fun name hname => ?_
      · rw [hok, Nat.zero_add]
      · by_contra hnot
        exact absurd ((hpending name).mpr ⟨hname, hnot⟩) List.not_mem_nil
    · obtain ⟨name, hname⟩ := List.exists_mem_of_ne_nil _ hne
      refine iff_of_false (fun h => ?_) fun h => ?_
      · obtain ⟨passes', hok⟩ := h
        rw [herror] at hok
        cases hok
      · exact ((hpending name).mp hname).2 (h name ((hpending name).mp hname).1)
  · rcases hresult with ⟨rfl, passes, -⟩ | ⟨-, passes, herror⟩
    · refine absurd (fun name hname => ?_) hnot
      by_contra hres
      exact absurd ((hpending name).mpr ⟨hname, hres⟩) List.not_mem_nil
    · exact ⟨⟨pending, passes⟩, herror, hsub, hpending⟩

/-- Gates in front of an output and of a gate that feeds itself. -/
def stalling : Netlist Int :=
  let node (name : String) (kind : NodeKind) (width : Option UInt32) : Node Int :=
    ⟨name, kind, width, none, none, none, 0⟩
  let g := [node "q" .Output (some 8), node "p" .Operator none, node "l" .Operator (some 0),
    node "m" .Concat none].foldl register .empty
  [("p", "q"), ("l", "l"), ("m", "p"), ("m", "l")].foldl (fun g edge => g.connect edge.1 edge.2) g

/-- The gate in front of the output is resolved, though it is not alone in waiting. -/
theorem resolveWidths_least_stalling :
    stalling.KeyedByName ∧ ["p", "m", "l"].Perm stalling.unresolvedNames ∧
      ∃ net, stalling.resolveWidths ["p", "m", "l"] ⟨0, 0⟩ = (.error ⟨["m", "l"], 2⟩, net) ∧
        stalling.inferWidths.2 = net ∧
        ∀ name, name ∈ ["m", "l"] ↔ name ∈ ["p", "m", "l"] ∧ ¬ stalling.Resolvable name := by
  have hkeys : stalling.KeyedByName := by decide +kernel
  have hnames : ["p", "m", "l"].Perm stalling.unresolvedNames := by decide +kernel
  obtain ⟨-, -, result, net, hrun, hinfer, -, -, -, -, -, hok, hstall⟩ :=
    stalling.resolveWidths_least hkeys hnames
  have hresult : (stalling.resolveWidths ["p", "m", "l"] ⟨0, 0⟩).1 = .error ⟨["m", "l"], 2⟩ := by
    decide +kernel
  rw [hrun] at hresult
  subst hresult
  obtain ⟨stall, herror, -, hmem⟩ := hstall fun h => by
    obtain ⟨passes, h⟩ := hok.mpr h
    cases h
  cases herror
  exact ⟨hkeys, hnames, net, hrun, hinfer, hmem⟩

end Netlist

end Presynth
