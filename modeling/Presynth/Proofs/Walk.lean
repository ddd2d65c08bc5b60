import Mathlib.Data.Fintype.Card
import Mathlib.Data.List.Chain
import Mathlib.Logic.Relation
import Presynth.Netlist.Basic
/-!
# Walks that do not go on at a stop

Timing follows signals to what they feed and does not go on at an endpoint; widths are looked for in
what a signal feeds, and not behind a signal of known width. This module is about such walks in any
directed graph: `feeds u v` says that `u` feeds `v`, and `stops u` that no walk goes on at `u`. A
walk may start at a stop and end at one.

Main statements: `Walk.append_cons_iff` (a walk splits at every signal that it passes),
`settled_iff` (over finitely many signals, what an inductive peeling settles is what no loop of
passed signals leads to) and `Settled.nodup` (a walk to a settled signal visits nothing twice).
-/

namespace Presynth

variable {V W : Type} {feeds : V → V → Prop} {stops : V → Prop}

/-- A walk from `s` to `e` of at least one edge that passes the signals `between`, none of which is
a stop. -/
structure Walk (feeds : V → V → Prop) (stops : V → Prop) (s : V) (between : List V) (e : V) :
    Prop where
  /-- Each signal feeds the next. -/
  linked : (s :: between ++ [e]).IsChain feeds
  /-- What is passed is no stop. -/
  passing : ∀ u ∈ between, ¬ stops u

instance [DecidableRel feeds] [DecidablePred stops] (s : V) (between : List V) (e : V) :
    Decidable (Walk feeds stops s between e) :=
  decidable_of_iff ((s :: between ++ [e]).IsChain feeds ∧ ∀ u ∈ between, ¬ stops u)
    ⟨fun h => ⟨h.1, h.2⟩, fun h => ⟨h.linked, h.passing⟩⟩

/-- Some walk leads from `s` to `e`. -/
def Reaches (feeds : V → V → Prop) (stops : V → Prop) (s e : V) : Prop :=
  ∃ between, Walk feeds stops s between e

/-- A walk from `s` to `e` may pass a signal on a loop: a loop of signals that are no stops. -/
def BehindLoop (feeds : V → V → Prop) (stops : V → Prop) (s e : V) : Prop :=
  ∃ c, ¬ stops c ∧ Reaches feeds stops s c ∧ Reaches feeds stops c c ∧ Reaches feeds stops c e

/-- The signals that are reached from `s` and whose drivers, as far as walks from `s` pass them,
are all settled before. -/
inductive Settled (feeds : V → V → Prop) (stops : V → Prop) (s : V) : V → Prop where
  | intro {v : V} (reached : Reaches feeds stops s v)
      (drivers : ∀ u, Reaches feeds stops s u → ¬ stops u → feeds u v → Settled feeds stops s u) :
      Settled feeds stops s v

/-! ### Composing and splitting walks -/

theorem Walk.nil_iff {s e : V} : Walk feeds stops s [] e ↔ feeds s e :=
  ⟨fun h => by simpa using h.linked, fun h => ⟨by simpa using h, by simp⟩⟩

/-- A walk splits at every signal that it passes. -/
theorem Walk.append_cons_iff {s u e : V} {l₁ l₂ : List V} :
    Walk feeds stops s (l₁ ++ u :: l₂) e ↔
      Walk feeds stops s l₁ u ∧ ¬ stops u ∧ Walk feeds stops u l₂ e := by
  have hlist : s :: (l₁ ++ u :: l₂) ++ [e] = (s :: l₁) ++ u :: (l₂ ++ [e]) := by simp
  constructor
  · rintro ⟨hl, hp⟩
    rw [hlist, List.isChain_split] at hl
    refine ⟨⟨hl.1, fun w hw => hp w (by simp [hw])⟩, hp u (by simp), ⟨hl.2, fun w hw => ?_⟩⟩
    exact hp w (by simp [hw])
  · rintro ⟨h₁, hu, h₂⟩
    refine ⟨?_, fun w hw => ?_⟩
    · rw [hlist, List.isChain_split]
      exact ⟨h₁.linked, h₂.linked⟩
    · rcases List.mem_append.mp hw with hw | hw
      · exact h₁.passing w hw
      · rcases List.mem_cons.mp hw with rfl | hw
        · exact hu
        · exact h₂.passing w hw

theorem Walk.append_singleton_iff {s u e : V} {l : List V} :
    Walk feeds stops s (l ++ [u]) e ↔ Walk feeds stops s l u ∧ ¬ stops u ∧ feeds u e := by
  rw [Walk.append_cons_iff, Walk.nil_iff]

/-- Induction along a walk from its start, one passed signal at a time. -/
theorem Walk.induction_on {s : V} {motive : (l : List V) → (e : V) → Walk feeds stops s l e → Prop}
    (first : ∀ v (hf : feeds s v), motive [] v (Walk.nil_iff.mpr hf))
    (onward : ∀ l u v (w : Walk feeds stops s l u) (hu : ¬ stops u) (hf : feeds u v),
      motive l u w → motive (l ++ [u]) v (Walk.append_singleton_iff.mpr ⟨w, hu, hf⟩))
    {l : List V} {e : V} (w : Walk feeds stops s l e) : motive l e w := by
  induction l using List.reverseRecOn generalizing e with
  | nil => exact first e (Walk.nil_iff.mp w)
  | append_singleton l u ih =>
      obtain ⟨hu, hpass, hf⟩ := Walk.append_singleton_iff.mp w
      exact onward l u e hu hpass hf (ih hu)

/-- What a walk passes is reached from its start, is no stop and reaches its end. -/
theorem Walk.of_mem {s u e : V} {l : List V} (w : Walk feeds stops s l e) (hu : u ∈ l) :
    Reaches feeds stops s u ∧ ¬ stops u ∧ Reaches feeds stops u e := by
  obtain ⟨l₁, l₂, rfl⟩ := List.append_of_mem hu
  obtain ⟨w₁, hs, w₂⟩ := Walk.append_cons_iff.mp w
  exact ⟨⟨l₁, w₁⟩, hs, ⟨l₂, w₂⟩⟩

theorem Reaches.of_feeds {s e : V} (h : feeds s e) : Reaches feeds stops s e :=
  ⟨[], Walk.nil_iff.mpr h⟩

theorem Reaches.trans {s u e : V} (h₁ : Reaches feeds stops s u) (hu : ¬ stops u)
    (h₂ : Reaches feeds stops u e) : Reaches feeds stops s e := by
  obtain ⟨l₁, w₁⟩ := h₁
  obtain ⟨l₂, w₂⟩ := h₂
  exact ⟨l₁ ++ u :: l₂, Walk.append_cons_iff.mpr ⟨w₁, hu, w₂⟩⟩

theorem Reaches.onward {s u v : V} (h : Reaches feeds stops s u) (hu : ¬ stops u)
    (hf : feeds u v) : Reaches feeds stops s v :=
  h.trans hu (Reaches.of_feeds hf)

/-- The last edge to a signal that is reached comes from the start or from a signal passed. -/
theorem reaches_iff_last {s v : V} :
    Reaches feeds stops s v ↔
      feeds s v ∨ ∃ u, Reaches feeds stops s u ∧ ¬ stops u ∧ feeds u v := by
  constructor
  · intro h
    obtain ⟨l, w⟩ := h
    induction w using Walk.induction_on with
    | first v hf => exact Or.inl hf
    | onward l u v w hu hf _ => exact Or.inr ⟨u, ⟨l, w⟩, hu, hf⟩
  · intro h
    rcases h with hf | ⟨u, hr, hu, hf⟩
    · exact Reaches.of_feeds hf
    · exact hr.onward hu hf

/-- The first edge to a signal that is reached leads to it or to a signal passed. -/
theorem reaches_iff_first {s v : V} :
    Reaches feeds stops s v ↔
      ∃ u, feeds s u ∧ (u = v ∨ ¬ stops u ∧ Reaches feeds stops u v) := by
  constructor
  · intro h
    obtain ⟨l, w⟩ := h
    cases l with
    | nil => exact ⟨v, Walk.nil_iff.mp w, Or.inl rfl⟩
    | cons u l =>
        have hsplit : Walk feeds stops s ([] ++ u :: l) v := w
        obtain ⟨hu, hpass, w'⟩ := Walk.append_cons_iff.mp hsplit
        exact ⟨u, Walk.nil_iff.mp hu, Or.inr ⟨hpass, l, w'⟩⟩
  · intro h
    obtain ⟨u, hf, rfl | ⟨hu, hr⟩⟩ := h
    · exact Reaches.of_feeds hf
    · exact (Reaches.of_feeds hf).trans hu hr

/-! ### What comes before a signal -/

/-- `u` feeds `v`, and walks from `s` pass it. -/
def Precedes (feeds : V → V → Prop) (stops : V → Prop) (s u v : V) : Prop :=
  Reaches feeds stops s u ∧ ¬ stops u ∧ feeds u v

/-- Chains of predecessors within what is reached are walks. -/
theorem transGen_precedes_iff {s c e : V} (hs : Reaches feeds stops s c) (hc : ¬ stops c) :
    Relation.TransGen (Precedes feeds stops s) c e ↔ Reaches feeds stops c e := by
  constructor
  · intro h
    induction h with
    | single h => exact Reaches.of_feeds h.2.2
    | tail _ h ih => exact ih.onward h.2.1 h.2.2
  · rintro ⟨l, w⟩
    induction w using Walk.induction_on with
    | first v hf => exact .single ⟨hs, hc, hf⟩
    | onward l u v w hu hf ih => exact .tail ih ⟨hs.trans hc ⟨l, w⟩, hu, hf⟩

theorem transGen_precedes_start {s c e : V}
    (h : Relation.TransGen (Precedes feeds stops s) c e) : Reaches feeds stops s c ∧ ¬ stops c := by
  induction h with
  | single h => exact ⟨h.1, h.2.1⟩
  | tail _ _ ih => exact ih

/-- A signal is settled if it is reached and no predecessors go back from it for ever. -/
theorem settled_iff_acc {s v : V} :
    Settled feeds stops s v ↔ Reaches feeds stops s v ∧ Acc (Precedes feeds stops s) v := by
  constructor
  · intro h
    induction h with
    | intro reached _ ih => exact ⟨reached, ⟨_, fun u hu => (ih u hu.1 hu.2.1 hu.2.2).2⟩⟩
  · rintro ⟨hr, ha⟩
    induction ha with
    | intro v _ ih => exact ⟨hr, fun u hu hs hf => ih u ⟨hu, hs, hf⟩ hu⟩

/-- Nothing that is settled lies behind a loop. -/
theorem Settled.not_behindLoop {s e : V} (h : Settled feeds stops s e) :
    ¬ BehindLoop feeds stops s e := by
  rintro ⟨c, hc, hs, hloop, he⟩
  have hacc : Acc (Relation.TransGen (Precedes feeds stops s)) e :=
    (settled_iff_acc.mp h).2.transGen
  have hcacc := hacc.inv ((transGen_precedes_iff hs hc).mpr he)
  have hcc := (transGen_precedes_iff hs hc).mpr hloop
  induction hcacc with
  | intro c _ ih => exact ih c hcc hc hs hloop he hcc

/-- Over finitely many signals, the settled ones are the ones that are reached without a loop on the
way: were the drivers of a signal never exhausted, some driver would come back. -/
theorem settled_iff [Finite V] {s e : V} :
    Settled feeds stops s e ↔ Reaches feeds stops s e ∧ ¬ BehindLoop feeds stops s e := by
  refine ⟨fun h => ⟨(settled_iff_acc.mp h).1, h.not_behindLoop⟩, fun ⟨hr, hloop⟩ => ?_⟩
  refine settled_iff_acc.mpr ⟨hr, ?_⟩
  let before := Relation.TransGen (Precedes feeds stops s)
  -- on what comes before `e`, to come before is a strict order
  let R : V → V → Prop := fun a b => before a b ∧ (b = e ∨ before b e)
  have hend : ∀ {a b}, R a b → before a e := fun h => by
    rcases h.2 with rfl | hb
    · exact h.1
    · exact h.1.trans hb
  have : IsTrans V R := ⟨fun a b c hab hbc => ⟨hab.1.trans hbc.1, hbc.2⟩⟩
  have : Std.Irrefl R := ⟨fun a ha => by
    obtain ⟨hs, ho⟩ := transGen_precedes_start ha.1
    exact hloop ⟨a, ho, hs, (transGen_precedes_iff hs ho).mp ha.1,
      (transGen_precedes_iff hs ho).mp (hend ha)⟩⟩
  have hwf : WellFounded R := Finite.wellFounded_of_trans_of_irrefl R
  have hacc : ∀ v, Acc R v → v = e ∨ before v e → Acc (Precedes feeds stops s) v := by
    intro v hv
    induction hv with
    | intro v _ ih =>
        intro hve
        refine ⟨_, fun u hu => ih u ⟨.single hu, hve⟩ (Or.inr ?_)⟩
        rcases hve with rfl | hve
        · exact .single hu
        · exact .head hu hve
  exact hacc e (hwf.apply e) (Or.inl rfl)

/-- The drivers of a settled signal that a walk passes are settled. -/
theorem Settled.driver {s u v : V} (h : Settled feeds stops s v) (hr : Reaches feeds stops s u)
    (hu : ¬ stops u) (hf : feeds u v) : Settled feeds stops s u := by
  cases h with
  | intro _ drivers => exact drivers u hr hu hf

/-- A walk to a settled signal visits nothing twice, except that it may end where it started. -/
theorem Settled.nodup {s e : V} {l : List V} (w : Walk feeds stops s l e)
    (h : Settled feeds stops s e) : (s :: l).Nodup ∧ (l ++ [e]).Nodup := by
  induction w using Walk.induction_on with
  | first v hf => exact ⟨by simp, by simp⟩
  | onward l u v w hu hf ih =>
      obtain ⟨hsl, hlu⟩ := ih (h.driver ⟨l, w⟩ hu hf)
      have hreach : Reaches feeds stops s u := ⟨l, w⟩
      constructor
      · -- were `u` the start, the walk so far would be a loop
        have hne : s ≠ u := fun hsu =>
          h.not_behindLoop ⟨u, hu, hreach, hsu ▸ hreach, Reaches.of_feeds hf⟩
        rw [List.nodup_cons] at hsl ⊢
        refine ⟨?_, hlu⟩
        rw [List.mem_append, List.mem_singleton, not_or]
        exact ⟨hsl.1, hne⟩
      · -- were `v` passed before, the walk since then would be a loop
        have hv : v ∉ l ++ [u] := fun hmem => by
          have w' := Walk.append_singleton_iff.mpr ⟨w, hu, hf⟩
          obtain ⟨hr, hs, hloop⟩ := w'.of_mem hmem
          exact h.not_behindLoop ⟨v, hs, hr, hloop, hloop⟩
        exact List.nodup_append.mpr ⟨hlu, by simp, fun a ha b hb hab => by
          rw [List.mem_singleton] at hb
          exact hv (hb ▸ hab ▸ ha)⟩

/-! ### Renaming -/

section Renaming

variable {f : W → V} {feeds' : W → W → Prop} {stops' : W → Prop}

/-- Walks are walks under other names. -/
theorem Walk.map_iff (hfeeds : ∀ a b, feeds' a b ↔ feeds (f a) (f b))
    (hstops : ∀ a, stops' a ↔ stops (f a)) {s e : W} {l : List W} :
    Walk feeds stops (f s) (l.map f) (f e) ↔ Walk feeds' stops' s l e := by
  have hchain : (f s :: l.map f ++ [f e]).IsChain feeds ↔ (s :: l ++ [e]).IsChain feeds' := by
    rw [show f s :: l.map f ++ [f e] = (s :: l ++ [e]).map f by simp, List.isChain_map]
    exact List.IsChain.iff fun a b => (hfeeds a b).symm
  constructor
  · intro h
    exact ⟨hchain.mp h.linked, fun u hu => by
      rw [hstops]; exact h.passing (f u) (List.mem_map_of_mem hu)⟩
  · intro h
    refine ⟨hchain.mpr h.linked, fun u hu => ?_⟩
    obtain ⟨a, ha, rfl⟩ := List.mem_map.mp hu
    rw [← hstops]
    exact h.passing a ha

/-- A walk from a renamed signal visits renamed signals only, if these are fed by no others. -/
theorem Walk.exists_map (hfeeds : ∀ a b, feeds' a b ↔ feeds (f a) (f b))
    (hstops : ∀ a, stops' a ↔ stops (f a)) (hclosed : ∀ a v, feeds (f a) v → ∃ b, f b = v)
    {s : W} {l : List V} {e : V} (w : Walk feeds stops (f s) l e) :
    ∃ l' e', l = l'.map f ∧ e = f e' ∧ Walk feeds' stops' s l' e' := by
  induction w using Walk.induction_on with
  | first v hf =>
      obtain ⟨b, rfl⟩ := hclosed s v hf
      exact ⟨[], b, rfl, rfl, Walk.nil_iff.mpr ((hfeeds s b).mpr hf)⟩
  | onward l u v w hu hf ih =>
      obtain ⟨l', u', rfl, rfl, w'⟩ := ih
      obtain ⟨b, rfl⟩ := hclosed u' v hf
      refine ⟨l' ++ [u'], b, by simp, rfl, Walk.append_singleton_iff.mpr ⟨w', ?_, ?_⟩⟩
      · rwa [hstops]
      · rwa [hfeeds]

/-- What is reached and what settles are the same under other names, too, if names tell signals
apart. -/
theorem Reaches.map_iff (hinj : f.Injective) (hfeeds : ∀ a b, feeds' a b ↔ feeds (f a) (f b))
    (hstops : ∀ a, stops' a ↔ stops (f a)) (hclosed : ∀ a v, feeds (f a) v → ∃ b, f b = v)
    {s e : W} : Reaches feeds stops (f s) (f e) ↔ Reaches feeds' stops' s e := by
  constructor
  · rintro ⟨l, w⟩
    obtain ⟨l', e', rfl, he, w'⟩ := w.exists_map hfeeds hstops hclosed
    exact ⟨l', hinj he ▸ w'⟩
  · rintro ⟨l, w⟩
    exact ⟨l.map f, (Walk.map_iff hfeeds hstops).mpr w⟩

/-- A map that keeps edges both ways, and from whose image nothing else is fed, keeps what is
settled. All that is reached is in the image, so no predecessor is overlooked. -/
theorem Settled.map_iff (hinj : f.Injective) (hfeeds : ∀ a b, feeds' a b ↔ feeds (f a) (f b))
    (hstops : ∀ a, stops' a ↔ stops (f a)) (hclosed : ∀ a v, feeds (f a) v → ∃ b, f b = v)
    {s e : W} : Settled feeds stops (f s) (f e) ↔ Settled feeds' stops' s e := by
  have hreaches : ∀ b, Reaches feeds stops (f s) (f b) ↔ Reaches feeds' stops' s b := fun b =>
    Reaches.map_iff hinj hfeeds hstops hclosed
  constructor
  · intro h
    generalize hv : f e = v at h
    induction h generalizing e with
    | intro reached _ ih =>
        subst hv
        refine .intro ((hreaches e).mp reached) fun u hu hs hf => ?_
        exact ih (f u) ((hreaches u).mpr hu) ((hstops u).not.mp hs) ((hfeeds u e).mp hf) rfl
  · intro h
    induction h with
    | @intro v reached _ ih =>
        refine .intro ((hreaches v).mpr reached) fun u hu hs hf => ?_
        -- a driver is reached, so it has a name
        obtain ⟨l, w⟩ := hu
        obtain ⟨l', u', rfl, rfl, w'⟩ := w.exists_map hfeeds hstops hclosed
        exact ih u' ⟨l', w'⟩ ((hstops u').not.mpr hs) ((hfeeds u' v).mpr hf)

end Renaming

/-! ### Edges of a netlist -/

/-- `u` feeds `v`. -/
def Netlist.Feeds {α : Type} (g : Netlist α) (u v : String) : Prop := v ∈ g.neighbors u

instance {α : Type} (g : Netlist α) : DecidableRel g.Feeds := fun u v =>
  inferInstanceAs (Decidable (v ∈ g.neighbors u))

end Presynth
