import Presynth.Proofs.Storage.SideBySide
/-!
# Directories on the way

Making a directory may make several, all of them on the way of its path: each new one stands where
an ancestor of the path leads. Nothing else is changed, so whatever could be found before is found
at the same place afterwards, also if the directory could not be made in the end.

Main statement: `FileTree.addsDirectories_makeDirectory`.
-/

namespace Presynth

namespace Path

/-! ### Ancestors -/

/-- The ancestors of a path are its leading parts; a path is one of its own. -/
def IsAncestor (above path : Path) : Prop :=
  above.absolute = path.absolute ∧ above.parts <+: path.parts

theorem IsAncestor.refl (path : Path) : path.IsAncestor path := ⟨rfl, List.prefix_rfl⟩

theorem IsAncestor.trans {p q r : Path} (h : p.IsAncestor q) (h' : q.IsAncestor r) :
    p.IsAncestor r :=
  ⟨h.1.trans h'.1, h.2.trans h'.2⟩

theorem trimEnd_prefix_self (drops : String → Bool) (parts : List String) :
    trimEnd drops parts <+: parts := by
  rw [trimEnd, ← List.reverse_suffix, List.reverse_reverse]
  exact List.dropWhile_suffix drops

/-- Dropping more parts leaves less. -/
theorem trimEnd_prefix_trimEnd {drops more : String → Bool}
    (h : ∀ part, drops part = true → more part = true) (parts : List String) :
    trimEnd more parts <+: trimEnd drops parts := by
  induction parts using List.reverseRecOn with
  | nil => exact List.prefix_rfl
  | append_singleton parts part ih =>
      by_cases hdrops : drops part = true
      · simpa [trimEnd, hdrops, h part hdrops] using ih
      · have hkeep : trimEnd drops (parts ++ [part]) = parts ++ [part] := by
          simp [trimEnd, hdrops]
        rw [hkeep]
        exact trimEnd_prefix_self more _

/-- A path without the slashes at its end. -/
def withoutSlash (path : Path) : Path := { path with parts := path.partsBeforeSlash }

/-- A path without the slashes at its end is on the way to it. -/
theorem isAncestor_withoutSlash (path : Path) : path.withoutSlash.IsAncestor path :=
  ⟨rfl, trimEnd_prefix_self _ _⟩

/-- The parent is on the way: it has one name less, and none of the idle parts around that. -/
theorem isAncestor_parent (path : Path) : path.parent.IsAncestor path.withoutSlash := by
  have hdrop : (trimEnd isIdle path.parts).dropLast <+: trimEnd isIdle path.parts :=
    List.dropLast_prefix _
  exact ⟨rfl, (trimEnd_prefix_self _ _).trans <| hdrop.trans <|
    trimEnd_prefix_trimEnd (fun part h => by simp [isIdle, h]) _⟩

theorem IsAncestor.hasNull {p q : Path} (h : p.IsAncestor q) (hp : p.hasNull = true) :
    q.hasNull = true := by
  obtain ⟨rest, hrest⟩ := h.2
  simp only [Path.hasNull, ← hrest, List.any_append, Bool.or_eq_true] at hp ⊢
  exact .inl hp

theorem le_foldl_size (parts : List String) (size : Nat) :
    size ≤ parts.foldl (fun size part => size + part.utf8ByteSize + 1) size := by
  induction parts generalizing size with
  | nil => exact Nat.le_refl _
  | cons part parts ih =>
      have hstep : size ≤ size + part.utf8ByteSize + 1 := by omega
      exact hstep.trans (ih _)

theorem IsAncestor.isOversized {p q : Path} (h : p.IsAncestor q) (hp : p.isOversized = true) :
    q.isOversized = true := by
  obtain ⟨rest, hrest⟩ := h.2
  simp only [Path.isOversized, decide_eq_true_eq, ← hrest, List.foldl_append] at hp ⊢
  exact Nat.lt_of_lt_of_le hp (le_foldl_size rest _)

end Path

namespace FileTree

/-! ### Where paths lead -/

/-- A path leads to a location. -/
def LeadsTo (t : FileTree) (path : Path) (here : Location) : Prop :=
  ∃ c, t.locate path = .ok c ∧ c.location = here

/-- A path leads to the same place as long as no directory goes. -/
theorem LeadsTo.mono {t t' : FileTree} {path : Path} {here : Location}
    (hd : ∀ here, t.kind? here = some .directory → t'.kind? here = some .directory)
    (h : t.LeadsTo path here) : t'.LeadsTo path here := by
  obtain ⟨c, hc, rfl⟩ := h
  exact exists_locate hd hc

/-- Following some leading parts of a path is following the ancestor that they are. -/
theorem locate_of_follow {t : FileTree} {above path : Path} {c : Cursor}
    (habove : above.IsAncestor path) (h : t.follow path above.parts = .ok c) :
    t.locate above = .ok c := by
  unfold locate follow at *
  split at h
  · cases h
  · rename_i hnull
    split at h
    · cases h
    · rename_i hsize
      rw [if_neg fun h => hnull (habove.hasNull h), if_neg fun h => hsize (habove.isOversized h),
        habove.1]
      exact h

end FileTree

namespace Path

/-- Two paths never lead to the same place. -/
def Apart (path other : Path) : Prop :=
  ∀ ⦃files : FileTree⦄ ⦃here : Location⦄, files.LeadsTo path here → ¬ files.LeadsTo other here

theorem Apart.symm {path other : Path} (h : path.Apart other) : other.Apart path :=
  fun _ _ hother hpath => h hpath hother

/-- Paths whose endings no name can have at once never lead to one place, in any tree. -/
theorem EndsIn.apart {path other : Path} {ending ending' : List Char} (h : path.EndsIn ending)
    (h' : other.EndsIn ending') (hlen : ending.length ≤ ending'.length)
    (hno : ¬ ending <:+ ending') : path.Apart other := by
  rintro files here ⟨c, hc, rfl⟩ ⟨d, hd, hsame⟩
  exact h.location_ne h' hlen hno hc hd hsame.symm

end Path

namespace FileTree

/-! ### New directories -/

/-- A tree with more directories than another on the way of a path, and without other changes. -/
def AddsDirectories (t t' : FileTree) (path : Path) : Prop :=
  ∀ here, t'.kind? here = t.kind? here ∨
    (t.kind? here = none ∧ t'.kind? here = some .directory ∧
      ∃ above : Path, above.IsAncestor path ∧ t'.LeadsTo above here)

namespace AddsDirectories

variable {t t₁ t₂ : FileTree} {path longer : Path}

theorem refl (t : FileTree) (path : Path) : t.AddsDirectories t path := fun _ => .inl rfl

theorem kind?_directory (h : t.AddsDirectories t₁ path) {here : Location}
    (hd : t.kind? here = some .directory) : t₁.kind? here = some .directory := by
  rcases h here with hsame | ⟨hnone, -, -⟩
  · rw [hsame, hd]
  · rw [hnone] at hd
    cases hd

/-- Making more directories on the same way. A directory that was new after the first step is old
for the second. -/
theorem trans (h : t.AddsDirectories t₁ path) (h' : t₁.AddsDirectories t₂ path) :
    t.AddsDirectories t₂ path := by
  intro here
  rcases h' here with hsame' | ⟨hnone', hdir', habove'⟩
  · rcases h here with hsame | ⟨hnone, hdir, above, habove, hleads⟩
    · exact .inl (hsame'.trans hsame)
    · exact .inr ⟨hnone, hsame'.trans hdir, above, habove, hleads.mono fun _ => h'.kind?_directory⟩
  · rcases h here with hsame | ⟨-, hdir, -⟩
    · exact .inr ⟨hsame.symm.trans hnone', hdir', habove'⟩
    · rw [hdir] at hnone'
      cases hnone'

theorem of_isAncestor (h : t.AddsDirectories t₁ path) (hpath : path.IsAncestor longer) :
    t.AddsDirectories t₁ longer := by
  intro here
  refine (h here).imp_right fun ⟨hnone, hdir, above, habove, hleads⟩ => ?_
  exact ⟨hnone, hdir, above, habove.trans hpath, hleads⟩

end AddsDirectories

/-- The new directory stands where the path leads, and nothing stood there before. -/
theorem addsDirectories_makeNew {t t' : FileTree} {path : Path} (h : t.makeNew path = .ok t') :
    t.AddsDirectories t' path.withoutSlash := by
  unfold makeNew at h
  split at h
  · cases h
  · rename_i c hfollow
    have hlocate : t.locate path.withoutSlash = .ok c :=
      locate_of_follow path.isAncestor_withoutSlash hfollow
    split at h
    · cases h
    · rename_i hnone
      cases h
      obtain ⟨dir, name, hc, hd, hn⟩ := exists_directory_of_locate hlocate (by simp [hnone])
      have hkind (other : Location) : (t.put c.location (.directory [])).kind? other =
          if c.location = other then some .directory else t.kind? other := by
        rw [hc]
        exact kind?_put hd hn rfl
      -- the path is still followed in the new tree, in which nothing but a directory was added
      have hleads : (t.put c.location (.directory [])).LeadsTo path.withoutSlash c.location := by
        refine LeadsTo.mono (fun here hhere => ?_) ⟨c, hlocate, rfl⟩
        rw [hkind]
        split
        · rfl
        · exact hhere
      intro here
      rw [hkind]
      split
      · rename_i heq
        subst heq
        have hget := Cursor.get?_location (isIn_locate hlocate)
        refine .inr ⟨?_, rfl, _, .refl _, hleads⟩
        rw [kind?, Entry.kind?, hget, hnone]
        rfl
      · exact .inl rfl

/-- A directory that is already there is not made, and then nothing changes. -/
theorem addsDirectories_makeOne {t t' : FileTree} {path : Path} (h : t.makeOne path = .ok t') :
    t.AddsDirectories t' path.withoutSlash := by
  unfold makeOne at h
  split at h
  · rename_i hnew
    cases h
    exact addsDirectories_makeNew hnew
  · split at h
    · cases h
      exact .refl _ _
    · cases h

/-- Making a directory, also where it stops half way, adds directories on the way of its path and
changes nothing else. -/
theorem addsDirectories_makeDirectory {t t' : FileTree} {path : Path} {result : Except Fault Unit}
    (h : t.makeDirectory path = (result, t')) : t.AddsDirectories t' path.withoutSlash := by
  obtain rfl : (t.makeDirectory path).2 = t' := congrArg Prod.snd h
  clear h
  have hparent (path : Path) : path.parent.withoutSlash.IsAncestor path.withoutSlash :=
    path.parent.isAncestor_withoutSlash.trans path.isAncestor_parent
  fun_induction makeDirectory t path with
  | case1 | case6 => exact .refl _ _
  | case2 path _ made hmade => exact addsDirectories_makeOne hmade
  | case3 path _ _ fault made hmade ih =>
      rw [hmade] at ih
      exact ih.of_isAncestor (hparent path)
  | case4 path _ _ between hbetween made hmade ih =>
      rw [hbetween] at ih
      exact (ih.of_isAncestor (hparent path)).trans (addsDirectories_makeOne hmade)
  | case5 path _ _ between hbetween fault _ ih =>
      rw [hbetween] at ih
      exact ih.of_isAncestor (hparent path)

end FileTree

end Presynth
