import Presynth.Proofs.Storage.Directories
/-!
# What writing changes

A file that is written below a directory is the only file that changes, and the only directories
that are new are on the way to it. A write that fails may have made directories, but it changes no
file unless the store runs out of space: then the file is there with a beginning of its content.
Changes that are confined to some paths can follow each other.

Main statements: `FileTree.confinedTo_writeBelow`, `FileTree.replaces_writeBelow` and
`FileTree.of_writeBelow_eq_error`.
-/

namespace Presynth.FileTree

/-! ### Files -/

/-- The content of the file at a location, if there is one. -/
def file? (t : FileTree) (here : Location) : Option Archive.Bytes :=
  match t.kind? here with
  | some (.file content) => some content
  | _ => none

/-- Files are told apart from directories by what `kind?` says of a location. -/
theorem file?_eq_some_iff {t : FileTree} {here : Location} {content : Archive.Bytes} :
    t.file? here = some content ↔ t.kind? here = some (.file content) := by
  unfold file?
  split
  · rename_i other hkind
    simp [hkind]
  · rename_i hne
    simpa using hne content

theorem file?_congr {t t' : FileTree} {here : Location} (h : t'.kind? here = t.kind? here) :
    t'.file? here = t.file? here := by
  rw [file?, file?, h]

/-- A path is read where it leads to a file. -/
theorem read_eq_ok_iff_file? {t : FileTree} {path : Path} {content : Archive.Bytes} :
    t.read path = .ok content ↔ ∃ here, t.LeadsTo path here ∧ t.file? here = some content := by
  rw [read_eq_ok_iff]
  constructor
  · rintro ⟨c, hc, hkind⟩
    exact ⟨_, ⟨c, hc, rfl⟩, file?_eq_some_iff.mpr hkind⟩
  · rintro ⟨_, ⟨c, hc, rfl⟩, hfile⟩
    exact ⟨c, hc, file?_eq_some_iff.mp hfile⟩

/-- The file to which a path leads in the end is the one that stood there before, or there was none
and is none. -/
def SameFile (before after : FileTree) (path : Path) : Prop :=
  ∀ here, after.LeadsTo path here → after.file? here = before.file? here

/-- A file that is the same is read as before, as long as no directory goes. -/
theorem SameFile.read {before after : FileTree} {path : Path} {content : Archive.Bytes}
    (h : before.SameFile after path)
    (hd : ∀ here, before.kind? here = some .directory → after.kind? here = some .directory)
    (hread : before.read path = .ok content) : after.read path = .ok content := by
  obtain ⟨here, hleads, hfile⟩ := read_eq_ok_iff_file?.mp hread
  have hleads' : after.LeadsTo path here := hleads.mono hd
  exact read_eq_ok_iff_file?.mpr ⟨here, hleads', (h here hleads').trans hfile⟩

/-- Making directories changes no file. -/
theorem AddsDirectories.file?_eq {t t' : FileTree} {path : Path} (h : t.AddsDirectories t' path)
    (here : Location) : t'.file? here = t.file? here := by
  rcases h here with hsame | ⟨hnone, hdir, -⟩
  · exact file?_congr hsame
  · rw [file?, file?, hnone, hdir]

/-- Absolute paths lead out of the tree, so one that leads somewhere in it is not absolute. -/
theorem absolute_of_leadsTo {t : FileTree} {path : Path} {here : Location}
    (h : t.LeadsTo path here) : path.absolute = false := by
  obtain ⟨c, hc, -⟩ := h
  unfold locate follow at hc
  split at hc
  · cases hc
  · split at hc
    · cases hc
    · split at hc
      · cases hc
      · rename_i habs
        simpa using habs

/-! ### Confined changes -/

/-- Nothing has changed but files to which certain paths lead, and new directories are on the way to
them. -/
structure ConfinedTo (before after : FileTree) (paths : List Path) : Prop where
  /-- A file is new, gone or different only where one of the paths leads. -/
  file : ∀ here, after.file? here ≠ before.file? here → ∃ path ∈ paths, after.LeadsTo path here
  /-- A directory is new only where an ancestor of one of the paths leads. -/
  directory : ∀ here, after.kind? here = some .directory →
    before.kind? here ≠ some .directory →
      ∃ path ∈ paths, ∃ above : Path, above.IsAncestor path ∧ after.LeadsTo above here
  /-- No directory is gone. -/
  keeps : ∀ here, before.kind? here = some .directory → after.kind? here = some .directory

namespace ConfinedTo

variable {t t₁ t₂ : FileTree} {paths more : List Path}

theorem refl (t : FileTree) (paths : List Path) : t.ConfinedTo t paths :=
  ⟨fun _ h => absurd rfl h, fun _ h h' => absurd h h', fun _ => id⟩

/-- Changes made one after another, each confined to the same paths. What the first change put where
a path leads is still there, since the second one keeps all directories. -/
theorem trans (h : t.ConfinedTo t₁ paths) (h' : t₁.ConfinedTo t₂ paths) :
    t.ConfinedTo t₂ paths where
  file here hne := by
    by_cases hsame : t₂.file? here = t₁.file? here
    · obtain ⟨path, hpath, hleads⟩ := h.file here (hsame ▸ hne)
      exact ⟨path, hpath, hleads.mono h'.keeps⟩
    · exact h'.file here hsame
  directory here hdir hnot := by
    by_cases hmid : t₁.kind? here = some .directory
    · obtain ⟨path, hpath, above, habove, hleads⟩ := h.directory here hmid hnot
      exact ⟨path, hpath, above, habove, hleads.mono h'.keeps⟩
    · exact h'.directory here hdir hmid
  keeps here hdir := h'.keeps here (h.keeps here hdir)

theorem mono (h : t.ConfinedTo t₁ paths) (hsub : paths ⊆ more) : t.ConfinedTo t₁ more where
  file here hne := by
    obtain ⟨path, hpath, hleads⟩ := h.file here hne
    exact ⟨path, hsub hpath, hleads⟩
  directory here hdir hnot := by
    obtain ⟨path, hpath, habove⟩ := h.directory here hdir hnot
    exact ⟨path, hsub hpath, habove⟩
  keeps := h.keeps

end ConfinedTo

/-- Directories on the way to a path are on the way to all that is below it. -/
theorem AddsDirectories.confinedTo {t t' : FileTree} {path longer : Path}
    (h : t.AddsDirectories t' path) (hpath : path.IsAncestor longer) :
    t.ConfinedTo t' [longer] where
  file here hne := absurd (h.file?_eq here) hne
  directory here hdir hnot := by
    rcases h here with hsame | ⟨-, -, above, habove, hleads⟩
    · exact absurd (hsame.symm.trans hdir) hnot
    · exact ⟨longer, List.mem_singleton_self _, above, habove.trans hpath, hleads⟩
  keeps _ := h.kind?_directory

/-- Writing a file makes it the file where its path leads, and changes nothing else. -/
theorem leadsTo_write {t t' : FileTree} {path : Path} {content : Archive.Bytes}
    (h : t.write path content = .ok t') :
    ∃ here, t'.LeadsTo path here ∧ t.kind? here ≠ some .directory ∧
      ∀ other, t'.kind? other = if here = other then some (.file content) else t.kind? other := by
  obtain ⟨c, hc, hn, hkind⟩ := kind?_write h
  have hleads : t.LeadsTo path c.location := ⟨c, hc, rfl⟩
  exact ⟨_, hleads.mono fun _ => kind?_directory_of_write h, hn, hkind⟩

/-- Since its directory is there, writing a file makes no directories at all. -/
theorem confinedTo_write {t t' : FileTree} {path : Path} {content : Archive.Bytes}
    (h : t.write path content = .ok t') : t.ConfinedTo t' [path] := by
  obtain ⟨written, hleads, -, hkind⟩ := leadsTo_write h
  refine ⟨fun here hne => ?_, fun here hdir hnot => ?_, fun _ => kind?_directory_of_write h⟩
  · by_cases heq : written = here
    · exact ⟨path, List.mem_singleton_self _, heq ▸ hleads⟩
    · exact absurd (file?_congr (by rw [hkind, if_neg heq])) hne
  · rw [hkind] at hdir
    split at hdir
    · cases hdir
    · exact absurd hdir hnot

/-! ### Replaced files -/

/-- A file is there with a proper beginning of a content, maybe nothing of it. -/
def HoldsCut (t : FileTree) (path : Path) (content : Archive.Bytes) : Prop :=
  ∃ cut, t.read path = .ok cut ∧ cut <+: content ∧ cut ≠ content

/-- The file to which a path leads has a certain content, and the other files are as before. -/
def Replaces (before after : FileTree) (path : Path) (content : Archive.Bytes) : Prop :=
  ∃ here, after.LeadsTo path here ∧
    ∀ other, after.file? other = if here = other then some content else before.file? other

namespace Replaces

variable {before after : FileTree} {path other : Path} {content : Archive.Bytes}

theorem read (h : before.Replaces after path content) : after.read path = .ok content := by
  obtain ⟨here, hleads, hfile⟩ := h
  exact read_eq_ok_iff_file?.mpr ⟨here, hleads, by rw [hfile, if_pos rfl]⟩

/-- What happens later without touching a file leaves it replaced. -/
theorem of_file?_eq {last : FileTree} (h : before.Replaces after path content)
    (hd : ∀ here, after.kind? here = some .directory → last.kind? here = some .directory)
    (hsame : ∀ here, last.file? here = after.file? here) : before.Replaces last path content := by
  obtain ⟨here, hleads, hfile⟩ := h
  exact ⟨here, hleads.mono hd, fun other => (hsame other).trans (hfile other)⟩

/-- A path that never leads where the replaced file is leads to the same file as before. -/
theorem sameFile (h : before.Replaces after path content) (hapart : path.Apart other) :
    before.SameFile after other := by
  obtain ⟨here, hleads, hfile⟩ := h
  intro there hthere
  have hne : here ≠ there := fun heq => hapart hleads (heq ▸ hthere)
  rw [hfile, if_neg hne]

end Replaces

/-- Of the files, a write changes just its own. -/
theorem replaces_write {t t' : FileTree} {path : Path} {content : Archive.Bytes}
    (h : t.write path content = .ok t') : t.Replaces t' path content := by
  obtain ⟨here, hleads, -, hkind⟩ := leadsTo_write h
  refine ⟨here, hleads, fun other => ?_⟩
  split
  · rename_i heq
    rw [file?_eq_some_iff, hkind, if_pos heq]
  · rename_i hne
    exact file?_congr (by rw [hkind, if_neg hne])

/-! ### Files below directories -/

section WriteBelow

variable {t t' : FileTree} {directory path : Path} {content : Archive.Bytes}

/-- A write below a directory that succeeds made the directory and then wrote the whole file. -/
theorem of_writeBelow_eq_ok (h : t.writeBelow directory path content = (.ok (), t')) :
    ∃ between, t.AddsDirectories between directory.withoutSlash ∧
      between.write path content = .ok t' := by
  unfold writeBelow at h
  split at h
  · cases h
  · rename_i between hmake
    exact ⟨between, addsDirectories_makeDirectory hmake, write_of_save h⟩

/-- A write below a directory that fails made no more than directories, or it then wrote a proper
beginning of the file. -/
theorem exists_of_writeBelow_eq_error {fault : Fault}
    (h : t.writeBelow directory path content = (.error fault, t')) :
    ∃ between, t.AddsDirectories between directory.withoutSlash ∧
      (t' = between ∨ fault = .storageFull ∧
        ∃ cut, between.write path cut = .ok t' ∧ cut <+: content ∧ cut ≠ content) := by
  unfold writeBelow at h
  split at h
  · -- the directory could not be made, so no file was opened
    rename_i made hmake
    cases h
    exact ⟨_, addsDirectories_makeDirectory hmake, .inl rfl⟩
  · -- the directory is there, and the write failed before it opened the file or after
    rename_i made hmake
    exact ⟨made, addsDirectories_makeDirectory hmake, of_save_eq_error h⟩

/-- A file is written below a directory without other changes than on the way to it. -/
theorem confinedTo_writeBelow (h : t.writeBelow directory path content = (.ok (), t'))
    (hdir : path.absolute = false → directory.withoutSlash.IsAncestor path) :
    t.ConfinedTo t' [path] := by
  obtain ⟨between, hadds, hwrite⟩ := of_writeBelow_eq_ok h
  obtain ⟨here, hleads, -⟩ := leadsTo_write hwrite
  exact (hadds.confinedTo (hdir (absolute_of_leadsTo hleads))).trans (confinedTo_write hwrite)

/-- Directories that are made first are no part of what a write replaces. -/
theorem AddsDirectories.replaces {between : FileTree} {above : Path}
    (h : t.AddsDirectories between above) (h' : between.Replaces t' path content) :
    t.Replaces t' path content := by
  obtain ⟨here, hleads, hfile⟩ := h'
  exact ⟨here, hleads, fun other => by rw [hfile, h.file?_eq]⟩

/-- The file that was written is there, and the other files are as before. -/
theorem replaces_writeBelow (h : t.writeBelow directory path content = (.ok (), t')) :
    t.Replaces t' path content := by
  obtain ⟨between, hadds, hwrite⟩ := of_writeBelow_eq_ok h
  exact hadds.replaces (replaces_write hwrite)

/-- A write that fails has changed no file, or it has replaced its own by one that is cut short. -/
theorem of_writeBelow_eq_error {fault : Fault}
    (h : t.writeBelow directory path content = (.error fault, t')) :
    (∀ here, t'.file? here = t.file? here) ∨
      fault = .storageFull ∧ ∃ cut, t.Replaces t' path cut ∧ cut <+: content ∧ cut ≠ content := by
  obtain ⟨between, hadds, rfl | ⟨hfull, cut, hwrite, hcut⟩⟩ := exists_of_writeBelow_eq_error h
  · exact .inl hadds.file?_eq
  · exact .inr ⟨hfull, cut, hadds.replaces (replaces_write hwrite), hcut⟩

/-- No directory goes where a file cannot be written. -/
theorem kind?_directory_of_writeBelow_eq_error {fault : Fault}
    (h : t.writeBelow directory path content = (.error fault, t')) {here : Location}
    (hd : t.kind? here = some .directory) : t'.kind? here = some .directory := by
  obtain ⟨between, hadds, rfl | ⟨-, cut, hwrite, -⟩⟩ := exists_of_writeBelow_eq_error h
  · exact hadds.kind?_directory hd
  · exact kind?_directory_of_write hwrite (hadds.kind?_directory hd)

end WriteBelow

end Presynth.FileTree
