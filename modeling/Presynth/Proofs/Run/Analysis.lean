import Presynth.Proofs.Storage.Confinement
import Presynth.Run.Basic
/-!
# What runs change

All runs are alike in what they do to files: they compute with the files as they are, and only then
write their outputs, in order and up to the first that cannot be written. So a run that fails before
it writes has changed nothing, and one that succeeds has changed nothing but its outputs and the
directories on the way to them, also where it reads and writes in the same place.

Main statements: `Output.confinedTo_publish`, `Output.read_of_publish` and `Analysis.files_run`.
-/

namespace Presynth

namespace Path

/-- A directory is on the way to what is below it. -/
theorem isAncestor_below {dir : Path} {name : String} (h : (dir.below name).absolute = false) :
    dir.withoutSlash.IsAncestor (dir.below name) := by
  unfold below at h ⊢
  dsimp only at h ⊢
  split
  · rename_i habs
    rw [if_pos habs, habs] at h
    cases h
  · refine ⟨rfl, List.IsPrefix.trans ?_ (List.prefix_append _ _)⟩
    split
    · rename_i hslash
      obtain ⟨parts, hparts⟩ := List.getLast?_eq_some_iff.mp hslash
      simpa [withoutSlash, partsBeforeSlash, hparts, trimEnd] using
        trimEnd_prefix_self (· == "") parts
    · exact trimEnd_prefix_self _ _

end Path

/-! ### Publishing -/

namespace Output

variable {files after : FileTree}

/-- The directory that is made for an output is on the way to it. -/
def IsPlaced (output : Output) : Prop :=
  output.path.absolute = false → output.directory.withoutSlash.IsAncestor output.path

/-- A vector is written where its path says, so its directory is the parent of the path. -/
theorem isPlaced_vector (path : Path) (values : List Float) : (vector path values).IsPlaced :=
  fun _ => path.parent.isAncestor_withoutSlash.trans
    (path.isAncestor_parent.trans path.isAncestor_withoutSlash)

/-- Faults of writing are reported with the path of the output; the files are those of the write
itself. -/
theorem write_eq_ok_iff {output : Output} : output.write files = (.ok (), after) ↔
    files.writeBelow output.directory output.path output.content = (.ok (), after) := by
  unfold write
  split
  · rename_i hwrite
    simp [hwrite]
  · rename_i hwrite
    simp [hwrite]

/-- An output that cannot be written is blamed by its path, and no other path is. -/
theorem exists_of_write_eq_error {output : Output} {e : RunFault}
    (h : output.write files = (.error e, after)) :
    ∃ fault, e = .file output.path fault ∧
      files.writeBelow output.directory output.path output.content = (.error fault, after) := by
  unfold write at h
  split at h
  · rename_i fault between hwrite
    cases h
    exact ⟨fault, rfl, hwrite⟩
  · cases h

/-- Publishing succeeds if every output in its turn is written, onto the files that the outputs
before it have left. -/
theorem publish_cons_eq_ok_iff {output : Output} {rest : List Output} :
    publish (output :: rest) files = (.ok (), after) ↔
      ∃ between, output.write files = (.ok (), between) ∧
        publish rest between = (.ok (), after) := by
  rw [publish]
  split
  · rename_i hwrite
    simp [hwrite]
  · rename_i hwrite
    simp [hwrite]

/-- Publishing fails at the first output that cannot be written. What was written before it stays,
and nothing after it is tried. -/
theorem publish_cons_eq_error_iff {output : Output} {rest : List Output} {e : RunFault} :
    publish (output :: rest) files = (.error e, after) ↔
      output.write files = (.error e, after) ∨
        ∃ between, output.write files = (.ok (), between) ∧
          publish rest between = (.error e, after) := by
  rw [publish]
  split
  · rename_i hwrite
    simp [hwrite]
  · rename_i hwrite
    simp [hwrite]

/-- Publishing fails at one of the outputs. -/
theorem exists_of_publish_eq_error {outputs : List Output} {e : RunFault}
    (h : publish outputs files = (.error e, after)) :
    ∃ output ∈ outputs, ∃ fault, e = .file output.path fault := by
  induction outputs generalizing files with
  | nil => cases h
  | cons output rest ih =>
      rcases publish_cons_eq_error_iff.mp h with hwrite | ⟨between, -, hrest⟩
      · obtain ⟨fault, he, -⟩ := exists_of_write_eq_error hwrite
        exact ⟨output, List.mem_cons_self, fault, he⟩
      · obtain ⟨output', hmem, hfault⟩ := ih hrest
        exact ⟨output', List.mem_cons_of_mem _ hmem, hfault⟩

/-- Published outputs are the only files that change. -/
theorem confinedTo_publish {outputs : List Output} (hplaced : ∀ output ∈ outputs, output.IsPlaced)
    (h : publish outputs files = (.ok (), after)) :
    files.ConfinedTo after (outputs.map path) := by
  induction outputs generalizing files with
  | nil =>
      cases h
      exact .refl _ _
  | cons output rest ih =>
      obtain ⟨between, hwrite, hrest⟩ := publish_cons_eq_ok_iff.mp h
      rw [List.forall_mem_cons] at hplaced
      have hfirst := FileTree.confinedTo_writeBelow (write_eq_ok_iff.mp hwrite) hplaced.1
      refine (hfirst.mono ?_).trans ((ih hplaced.2 hrest).mono ?_)
      · simp
      · exact List.subset_cons_self _ _

/-- Published outputs that do not overwrite each other are all there. -/
theorem read_of_publish {outputs : List Output} (hplaced : ∀ output ∈ outputs, output.IsPlaced)
    (hapart : outputs.Pairwise fun first second => first.path.Apart second.path)
    (h : publish outputs files = (.ok (), after)) :
    ∀ output ∈ outputs, after.read output.path = .ok output.content := by
  induction outputs generalizing files with
  | nil => simp
  | cons first rest ih =>
      intro output hmem
      obtain ⟨between, hwrite, hrest⟩ := publish_cons_eq_ok_iff.mp h
      rw [List.forall_mem_cons] at hplaced
      rw [List.pairwise_cons] at hapart
      rcases List.mem_cons.mp hmem with rfl | hmem
      · obtain ⟨here, hleads, hfile⟩ := FileTree.replaces_writeBelow (write_eq_ok_iff.mp hwrite)
        have hconfined := confinedTo_publish hplaced.2 hrest
        have hleads' := hleads.mono hconfined.keeps
        refine FileTree.read_eq_ok_iff_file?.mpr ⟨here, hleads', ?_⟩
        -- a later output that changed the file would overwrite this one, but they are apart
        by_contra hne
        have hchanged : after.file? here ≠ between.file? here := by
          rw [hfile, if_pos rfl]
          exact hne
        obtain ⟨path, hpath, hover⟩ := hconfined.file here hchanged
        obtain ⟨second, hsecond, rfl⟩ := List.mem_map.mp hpath
        exact hapart.1 second hsecond hleads' hover
      · exact ih hplaced.2 hapart.2 hrest output hmem

end Output

/-! ### Analyses that are run -/

namespace Analysis

variable {β γ : Type} {design : String} {files : FileTree} {analysis : Analysis β}
  {outputs : β → List Output}

/-- What an analysis finds, if it does not fail. -/
def Finds (analysis : Analysis β) (x : β) : Prop :=
  ∃ remarks, (ExceptT.run analysis).run [] = (.ok x, remarks)

/-- Why an analysis fails, if it does. -/
def Fails (analysis : Analysis β) (e : RunFault) : Prop :=
  ∃ remarks, (ExceptT.run analysis).run [] = (.error e, remarks)

/-- A run that succeeds found its result with the files as they were, and then published all
outputs. -/
theorem of_run_eq_ok {x : β} (h : (analysis.run design files outputs).result = .ok x) :
    analysis.Finds x ∧
      Output.publish (outputs x) files = (.ok (), (analysis.run design files outputs).files) := by
  unfold run at h ⊢
  split at h
  · cases h
  · rename_i y remarks hfinds
    split at h
    · cases h
    · rename_i after hpublish
      cases h
      exact ⟨⟨remarks, hfinds⟩, hpublish⟩

/-- A run fails in its analysis, before any file is touched, or in publishing what it found. -/
theorem of_run_eq_error {e : RunError} (h : (analysis.run design files outputs).result = .error e) :
    analysis.Fails e.fault ∧ (analysis.run design files outputs).files = files ∨
      ∃ x, analysis.Finds x ∧ Output.publish (outputs x) files =
        (.error e.fault, (analysis.run design files outputs).files) := by
  unfold run at h ⊢
  split at h
  · rename_i remarks hfails
    cases h
    exact .inl ⟨⟨remarks, hfails⟩, rfl⟩
  · rename_i y remarks hfinds
    split at h
    · rename_i hpublish
      cases h
      exact .inr ⟨y, ⟨remarks, hfinds⟩, hpublish⟩
    · cases h

/-- An analysis with outputs of certain paths changes files there or not at all. -/
theorem files_run {paths : List Path} (hpaths : ∀ x, (outputs x).map Output.path = paths)
    (hplaced : ∀ x, ∀ output ∈ outputs x, output.IsPlaced) :
    (∀ e, (analysis.run design files outputs).result = .error e →
        (∃ path ∈ paths, ∃ fault, e.fault = .file path fault) ∨
          (analysis.run design files outputs).files = files) ∧
      ∀ x, (analysis.run design files outputs).result = .ok x →
        files.ConfinedTo (analysis.run design files outputs).files paths := by
  constructor
  · intro e he
    rcases of_run_eq_error he with ⟨-, hsame⟩ | ⟨x, -, hpublish⟩
    · exact .inr hsame
    · obtain ⟨output, hmem, hfault⟩ := Output.exists_of_publish_eq_error hpublish
      exact .inl ⟨output.path, hpaths x ▸ List.mem_map_of_mem hmem, hfault⟩
  · intro x hx
    obtain ⟨-, hpublish⟩ := of_run_eq_ok hx
    exact hpaths x ▸ Output.confinedTo_publish (hplaced x) hpublish

/-- A second part of an analysis starts with the remarks of the first, and does not start where the
first one fails. -/
theorem run_bind (analysis : Analysis β) (next : β → Analysis γ) (before : List Diagnostic) :
    (ExceptT.run (analysis >>= next)).run before =
      match (ExceptT.run analysis).run before with
      | (.ok x, between) => (ExceptT.run (next x)).run between
      | (.error e, between) => (.error e, between) := by
  unfold StateT.run ExceptT.run
  simp only [bind, ExceptT.bind, ExceptT.mk, StateT.bind, ExceptT.bindCont]
  cases analysis before with
  | mk result between => cases result <;> rfl

/-- What an analysis finds and why it fails is known, whatever was remarked before. -/
structure Ends (analysis : Analysis β) (finds : β → Prop) (fails : RunFault → Prop) : Prop where
  ok : ∀ {before x after}, (ExceptT.run analysis).run before = (.ok x, after) → finds x
  error : ∀ {before e after}, (ExceptT.run analysis).run before = (.error e, after) → fails e

namespace Ends

variable {finds : β → Prop} {finds' : γ → Prop} {fails : RunFault → Prop}

/-- What holds after any remarks holds of a run, which starts without any. -/
theorem of_finds {x : β} (h : analysis.Ends finds fails) (hx : analysis.Finds x) : finds x :=
  h.ok hx.choose_spec

theorem of_fails {e : RunFault} (h : analysis.Ends finds fails) (he : analysis.Fails e) : fails e :=
  h.error he.choose_spec

theorem pure {x : β} (h : finds x) : (pure x : Analysis β).Ends finds fails where
  ok hrun := by
    cases hrun
    exact h
  error hrun := by cases hrun

theorem remarkAll (ds : List Diagnostic) : (remarkAll ds).Ends (fun _ => True) fails where
  ok _ := trivial
  error hrun := by cases hrun

theorem remark (d : Diagnostic) : (remark d).Ends (fun _ => True) fails := remarkAll [d]

theorem orFail {ε : Type} {fault : ε → RunFault} {result : Except ε β}
    (hok : ∀ x, result = .ok x → finds x) (herror : ∀ e, result = .error e → fails (fault e)) :
    (orFail fault result).Ends finds fails := by
  cases result with
  | ok x => exact .pure (hok x rfl)
  | error e =>
      constructor
      · intro _ _ _ hrun
        cases hrun
      · intro _ _ _ hrun
        cases hrun
        exact herror e rfl

/-- What the first part is known to find is known to the second. Both fail alike, so that one
statement serves for the failures of the whole. -/
theorem bind {next : β → Analysis γ} (h : analysis.Ends finds fails)
    (hnext : ∀ x, finds x → (next x).Ends finds' fails) :
    (analysis >>= next).Ends finds' fails := by
  constructor
  · intro before y after hrun
    rw [run_bind] at hrun
    split at hrun
    · rename_i x between hfirst
      exact (hnext x (h.ok hfirst)).ok hrun
    · cases hrun
  · intro before e after hrun
    rw [run_bind] at hrun
    split at hrun
    · rename_i x between hfirst
      exact (hnext x (h.ok hfirst)).error hrun
    · rename_i e' between hfirst
      cases hrun
      exact h.error hfirst

end Ends

end Analysis

/-! ### Outcomes -/

namespace RunOutcome

variable {β : Type} {outcome : RunOutcome β}

/-- The fault of a run that failed. -/
def fault? (outcome : RunOutcome β) : Option RunFault :=
  match outcome.result with
  | .error e => some e.fault
  | .ok _ => none

theorem fault?_eq_none_iff : outcome.fault? = none ↔ ∃ x, outcome.result = .ok x := by
  unfold fault?
  cases outcome.result with
  | error e => simp
  | ok x => simp

theorem fault?_eq_some_iff {fault : RunFault} :
    outcome.fault? = some fault ↔ ∃ e, outcome.result = .error e ∧ e.fault = fault := by
  unfold fault?
  cases outcome.result with
  | error e => simp
  | ok x => simp

end RunOutcome

end Presynth
