import Presynth.Storage.Cursor
/-!
# File trees

The files and directories below a root, as a value. The operations take paths and fail for the
causes in `Fault`. An operation of one step that fails leaves the tree as it was, but for saving: a
file is emptied when it is opened, so one that does not fit is cut short. Making several directories
may stop half way, and says what was made.

A file store can be short of space, or fail while it writes. A tree says for each location how many
bytes a file there can take. Nothing is said of what they are taken from, so that every way in which
the writing of one file can end is that of some tree.

Main statements: `exists_locate` (a new leaf does not lead paths elsewhere), `kind?_write` (what
writing a file does to look-ups), `read_write` (a written file reads back) and `of_save_eq_error`
(what is left where a file cannot be saved).
-/

namespace Presynth

/-- The entries below a root, in name order. The root is always a directory. -/
structure FileTree where
  entries : List (String × Entry)
  /-- The bytes that a file at a location can take, if there is a limit. -/
  room : Location → Option Nat := fun _ => none
  deriving Inhabited

namespace FileTree

/-- The root without entries. -/
def empty : FileTree where
  entries := []

/-- The root as an entry. -/
def root (t : FileTree) : Entry := .directory t.entries

/-- What stands at a location. -/
def kind? (t : FileTree) (here : Location) : Option Entry.Kind := t.root.kind? here

/-- Records an entry at a location below the root. -/
def put (t : FileTree) (here : Location) (new : Entry) : FileTree :=
  { t with entries := (t.root.put here new).entries }

/-- The files with their names, which are their locations as texts. -/
def files (t : FileTree) : NameMap Archive.Bytes :=
  .ofList ((t.root.files []).map fun (here, content) => (here.text, content))

/-- The files that are new or have another content than in an earlier tree, in name order. -/
def changedSince (t earlier : FileTree) : List (String × Archive.Bytes) :=
  t.files.toList.filter fun e => earlier.files.get? e.1 ≠ some e.2

/-- The position to which parts of a path lead, if the path can be used at all. Nothing is found
outside the tree. -/
def follow (t : FileTree) (path : Path) (parts : List String) : Except Fault Cursor :=
  if path.hasNull then .error .nullCharacter
  else if path.isOversized then .error .nameTooLong
  else if path.absolute then .error .notFound
  else (Cursor.start t.root).walk parts

/-- The position to which a path leads. -/
def locate (t : FileTree) (path : Path) : Except Fault Cursor := t.follow path path.parts

/-- Does a path lead to a directory? -/
def isDirectory (t : FileTree) (path : Path) : Bool :=
  match t.locate path with
  | .ok ⟨_, some (.directory _)⟩ => true
  | _ => false

/-! ### Files -/

/-- The content of a file. -/
def read (t : FileTree) (path : Path) : Except Fault Archive.Bytes :=
  match t.locate path with
  | .error fault => .error fault
  | .ok c =>
    match c.here with
    | some (.file content) => .ok content
    | some (.directory _) => .error .isDirectory
    | none => .error .notFound

/-- The content of a text file. -/
def readText (t : FileTree) (path : Path) : Except Fault String :=
  match t.read path with
  | .error fault => .error fault
  | .ok content =>
    match Archive.ofUtf8? content with
    | some text => .ok text
    | none => .error .notText

/-- The location of the file that a path opens for writing, which is in an existing directory. A
slash at the end of the path asks for a directory, whatever stands there. -/
def target (t : FileTree) (path : Path) : Except Fault Location :=
  if path.partsBeforeSlash ≠ path.parts then
    -- the last name is not followed, but it has to be one in a directory
    match t.follow path (path.partsBeforeSlash.dropLast ++ ["."]) with
    | .error fault => .error fault
    | .ok _ => .error .isDirectory
  else
    match t.locate path with
    | .error fault => .error fault
    | .ok c =>
      match c.here with
      | some (.directory _) => .error .isDirectory
      | _ => .ok c.location

/-- Replaces a file by one that holds the whole of a content, or makes a new one. What is saved is
written in this sense, all of it or a beginning. -/
def write (t : FileTree) (path : Path) (content : Archive.Bytes) : Except Fault FileTree :=
  match t.target path with
  | .error fault => .error fault
  | .ok here => .ok (t.put here (.file content))

/-- Opens a file and fills it as far as there is room. The older content is gone with the opening,
so a file that does not fit is left with a beginning of the new one. -/
def save (t : FileTree) (path : Path) (content : Archive.Bytes) :
    Except Fault Unit × FileTree :=
  match t.target path with
  | .error fault => (.error fault, t)
  | .ok here =>
    match t.room here with
    | none => (.ok (), t.put here (.file content))
    | some room =>
      (if content.length ≤ room then .ok () else .error .storageFull,
        t.put here (.file (content.take room)))

/-! ### Directories -/

/-- Makes one directory in a directory. -/
def makeNew (t : FileTree) (path : Path) : Except Fault FileTree :=
  match t.follow path path.partsBeforeSlash with
  | .error fault => .error fault
  | .ok c =>
    match c.here with
    | some _ => .error .alreadyExists
    | none => .ok (t.put c.location (.directory []))

/-- Makes one directory, unless it is there. -/
def makeOne (t : FileTree) (path : Path) : Except Fault FileTree :=
  match t.makeNew path with
  | .ok t => .ok t
  | .error fault => if t.isDirectory path then .ok t else .error fault

/-- Makes a directory, and first its parent if something is missing on the way. What was made before
a fault stays. -/
def makeDirectory (t : FileTree) (path : Path) : Except Fault Unit × FileTree :=
  if path.parts = [] then (.ok (), t)
  else
    match t.makeOne path with
    | .ok t => (.ok (), t)
    | .error .notFound =>
      match t.makeDirectory path.parent with
      | (.error fault, t) => (.error fault, t)
      | (.ok (), t) =>
        match t.makeOne path with
        | .ok t => (.ok (), t)
        | .error fault => (.error fault, t)
    | .error fault => (.error fault, t)
termination_by path.parts.length
decreasing_by exact Path.length_parent_lt ‹_›

/-- Saves a file in a directory, which is made first. What was made before a fault stays. -/
def writeBelow (t : FileTree) (directory path : Path) (content : Archive.Bytes) :
    Except Fault Unit × FileTree :=
  match t.makeDirectory directory with
  | (.error fault, t) => (.error fault, t)
  | (.ok (), t) => t.save path content

/-- Removes an entry and everything below it. -/
def remove (t : FileTree) (path : Path) : FileTree :=
  match t.locate path with
  | .error _ => t
  | .ok c => { t with entries := (t.root.remove c.location).entries }

/-! ### Look-ups after each operation -/

theorem root_put {t : FileTree} {dir : Location} {name : String} {new : Entry} :
    (t.put (dir ++ [name]) new).root = t.root.put (dir ++ [name]) new := by
  cases dir <;> rfl

theorem kind?_put {t : FileTree} {dir other : Location} {name : String} {new : Entry}
    (hd : t.kind? dir = some .directory) (hn : t.kind? (dir ++ [name]) ≠ some .directory)
    (hnew : new.entries = []) :
    (t.put (dir ++ [name]) new).kind? other =
      if dir ++ [name] = other then some new.kind else t.kind? other := by
  rw [kind?, root_put]
  exact Entry.kind?_put hd hn hnew

theorem isIn_locate {t : FileTree} {path : Path} {c : Cursor} (h : t.locate path = .ok c) :
    Cursor.IsIn t.root c.above c.here := by
  unfold locate follow at h
  split at h
  · cases h
  · split at h
    · cases h
    · split at h
      · cases h
      · exact Cursor.isIn_walk (c := .start t.root) rfl h

/-- A path that does not end at a directory ends in one. -/
theorem exists_directory_of_locate {t : FileTree} {path : Path} {c : Cursor}
    (h : t.locate path = .ok c) (hk : ∀ entries, c.here ≠ some (.directory entries)) :
    ∃ dir name, c.location = dir ++ [name] ∧ t.kind? dir = some .directory ∧
      t.kind? (dir ++ [name]) ≠ some .directory := by
  have hi := isIn_locate h
  have hg := Cursor.get?_location hi
  obtain ⟨above, here⟩ := c
  cases above with
  | nil => exact absurd hi (hk t.entries)
  | cons x above =>
    refine ⟨(Cursor.mk above (some x.1)).location, x.2, by simp [Cursor.location], ?_, ?_⟩
    · have := Cursor.get?_location hi.2.2
      simp [kind?, Entry.kind?, this, hi.1]
    · have hl : (Cursor.mk above (some x.1)).location ++ [x.2] =
          (Cursor.mk (x :: above) here).location := by simp [Cursor.location]
      rw [hl, kind?, Entry.kind?, hg]
      cases here with
      | none => simp
      | some e =>
        cases e with
        | file content => simp [Entry.kind]
        | directory entries => exact absurd rfl (hk entries)

/-- Where all directories of a tree are directories of another tree, a path that ends in the one
ends at the same location in the other. -/
theorem exists_locate {t t' : FileTree} {path : Path} {c : Cursor}
    (hd : ∀ here, t.kind? here = some .directory → t'.kind? here = some .directory)
    (h : t.locate path = .ok c) : ∃ c', t'.locate path = .ok c' ∧ c'.location = c.location := by
  unfold locate follow at h ⊢
  split at h
  · cases h
  · next h₁ =>
    split at h
    · cases h
    · next h₂ =>
      split at h
      · cases h
      · next h₃ =>
        simp only [if_neg h₁, if_neg h₂, if_neg h₃]
        have hs : Cursor.IsIn t'.root (Cursor.start t'.root).above (Cursor.start t'.root).here :=
          rfl
        exact Cursor.exists_walk (c := .start t.root) hd rfl hs rfl h

/-- A path opens the file that it leads to, where no directory stands. -/
theorem exists_locate_of_target {t : FileTree} {path : Path} {here : Location}
    (h : t.target path = .ok here) :
    ∃ c, t.locate path = .ok c ∧ c.location = here ∧
      ∀ entries, c.here ≠ some (.directory entries) := by
  unfold target at h
  split at h
  · split at h <;> cases h
  · split at h
    · cases h
    · next c hl =>
      split at h
      · cases h
      · next hc =>
        cases h
        exact ⟨c, hl, rfl, hc⟩

/-- Writing changes one answer, which was not that of a directory. -/
theorem kind?_write {t t' : FileTree} {path : Path} {content : Archive.Bytes}
    (h : t.write path content = .ok t') :
    ∃ c, t.locate path = .ok c ∧ t.kind? c.location ≠ some .directory ∧
      ∀ other, t'.kind? other =
        if c.location = other then some (.file content) else t.kind? other := by
  unfold write at h
  split at h
  · cases h
  · next here ht =>
    cases h
    obtain ⟨c, hl, rfl, hc⟩ := exists_locate_of_target ht
    obtain ⟨dir, name, he, hd, hn⟩ := exists_directory_of_locate hl hc
    exact ⟨c, hl, he ▸ hn, fun other => by rw [he]; exact kind?_put hd hn rfl⟩

theorem read_write {t t' : FileTree} {path : Path} {content : Archive.Bytes}
    (h : t.write path content = .ok t') : t'.read path = .ok content := by
  obtain ⟨c, hl, hn, hk⟩ := kind?_write h
  have hd : ∀ here, t.kind? here = some .directory → t'.kind? here = some .directory := by
    intro here hh
    rw [hk, if_neg (fun he : c.location = here => hn (he ▸ hh))]
    exact hh
  obtain ⟨c', hl', he⟩ := exists_locate hd hl
  have hf := hk c.location
  rw [if_pos rfl, ← he, kind?, Entry.kind?, Cursor.get?_location (isIn_locate hl')] at hf
  rw [read, hl']
  obtain ⟨above, here⟩ := c'
  cases here with
  | none => cases hf
  | some e =>
    cases e with
    | file other => simpa [Entry.kind] using hf
    | directory entries => cases hf

/-! ### Saving as writing -/

/-- A file that was saved was written as a whole. -/
theorem write_of_save {t t' : FileTree} {path : Path} {content : Archive.Bytes}
    (h : t.save path content = (.ok (), t')) : t.write path content = .ok t' := by
  unfold save at h
  unfold write
  split at h
  · cases h
  · split at h
    · cases h
      rfl
    · next room _ =>
      split at h
      · next hfits =>
        cases h
        rw [List.take_of_length_le hfits]
      · cases h

/-- Where a file cannot be saved, nothing has changed, or a proper beginning of it was written. -/
theorem of_save_eq_error {t t' : FileTree} {path : Path} {content : Archive.Bytes} {fault : Fault}
    (h : t.save path content = (.error fault, t')) :
    t' = t ∨ fault = .storageFull ∧
      ∃ cut, t.write path cut = .ok t' ∧ cut <+: content ∧ cut ≠ content := by
  unfold save at h
  unfold write
  split at h
  · cases h
    exact .inl rfl
  · next here _ =>
    split at h
    · cases h
    · next room _ =>
      split at h
      · cases h
      · next hlong =>
        cases h
        refine .inr ⟨rfl, content.take room, rfl, List.take_prefix room content, fun heq => ?_⟩
        -- all that was to be written would have fitted
        have hlen := List.length_take_le room content
        rw [heq] at hlen
        exact hlong hlen

end FileTree

end Presynth
