import Presynth.Proofs.Archive.Stored
import Presynth.Proofs.Storage.Confinement
/-!
# Netlists that share a directory

The files of a netlist are named by the stem of its key, in which design and command are joined by
an underscore. Keys with different stems have different files, whatever the names are, as long as
they can be part of the name of a file; so storing a netlist leaves all others as they are. Keys
with one stem have the same files, although design and command may be divided differently, and then
the netlist that was stored last counts.

Main statements: `file?_writeNetlist` (one netlist stored), `file?_storeInTurn` (many of them)
and `readNetlist_storeInTurn`.
-/

namespace Presynth

/-! ### Names -/

/-- Two lists that are divided at the last occurrence of an element have the same parts. -/
theorem append_cons_inj_of_not_mem {β : Type} {x : β} {as bs cs ds : List β}
    (h : as ++ x :: bs = cs ++ x :: ds) (hbs : x ∉ bs) (hds : x ∉ ds) : as = cs ∧ bs = ds := by
  rcases List.append_eq_append_iff.mp h with ⟨more, hcs, hrest⟩ | ⟨more, has, hrest⟩
  · cases more with
    | nil => exact ⟨by simpa using hcs.symm, by simpa using hrest⟩
    | cons y more =>
        obtain ⟨-, hbs'⟩ := List.cons.inj hrest
        exact absurd (hbs' ▸ List.mem_append_right more List.mem_cons_self) hbs
  · cases more with
    | nil => exact ⟨by simpa using has, by simpa using hrest.symm⟩
    | cons y more =>
        obtain ⟨-, hds'⟩ := List.cons.inj hrest
        exact absurd (hds' ▸ List.mem_append_right more List.mem_cons_self) hds

namespace DesignKey

/-- Design and command can both be part of the name of a file. -/
def IsPlain (key : DesignKey) : Prop := '/' ∉ key.design.toList ∧ '/' ∉ key.cmd.toList

variable {key other : DesignKey}

/-- The underscore between design and command is no slash either. -/
theorem IsPlain.not_mem_stem (h : key.IsPlain) : '/' ∉ key.stem.toList := by
  simp [stem, h.1, h.2]

theorem IsPlain.not_mem_adjacencyFile (h : key.IsPlain) : '/' ∉ key.adjacencyFile.toList := by
  simp [adjacencyFile, h.not_mem_stem]

theorem IsPlain.not_mem_registryFile (h : key.IsPlain) : '/' ∉ key.registryFile.toList := by
  simp [registryFile, h.not_mem_stem]

theorem two_lt_length_adjacencyFile : 2 < key.adjacencyFile.toList.length := by
  rw [adjacencyFile, String.toList_append, List.length_append]
  exact Nat.lt_add_left _ (by decide)

theorem two_lt_length_registryFile : 2 < key.registryFile.toList.length := by
  rw [registryFile, String.toList_append, List.length_append]
  exact Nat.lt_add_left _ (by decide)

/-- The ending is the same for all keys, so the names agree where the stems do. -/
theorem adjacencyFile_eq_iff : key.adjacencyFile = other.adjacencyFile ↔ key.stem = other.stem :=
  String.append_left_inj _

theorem registryFile_eq_iff : key.registryFile = other.registryFile ↔ key.stem = other.stem :=
  String.append_left_inj _

/-- Not even the files of different keys have one name. -/
theorem adjacencyFile_ne_registryFile : key.adjacencyFile ≠ other.registryFile := fun h =>
  (Archive.endsIn_adjacencyPath .root key).ne (Archive.endsIn_registryPath .root other)
    (by decide) (by decide) (congrArg Path.root.below h)

/-- Without an underscore in the commands, the last underscore of a stem divides it. -/
theorem eq_of_stem_eq (h : key.stem = other.stem) (hcmd : '_' ∉ key.cmd.toList)
    (hcmd' : '_' ∉ other.cmd.toList) : key = other := by
  have hchars := congrArg String.toList h
  simp only [stem, String.toList_append, List.append_assoc] at hchars
  obtain ⟨hdesign, hcmd⟩ := append_cons_inj_of_not_mem hchars hcmd hcmd'
  cases key
  cases other
  simp_all [String.toList_inj]

end DesignKey

namespace Path

theorem parts_ofText_of_plain {name : String} (hplain : '/' ∉ name.toList) (hne : name ≠ "") :
    (ofText name).parts = [name] := by
  unfold ofText
  split
  · rename_i hnil
    exact absurd (String.toList_eq_nil_iff.mp hnil) hne
  · rename_i hslash
    exact absurd (hslash ▸ List.mem_cons_self) hplain
  · simp [splitSlashes_of_not_mem hplain]

/-- A file below a directory has its own name at the end of its path. -/
theorem getLast?_below_of_plain (dir : Path) {name : String} (hplain : '/' ∉ name.toList)
    (hne : name ≠ "") : (dir.below name).parts.getLast? = some name := by
  unfold below
  dsimp only
  split <;> simp [parts_ofText_of_plain hplain hne]

end Path

/-- A plain name below a directory is the name of what its path leads to. Two dots would lead out of
the directory, and one nowhere, but such names are shorter. -/
theorem FileTree.LeadsTo.getLast?_eq {t : FileTree} {dir : Path} {name : String} {here : Location}
    (h : t.LeadsTo (dir.below name) here) (hplain : '/' ∉ name.toList)
    (hlen : 2 < name.toList.length) : here.getLast? = some name := by
  obtain ⟨c, hc, rfl⟩ := h
  have hne : name ≠ "" := by
    rintro rfl
    exact absurd hlen (by decide)
  obtain ⟨hidle, hup⟩ := Path.isIdle_ofList hlen
  rw [String.ofList_toList] at hidle hup
  exact getLast?_location hc (dir.getLast?_below_of_plain hplain hne) hidle hup

namespace Archive

variable {α : Type} [BitPattern α]

/-! ### One netlist stored -/

section Stored

variable {files stored : FileTree} {dir : Path} {key : DesignKey} {g : Netlist α}

/-- Storing a netlist keeps all directories. -/
theorem kind?_directory_of_writeNetlist (ok : writeNetlist files dir key g = (.ok (), stored))
    {here : Location} (hd : files.kind? here = some .directory) :
    stored.kind? here = some .directory := by
  obtain ⟨made, between, hmake, hadjacency, hregistry⟩ := writeNetlist_eq_ok_iff.mp ok
  have hadds := FileTree.addsDirectories_makeDirectory hmake
  have hbetween := FileTree.kind?_directory_of_write (of_writeFile_eq_ok hadjacency).2
    (hadds.kind?_directory hd)
  exact FileTree.kind?_directory_of_write (of_writeFile_eq_ok hregistry).2 hbetween

/-- Storing a netlist leaves all files of other names as they are. -/
theorem file?_writeNetlist (ok : writeNetlist files dir key g = (.ok (), stored))
    (hplain : key.IsPlain) {here : Location} (hadj : here.getLast? ≠ some key.adjacencyFile)
    (hreg : here.getLast? ≠ some key.registryFile) : stored.file? here = files.file? here := by
  obtain ⟨made, between, hmake, hadjacency, hregistry⟩ := writeNetlist_eq_ok_iff.mp ok
  have hadds := FileTree.addsDirectories_makeDirectory hmake
  obtain ⟨there, hleads, hfile⟩ := FileTree.replaces_write (of_writeFile_eq_ok hadjacency).2
  obtain ⟨there', hleads', hfile'⟩ := FileTree.replaces_write (of_writeFile_eq_ok hregistry).2
  have hne : there ≠ here := by
    rintro rfl
    exact hadj
      (hleads.getLast?_eq hplain.not_mem_adjacencyFile DesignKey.two_lt_length_adjacencyFile)
  have hne' : there' ≠ here := by
    rintro rfl
    exact hreg
      (hleads'.getLast?_eq hplain.not_mem_registryFile DesignKey.two_lt_length_registryFile)
  rw [hfile', if_neg hne', hfile, if_neg hne, hadds.file?_eq]

end Stored

/-! ### Many netlists stored -/

/-- Stores netlists in a directory one after another, up to the first that cannot be stored. -/
def storeInTurn (dir : Path) :
    List (DesignKey × Netlist α) → FileTree → Except ArchiveError Unit × FileTree
  | [], files => (.ok (), files)
  | (key, g) :: rest, files =>
    match writeNetlist files dir key g with
    | (.error e, files) => (.error e, files)
    | (.ok (), files) => storeInTurn dir rest files

section InTurn

variable {files stored : FileTree} {dir : Path} {writes : List (DesignKey × Netlist α)}

theorem storeInTurn_cons_eq_ok_iff {key : DesignKey} {g : Netlist α} :
    storeInTurn dir ((key, g) :: writes) files = (.ok (), stored) ↔
      ∃ between, writeNetlist files dir key g = (.ok (), between) ∧
        storeInTurn dir writes between = (.ok (), stored) := by
  rw [storeInTurn]
  split
  · rename_i hwrite
    simp [hwrite]
  · rename_i hwrite
    simp [hwrite]

/-- Netlists may be stored in two goes, the second one into what the first has left. -/
theorem storeInTurn_append_eq_ok_iff {earlier later : List (DesignKey × Netlist α)} :
    storeInTurn dir (earlier ++ later) files = (.ok (), stored) ↔
      ∃ between, storeInTurn dir earlier files = (.ok (), between) ∧
        storeInTurn dir later between = (.ok (), stored) := by
  induction earlier generalizing files with
  | nil => simp [storeInTurn]
  | cons w earlier ih =>
      obtain ⟨key, g⟩ := w
      simp only [List.cons_append, storeInTurn_cons_eq_ok_iff, ih]
      constructor
      · rintro ⟨first, hfirst, between, hearlier, hlater⟩
        exact ⟨between, ⟨first, hfirst, hearlier⟩, hlater⟩
      · rintro ⟨between, ⟨first, hfirst, hearlier⟩, hlater⟩
        exact ⟨first, hfirst, between, hearlier, hlater⟩

theorem kind?_directory_of_storeInTurn (ok : storeInTurn dir writes files = (.ok (), stored))
    {here : Location} (hd : files.kind? here = some .directory) :
    stored.kind? here = some .directory := by
  induction writes generalizing files with
  | nil =>
      cases ok
      exact hd
  | cons w writes ih =>
      obtain ⟨between, hwrite, hrest⟩ := storeInTurn_cons_eq_ok_iff.mp ok
      exact ih hrest (kind?_directory_of_writeNetlist hwrite hd)

/-- Files that have the name of no stored netlist are as before. -/
theorem file?_storeInTurn (ok : storeInTurn dir writes files = (.ok (), stored))
    (hplain : ∀ w ∈ writes, w.1.IsPlain) {here : Location}
    (hadj : ∀ w ∈ writes, here.getLast? ≠ some w.1.adjacencyFile)
    (hreg : ∀ w ∈ writes, here.getLast? ≠ some w.1.registryFile) :
    stored.file? here = files.file? here := by
  induction writes generalizing files with
  | nil =>
      cases ok
      rfl
  | cons w writes ih =>
      obtain ⟨between, hwrite, hrest⟩ := storeInTurn_cons_eq_ok_iff.mp ok
      rw [List.forall_mem_cons] at hplain hadj hreg
      rw [ih hrest hplain.2 hadj.2 hreg.2, file?_writeNetlist hwrite hplain.1 hadj.1 hreg.1]

variable {key : DesignKey}

/-- The two files of a netlist are the same unless a netlist of its stem is stored. -/
theorem sameFile_storeInTurn (ok : storeInTurn dir writes files = (.ok (), stored))
    (hplain : ∀ w ∈ writes, w.1.IsPlain) (hkey : key.IsPlain)
    (hne : ∀ w ∈ writes, w.1.stem ≠ key.stem) :
    files.SameFile stored (adjacencyPath dir key) ∧
      files.SameFile stored (registryPath dir key) := by
  constructor
  · intro here hleads
    have hlast :=
      hleads.getLast?_eq hkey.not_mem_adjacencyFile DesignKey.two_lt_length_adjacencyFile
    refine file?_storeInTurn ok hplain (fun w hw heq => ?_) fun w hw heq => ?_
    · rw [hlast, Option.some.injEq, DesignKey.adjacencyFile_eq_iff] at heq
      exact hne w hw heq.symm
    · rw [hlast, Option.some.injEq] at heq
      exact DesignKey.adjacencyFile_ne_registryFile heq
  · intro here hleads
    have hlast :=
      hleads.getLast?_eq hkey.not_mem_registryFile DesignKey.two_lt_length_registryFile
    refine file?_storeInTurn ok hplain (fun w hw heq => ?_) fun w hw heq => ?_
    · rw [hlast, Option.some.injEq] at heq
      exact DesignKey.adjacencyFile_ne_registryFile heq.symm
    · rw [hlast, Option.some.injEq, DesignKey.registryFile_eq_iff] at heq
      exact hne w hw heq.symm

end InTurn

/-! ### Reading -/

section Reading

variable {files stored : FileTree} {dir : Path} {key other : DesignKey} {g : Netlist α}

theorem readFile_eq_ok_iff {β : Type} {path : Path} {kind : PayloadKind} {read : Reader β}
    {x : β} : readFile files path kind read = .ok x ↔
      ∃ file, files.read path = .ok file ∧ contentOf kind read file = .ok x := by
  unfold readFile
  cases files.read path with
  | error fault => simp
  | ok file => cases h : contentOf kind read file <;> simp [h]

theorem readNetlist_eq_ok_iff : readNetlist files dir key = .ok g ↔
    readFile files (adjacencyPath dir key) .Adjacency readFanout = .ok g.fanout ∧
      readRegistryFile files dir key = .ok g.registry := by
  unfold readNetlist
  cases readFile files (adjacencyPath dir key) .Adjacency readFanout with
  | error e => simp [bind, Except.bind]
  | ok fanout =>
      cases readRegistryFile (α := α) files dir key with
      | error e => simp [bind, Except.bind]
      | ok registry =>
          cases g
          simp [bind, Except.bind, pure, Except.pure, and_comm]

/-- A netlist whose files are the same is read as before. -/
theorem readNetlist_of_sameFile (hadj : files.SameFile stored (adjacencyPath dir key))
    (hreg : files.SameFile stored (registryPath dir key))
    (hd : ∀ here, files.kind? here = some .directory → stored.kind? here = some .directory)
    (hread : readNetlist files dir key = .ok g) : readNetlist stored dir key = .ok g := by
  obtain ⟨hfanout, hregistry⟩ := readNetlist_eq_ok_iff.mp hread
  obtain ⟨file, hfile, hcontent⟩ := readFile_eq_ok_iff.mp hfanout
  obtain ⟨file', hfile', hcontent'⟩ := readFile_eq_ok_iff.mp hregistry
  exact readNetlist_eq_ok_iff.mpr ⟨readFile_eq_ok_iff.mpr ⟨file, hadj.read hd hfile, hcontent⟩,
    readFile_eq_ok_iff.mpr ⟨file', hreg.read hd hfile', hcontent'⟩⟩

/-- Keys with the same stem name the same files. -/
theorem readNetlist_of_stem_eq (h : other.stem = key.stem) :
    readNetlist (α := α) files dir other = readNetlist files dir key := by
  simp only [readNetlist, readRegistryFile, adjacencyPath, registryPath, DesignKey.adjacencyFile,
    DesignKey.registryFile, h]

end Reading

/-- Netlists that were stored in one directory, under keys of any names that can be part of the name
of a file, are told apart by the stems of their keys. Under a key, the netlist is read that was
stored last under its stem; if there was none, the two files are those that stood there before, and
a netlist that could be read is read as before. Keys have one stem only if they are the same or one
of the commands holds an underscore. -/
theorem readNetlist_storeInTurn [LawfulBitPattern α] {files stored : FileTree} {dir : Path}
    {writes : List (DesignKey × Netlist α)} (ok : storeInTurn dir writes files = (.ok (), stored))
    (hplain : ∀ w ∈ writes, w.1.IsPlain) {key : DesignKey} (hkey : key.IsPlain) :
    (∀ earlier other g later, writes = earlier ++ (other, g) :: later → other.stem = key.stem →
        (∀ w ∈ later, w.1.stem ≠ key.stem) →
          readNetlist stored dir key = .ok g ∧ readRegistryFile stored dir key = .ok g.registry) ∧
      ((∀ w ∈ writes, w.1.stem ≠ key.stem) →
        files.SameFile stored (adjacencyPath dir key) ∧
          files.SameFile stored (registryPath dir key) ∧
          ∀ g : Netlist α, readNetlist files dir key = .ok g → readNetlist stored dir key = .ok g) ∧
      ∀ w ∈ writes, w.1.stem = key.stem → '_' ∉ w.1.cmd.toList → '_' ∉ key.cmd.toList →
        w.1 = key := by
  refine ⟨fun earlier other g later hwrites hstem hlater => ?_, fun hne => ?_,
    fun w _ hstem hcmd hcmd' => DesignKey.eq_of_stem_eq hstem hcmd hcmd'⟩
  · subst hwrites
    -- the netlist can be read when it is stored, and what is stored later has files of other names
    obtain ⟨before, -, hlast⟩ := storeInTurn_append_eq_ok_iff.mp ok
    obtain ⟨between, hwrite, hrest⟩ := storeInTurn_cons_eq_ok_iff.mp hlast
    have hplain' : ∀ w ∈ later, w.1.IsPlain := fun w hw => hplain w (by simp [hw])
    obtain ⟨hadj, hreg⟩ := sameFile_storeInTurn hrest hplain' hkey hlater
    have hthen : readNetlist between dir key = .ok g := by
      rw [← readNetlist_of_stem_eq hstem]
      exact (isStored_of_writeNetlist hwrite).readNetlist
    have hread := readNetlist_of_sameFile hadj hreg
      (fun _ => kind?_directory_of_storeInTurn hrest) hthen
    exact ⟨hread, (readNetlist_eq_ok_iff.mp hread).2⟩
  · obtain ⟨hadj, hreg⟩ := sameFile_storeInTurn ok hplain hkey hne
    exact ⟨hadj, hreg, fun g =>
      readNetlist_of_sameFile hadj hreg fun _ => kind?_directory_of_storeInTurn ok⟩

/-- A netlist without signals. -/
def bare : Netlist UInt64 := ⟨.empty, .empty⟩

/-- Two designs, the first one under two keys of one stem. -/
def uartWrites : List (DesignKey × Netlist UInt64) :=
  [(⟨"uart_tx", "sog"⟩, oddments), (⟨"uart", "tx_sog"⟩, bare), (⟨"uart", "sog"⟩, oddments)]

/-- Two designs whose names share a beginning. Of the first, the netlist that was stored under the
other key of its stem is read. -/
theorem readNetlist_storeInTurn_uart : ∃ stored,
    storeInTurn (.ofText "g") uartWrites .empty = (.ok (), stored) ∧
      (∀ w ∈ uartWrites, w.1.IsPlain) ∧
      readNetlist stored (.ofText "g") ⟨"uart_tx", "sog"⟩ = .ok bare ∧
      readNetlist stored (.ofText "g") ⟨"uart", "sog"⟩ = .ok oddments := by
  have ok : (storeInTurn (.ofText "g") uartWrites .empty).1 = .ok () := by decide +kernel
  have hplain : ∀ w ∈ uartWrites, w.1.IsPlain := by simp [uartWrites, DesignKey.IsPlain]
  have hover := (readNetlist_storeInTurn (Prod.ext ok rfl) hplain
    (hplain (⟨"uart_tx", "sog"⟩, oddments) (by simp [uartWrites]))).1 [_] _ bare [_] rfl rfl
      (by decide)
  have hlast := (readNetlist_storeInTurn (Prod.ext ok rfl) hplain
    (hplain (⟨"uart", "sog"⟩, oddments) (by simp [uartWrites]))).1 [_, _] _ oddments [] rfl rfl
      (by simp)
  exact ⟨_, Prod.ext ok rfl, hplain, hover.1, hlast.1⟩

/-- A design can lose its netlist to another, whose name ends elsewhere in the same stem. -/
theorem storeInTurn_overwrites : ∃ stored,
    storeInTurn (.ofText "g") [(⟨"a_b", "c"⟩, oddments), (⟨"a", "b_c"⟩, bare)] .empty =
        (.ok (), stored) ∧
      (⟨"a_b", "c"⟩ : DesignKey) ≠ ⟨"a", "b_c"⟩ ∧
      readNetlist stored (.ofText "g") ⟨"a_b", "c"⟩ = .ok bare ∧ bare ≠ oddments := by
  have ok : (storeInTurn (.ofText "g") [(⟨"a_b", "c"⟩, oddments), (⟨"a", "b_c"⟩, bare)]
      .empty).1 = .ok () := by decide +kernel
  obtain ⟨between, -, hrest⟩ := storeInTurn_cons_eq_ok_iff.mp (Prod.ext ok rfl)
  obtain ⟨stored, hwrite, hend⟩ := storeInTurn_cons_eq_ok_iff.mp hrest
  cases hend
  have hread := (isStored_of_writeNetlist hwrite).readNetlist
  exact ⟨_, Prod.ext ok rfl, by decide, hread, by decide +kernel⟩

end Archive

end Presynth
