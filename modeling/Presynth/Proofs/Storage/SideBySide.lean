import Mathlib.Data.List.Infix
import Presynth.Storage.FileTree
/-!
# Files side by side

Writing a file leaves the other files as they are: what is read at another location is read as
before, and a file that stands can be written again. The last part of a path is the name of the file
that it leads to, so paths with different last parts lead to different locations. The names of the
files of a design are known by their endings (`Path.EndsIn`), whatever is in front of them.

Main statements: `FileTree.read_write_of_ne`, `FileTree.exists_write`, `Path.endsIn_below` and
`Path.EndsIn.location_ne`.
-/

namespace Presynth

namespace Cursor

/-- Following a path in two parts is following the one from where the other ends. -/
theorem walk_append {c d : Cursor} {parts more : List String} :
    c.walk (parts ++ more) = .ok d ↔ ∃ e, c.walk parts = .ok e ∧ e.walk more = .ok d := by
  induction parts generalizing c with
  | nil => simp [walk]
  | cons part parts ih =>
      rw [List.cons_append, walk, walk]
      cases c.step part with
      | error fault => simp
      | ok e => exact ih

/-- A part that names something is the last name of the location that it leads to. -/
theorem getLast?_location_of_step {c d : Cursor} {part : String} (h : c.step part = .ok d)
    (hidle : Path.isIdle part = false) (hup : part ≠ "..") :
    d.location.getLast? = some part := by
  unfold step at h
  split at h
  · cases h
  · cases h
  · split at h
    · cases h
    · simp only [hidle, Bool.false_eq_true, if_false] at h
      cases h
      simp [location]

end Cursor

namespace FileTree

/-! ### Other files -/

/-- A path is read where it leads to a file. -/
theorem read_eq_ok_iff {t : FileTree} {path : Path} {content : Archive.Bytes} :
    t.read path = .ok content ↔
      ∃ c, t.locate path = .ok c ∧ t.kind? c.location = some (.file content) := by
  unfold read
  cases hl : t.locate path with
  | error fault => simp
  | ok c =>
      have hget := Cursor.get?_location (isIn_locate hl)
      obtain ⟨above, here⟩ := c
      cases here with
      | none => simp [kind?, Entry.kind?, hget]
      | some e => cases e <;> simp [kind?, Entry.kind?, hget, Entry.kind]

/-- Writing keeps all directories. -/
theorem kind?_directory_of_write {t t' : FileTree} {path : Path} {content : Archive.Bytes}
    (h : t.write path content = .ok t') {here : Location}
    (hd : t.kind? here = some .directory) : t'.kind? here = some .directory := by
  obtain ⟨c, -, hn, hk⟩ := kind?_write h
  have hne : c.location ≠ here := fun he => hn (he ▸ hd)
  rw [hk, if_neg hne, hd]

/-- What is read elsewhere is read as before. -/
theorem read_write_of_ne {t t' : FileTree} {path other : Path} {content old : Archive.Bytes}
    (h : t.write path content = .ok t')
    (hne : ∀ c d, t.locate path = .ok c → t.locate other = .ok d → c.location ≠ d.location)
    (hread : t.read other = .ok old) : t'.read other = .ok old := by
  obtain ⟨d, hd, hold⟩ := read_eq_ok_iff.mp hread
  obtain ⟨c, hc, -, hk⟩ := kind?_write h
  obtain ⟨d', hd', hloc⟩ := exists_locate (fun _ => kind?_directory_of_write h) hd
  refine read_eq_ok_iff.mpr ⟨d', hd', ?_⟩
  rw [hloc, hk, if_neg (hne c d hc hd), hold]

/-- A file that stands can be written again. -/
theorem exists_write {t : FileTree} {path : Path} {old : Archive.Bytes}
    (hparts : path.partsBeforeSlash = path.parts) (hread : t.read path = .ok old)
    (content : Archive.Bytes) : ∃ t', t.write path content = .ok t' := by
  unfold read at hread
  unfold write target
  rw [if_neg (not_not.mpr hparts)]
  cases hl : t.locate path with
  | error fault => simp [hl] at hread
  | ok c =>
      obtain ⟨above, here⟩ := c
      cases here with
      | none => simp [hl] at hread
      | some e =>
          cases e with
          | file _ => exact ⟨_, rfl⟩
          | directory _ => simp [hl] at hread

/-! ### Names of files -/

/-- The last part of a path, where it names something, is the last name of its location. -/
theorem getLast?_location {t : FileTree} {path : Path} {c : Cursor} (h : t.locate path = .ok c)
    {last : String} (hlast : path.parts.getLast? = some last) (hidle : Path.isIdle last = false)
    (hup : last ≠ "..") : c.location.getLast? = some last := by
  obtain ⟨parts, hparts⟩ := List.getLast?_eq_some_iff.mp hlast
  unfold locate follow at h
  split at h
  · cases h
  · split at h
    · cases h
    · split at h
      · cases h
      · rw [hparts, Cursor.walk_append] at h
        obtain ⟨e, -, he⟩ := h
        rw [Cursor.walk] at he
        split at he
        · cases he
        · rename_i d hstep
          cases he
          exact Cursor.getLast?_location_of_step hstep hidle hup

end FileTree

namespace Path

/-! ### Names below a directory -/

theorem splitSlashes_of_not_mem {chars : List Char} (h : '/' ∉ chars) :
    splitSlashes chars = [chars] := by
  induction chars with
  | nil => rfl
  | cons c chars ih =>
      rw [List.mem_cons, not_or] at h
      rw [splitSlashes, if_neg (Ne.symm h.1), ih h.2]

/-- Without a slash in it, an ending of a text is one of its last part. -/
theorem getLast?_splitSlashes_append (chars : List Char) {ending : List Char}
    (hslash : '/' ∉ ending) :
    ∃ start, (splitSlashes (chars ++ ending)).getLast? = some (start ++ ending) := by
  induction chars with
  | nil => exact ⟨[], by rw [List.nil_append, splitSlashes_of_not_mem hslash]; rfl⟩
  | cons c chars ih =>
      obtain ⟨start, hstart⟩ := ih
      rw [List.cons_append, splitSlashes]
      split
      · exact ⟨start, by rw [List.getLast?_cons, hstart]; rfl⟩
      · split
        · rename_i hnil
          rw [hnil] at hstart
          cases hstart
        · rename_i part parts hparts
          rw [hparts] at hstart
          cases parts with
          | nil =>
              obtain rfl : part = start ++ ending := by simpa using hstart
              exact ⟨c :: start, rfl⟩
          | cons p ps => exact ⟨start, by simpa using hstart⟩

/-- The last part of a path ends as its text does, in front of which there may be slashes. -/
theorem getLast?_ofText {name : String} {chars ending : List Char}
    (hname : name.toList = chars ++ ending) (hne : ending ≠ []) (hslash : '/' ∉ ending) :
    ∃ start, (ofText name).parts.getLast? = some (String.ofList (start ++ ending)) := by
  unfold ofText
  split
  · rename_i hnil
    exact absurd (List.append_eq_nil_iff.mp (hname.symm.trans hnil)).2 hne
  · -- the slash at the front is not in the ending
    rename_i rest hrest
    rw [hname] at hrest
    cases chars with
    | nil =>
        rw [List.nil_append] at hrest
        exact absurd (hrest ▸ List.mem_cons_self) hslash
    | cons c chars =>
        obtain ⟨start, hstart⟩ := getLast?_splitSlashes_append chars hslash
        obtain rfl : chars ++ ending = rest := (List.cons.inj hrest).2
        exact ⟨start, by rw [List.getLast?_map, hstart]; rfl⟩
  · obtain ⟨start, hstart⟩ := getLast?_splitSlashes_append chars hslash
    exact ⟨start, by rw [List.getLast?_map, hname, hstart]; rfl⟩

/-- A part of more than two characters names something. -/
theorem isIdle_ofList {chars : List Char} (h : 2 < chars.length) :
    isIdle (String.ofList chars) = false ∧ String.ofList chars ≠ ".." := by
  have hne : ∀ text : String, text.toList.length ≤ 2 → String.ofList chars ≠ text := by
    rintro text ht rfl
    rw [String.toList_ofList] at ht
    omega
  have hempty := hne "" (by decide)
  have hdot := hne "." (by decide)
  exact ⟨by simp [isIdle, hempty, hdot], hne ".." (by decide)⟩

/-- The last part of a path names something, and the name has a certain ending. -/
def EndsIn (path : Path) (ending : List Char) : Prop :=
  ∃ last, path.parts.getLast? = some last ∧ isIdle last = false ∧ last ≠ ".." ∧
    ending <:+ last.toList

/-- The path of a file below a directory ends as its name does, even if there are slashes in front
of the ending. -/
theorem endsIn_below (dir : Path) {name : String} {chars ending : List Char}
    (hname : name.toList = chars ++ ending) (hlen : 2 < ending.length) (hslash : '/' ∉ ending) :
    (dir.below name).EndsIn ending := by
  have hne : ending ≠ [] := List.ne_nil_of_length_pos (by omega)
  obtain ⟨start, hstart⟩ := getLast?_ofText hname hne hslash
  have hlen' : 2 < (start ++ ending).length := by
    rw [List.length_append]
    omega
  obtain ⟨hidle, hup⟩ := isIdle_ofList hlen'
  refine ⟨_, ?_, hidle, hup, ⟨start, (String.toList_ofList ..).symm⟩⟩
  unfold below
  dsimp only
  split
  · exact hstart
  · rw [List.getLast?_append, hstart]
    rfl

namespace EndsIn

variable {path other : Path} {ending ending' : List Char}

/-- There is no slash at the end of a path whose last part names something. -/
theorem partsBeforeSlash_eq (h : path.EndsIn ending) : path.partsBeforeSlash = path.parts := by
  obtain ⟨last, hlast, hidle, -, -⟩ := h
  obtain ⟨parts, hparts⟩ := List.getLast?_eq_some_iff.mp hlast
  have hne : last ≠ "" := fun h => by simp [isIdle, h] at hidle
  simp [partsBeforeSlash, trimEnd, hparts, hne]

/-- The name of what a path leads to has the ending of the path. -/
theorem exists_getLast?_location {t : FileTree} {c : Cursor} (h : path.EndsIn ending)
    (hc : t.locate path = .ok c) :
    ∃ name, c.location.getLast? = some name ∧ ending <:+ name.toList := by
  obtain ⟨last, hlast, hidle, hup, hends⟩ := h
  exact ⟨last, FileTree.getLast?_location hc hlast hidle hup, hends⟩

/-! Two endings of one name are endings of each other, so paths with endings that are not cannot be
confused. -/

theorem ne (h : path.EndsIn ending) (h' : other.EndsIn ending')
    (hlen : ending.length ≤ ending'.length) (hno : ¬ ending <:+ ending') : path ≠ other := by
  rintro rfl
  obtain ⟨last, hlast, -, -, hends⟩ := h
  obtain ⟨last', hlast', -, -, hends'⟩ := h'
  obtain rfl := Option.some.inj (hlast.symm.trans hlast')
  exact hno (List.suffix_of_suffix_length_le hends hends' hlen)

theorem location_ne {t : FileTree} {c d : Cursor} (h : path.EndsIn ending)
    (h' : other.EndsIn ending') (hlen : ending.length ≤ ending'.length)
    (hno : ¬ ending <:+ ending') (hc : t.locate path = .ok c) (hd : t.locate other = .ok d) :
    c.location ≠ d.location := by
  intro heq
  obtain ⟨name, hname, hends⟩ := h.exists_getLast?_location hc
  obtain ⟨name', hname', hends'⟩ := h'.exists_getLast?_location hd
  rw [heq] at hname
  obtain rfl := Option.some.inj (hname.symm.trans hname')
  exact hno (List.suffix_of_suffix_length_le hends hends' hlen)

end EndsIn

end Path

end Presynth
