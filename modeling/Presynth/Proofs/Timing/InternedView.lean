import Mathlib.Algebra.Ring.Int.Defs
import Presynth.Proofs.Timing.Naming
/-!
# The view over an interner

The numbers of names may come from a general interner of texts, which keeps a table of its own and
hands out keys. All that is relied on is that a known text gets its key again and a new one the next
key. After the names of a netlist were interned, the keys are the numbers of its view, whatever the
interner does inside, so the tables of the view are those that one would build over the keys. A
fanout list leaves out names without a key; there are none.

Main statements: `Interner.Holds.intern` (one name), `Interner.holds_index` (all names of a netlist)
and `Netlist.timingView_interned`.
-/

namespace Presynth

variable {α σ : Type}

/-! ### Interners -/

/-- The operations of an interner with tables of type `σ`. -/
structure Interner (σ : Type) where
  empty : σ
  /-- The key of a text, which is taken in if it is new. -/
  intern : σ → String → σ × Nat
  /-- The key of a text, if it was taken in. -/
  key? : σ → String → Option Nat
  /-- The text of a key, if it was handed out. -/
  text? : σ → Nat → Option String
  /-- The number of texts taken in. -/
  size : σ → Nat

namespace Interner

variable {interner : Interner σ}

/-- What is relied on: an empty table holds nothing, and what interning one text does to a table. -/
structure Lawful (interner : Interner σ) : Prop where
  size_empty : interner.size interner.empty = 0
  key?_empty : ∀ text, interner.key? interner.empty text = none
  text?_empty : ∀ k, interner.text? interner.empty k = none
  /-- A known text gets its key again, a new one the next key. -/
  snd_intern : ∀ s text, (interner.intern s text).2 = (interner.key? s text).getD (interner.size s)
  /-- Only a new text is counted. -/
  size_intern : ∀ s text, interner.size (interner.intern s text).1 =
    if interner.key? s text = none then interner.size s + 1 else interner.size s
  /-- The text is found under the key returned, and every other text as before. -/
  key?_intern : ∀ s text other, interner.key? (interner.intern s text).1 other =
    if other = text then some (interner.intern s text).2 else interner.key? s other
  /-- The key returned stands for the text, and every other key for what it did before. -/
  text?_intern : ∀ s text k, interner.text? (interner.intern s text).1 k =
    if k = (interner.intern s text).2 then some text else interner.text? s k

theorem getElem?_concat (names : List String) (name : String) (k : Nat) :
    (names ++ [name])[k]? = if k = names.length then some name else names[k]? := by
  rw [List.getElem?_append]
  grind

/-- The interner whose table is the list of its texts and whose keys are their positions. -/
def byPosition : Interner (List String) where
  empty := []
  intern names name := (Netlist.intern names name, names.idxOf name)
  key? names name := if name ∈ names then some (names.idxOf name) else none
  text? names k := names[k]?
  size names := names.length

/-- A list of names in the order of their numbers is an interner. -/
theorem lawful_byPosition : byPosition.Lawful where
  size_empty := rfl
  key?_empty := fun _ => rfl
  text?_empty := fun _ => rfl
  snd_intern := fun names name => by
    by_cases hname : name ∈ names <;> simp [byPosition, hname]
  size_intern := fun names name => by
    by_cases hname : name ∈ names <;> simp [byPosition, Netlist.intern, hname]
  key?_intern := fun names name other => by
    by_cases hother : other = name
    · by_cases hname : name ∈ names <;>
        simp [byPosition, Netlist.intern, hname, hother, List.idxOf_append]
    · by_cases hname : name ∈ names <;> by_cases hmem : other ∈ names <;>
        simp [byPosition, Netlist.intern, hname, hother, hmem, List.idxOf_append]
  text?_intern := fun names name k => by
    by_cases hname : name ∈ names
    · by_cases hk : k = names.idxOf name <;> simp [byPosition, Netlist.intern, hname, hk]
    · simp [byPosition, Netlist.intern, hname, getElem?_concat]

/-! ### The names of a netlist, one after the other -/

/-- The table after the names of a netlist were interned: first those in its fanout lists, then the
registered ones. -/
def index (interner : Interner σ) (g : Netlist α) : σ :=
  (g.signals ++ g.registry.keys).foldl (fun s name => (interner.intern s name).1) interner.empty

/-- The keys of a table are the positions in a list of names. -/
structure Holds (interner : Interner σ) (s : σ) (names : List String) : Prop where
  size : interner.size s = names.length
  key? : ∀ name k, interner.key? s name = some k ↔ names[k]? = some name
  text? : ∀ k, interner.text? s k = names[k]?

theorem holds_empty (h : interner.Lawful) : interner.Holds interner.empty [] :=
  ⟨h.size_empty, fun name k => by simp [h.key?_empty], fun k => by simp [h.text?_empty]⟩

theorem Holds.key?_eq_none_iff {s : σ} {names : List String} (hs : interner.Holds s names)
    {name : String} : interner.key? s name = none ↔ name ∉ names := by
  rw [Option.eq_none_iff_forall_ne_some, List.mem_iff_getElem?, not_exists]
  exact forall_congr' fun k => (hs.key? name k).not

/-- A name that is known stays where it is, -/
theorem Holds.intern_of_mem (h : interner.Lawful) {s : σ} {names : List String}
    (hs : interner.Holds s names) {name : String} (hname : name ∈ names) :
    interner.Holds (interner.intern s name).1 names := by
  obtain ⟨key, hkey⟩ := List.mem_iff_getElem?.mp hname
  have hknown : interner.key? s name = some key := (hs.key? name key).mpr hkey
  have hsnd : (interner.intern s name).2 = key := by rw [h.snd_intern, hknown, Option.getD_some]
  refine ⟨?_, fun other k => ?_, fun k => ?_⟩
  · rw [h.size_intern, if_neg (by simp [hknown]), hs.size]
  · rw [h.key?_intern, hsnd, ← hs.key?]
    split
    · rename_i hother
      rw [hother, hknown]
    · rfl
  · rw [h.text?_intern, hsnd, hs.text?]
    split
    · rename_i hk
      rw [hk, hkey]
    · rfl

/-- and a new one is put behind all others. -/
theorem Holds.intern_of_not_mem (h : interner.Lawful) {s : σ} {names : List String}
    (hs : interner.Holds s names) {name : String} (hname : name ∉ names) :
    interner.Holds (interner.intern s name).1 (names ++ [name]) := by
  have hnew : interner.key? s name = none := hs.key?_eq_none_iff.mpr hname
  have hsnd : (interner.intern s name).2 = names.length := by
    rw [h.snd_intern, hnew, Option.getD_none, hs.size]
  refine ⟨?_, fun other k => ?_, fun k => ?_⟩
  · rw [h.size_intern, if_pos hnew, hs.size, List.length_append, List.length_singleton]
  · rw [h.key?_intern, hsnd, getElem?_concat]
    by_cases hother : other = name
    · -- the new name has no other place
      have hplace : names[k]? ≠ some name := fun hk => hname (List.mem_of_getElem? hk)
      subst hother
      by_cases hk : k = names.length
      · simp [hk]
      · simp [hk, hplace, Ne.symm hk]
    · rw [if_neg hother, hs.key?]
      by_cases hk : k = names.length
      · simp [hk, Ne.symm hother]
      · rw [if_neg hk]
  · rw [h.text?_intern, hsnd, hs.text?, getElem?_concat]

/-- One more name, known or not: the interner goes on holding what the list of names holds. -/
theorem Holds.intern (h : interner.Lawful) {s : σ} {names : List String}
    (hs : interner.Holds s names) (name : String) :
    interner.Holds (interner.intern s name).1 (Netlist.intern names name) := by
  unfold Netlist.intern
  split
  · exact hs.intern_of_mem h ‹_›
  · exact hs.intern_of_not_mem h ‹_›

theorem Holds.internAll (h : interner.Lawful) {s : σ} {names : List String}
    (hs : interner.Holds s names) (more : List String) :
    interner.Holds (more.foldl (fun s name => (interner.intern s name).1) s)
      (more.foldl Netlist.intern names) := by
  induction more generalizing s names with
  | nil => exact hs
  | cons name more ih => exact ih (hs.intern h name)

/-- The keys of the names of a netlist are the numbers of these names. -/
theorem holds_index (h : interner.Lawful) (g : Netlist α) :
    interner.Holds (interner.index g) g.internedNames :=
  (holds_empty h).internAll h (g.signals ++ g.registry.keys)

end Interner

/-! ### The view over the keys -/

namespace Netlist

/-- A name is mentioned as a driver, as what is fed or as what is registered. -/
def Mentions (g : Netlist α) (name : String) : Prop :=
  (∃ e ∈ g.fanout.toList, name = e.1 ∨ name ∈ e.2) ∨ name ∈ g.registry.keys

theorem mem_internedNames_iff {g : Netlist α} {name : String} :
    name ∈ g.internedNames ↔ g.Mentions name := by
  rw [mem_internedNames, mem_signals, Mentions, NameMap.mem_keys_iff]
  rfl

theorem getElem?_internedNames (g : Netlist α) (i : Fin g.internedSize) :
    g.internedNames[i.val]? = some (g.timingView.name i) :=
  List.getElem?_eq_getElem i.isLt

variable {interner : Interner σ}

/-- The key of a name in the index is its number in the netlist. -/
theorem key?_index (h : interner.Lawful) (g : Netlist α) (name : String) :
    interner.key? (interner.index g) name = (g.numbering.id? name).map Fin.val := by
  refine Option.ext fun k => ?_
  rw [(Interner.holds_index h g).key?, Option.map_eq_some_iff]
  simp only [numbering_id?_eq_some_iff]
  constructor
  · intro hk
    obtain ⟨hlt, hname⟩ := List.getElem?_eq_some_iff.mp hk
    exact ⟨⟨k, hlt⟩, hname, rfl⟩
  · rintro ⟨i, rfl, rfl⟩
    exact g.getElem?_internedNames i

/-- The key of a name is its number in the view. -/
theorem key?_name (h : interner.Lawful) (g : Netlist α) (i : Fin g.internedSize) :
    interner.key? (interner.index g) (g.timingView.name i) = some i.val := by
  have hid : g.numbering.id? (g.timingView.name i) = some i := numbering_id?_eq_some_iff.mpr rfl
  rw [key?_index h, hid, Option.map_some]

/-- An interner gives the names of a netlist, and no others, the keys below their number, each key
to one name, and these are the numbers that the netlist gives them. The view is the netlist over the
keys: a signal has the delay and the kind of its name, and its fanout list holds the keys of all
entries of the list of its name, in order and with repetitions. -/
theorem timingView_interned (h : interner.Lawful) (g : Netlist α) :
    let index := interner.index g
    (∀ name, (interner.key? index name).isSome ↔ g.Mentions name) ∧
    (∀ k, (interner.text? index k).isSome ↔ k < interner.size index) ∧
    (∀ name k, interner.key? index name = some k ↔ interner.text? index k = some name) ∧
    interner.size index = g.internedSize ∧
    (∀ name, interner.key? index name = (g.numbering.id? name).map Fin.val) ∧
    ∀ i : Fin g.internedSize,
      interner.text? index i = some (g.timingView.name i) ∧
      (g.neighbors (g.timingView.name i)).filterMap (interner.key? index) =
        (g.timingView.fanout i).map Fin.val ∧
      (g.neighbors (g.timingView.name i)).map (interner.key? index) =
        (g.timingView.fanout i).map (some ∘ Fin.val) ∧
      g.timingView.delays.get i = (g.node? (g.timingView.name i)).map (·.delay) ∧
      g.timingView.kind i = g.timingKind? (g.timingView.name i) := by
  intro index
  have hs : interner.Holds index g.internedNames := Interner.holds_index h g
  have hview := g.isViewOf_timingView
  refine ⟨fun name => ?_, fun k => ?_, fun name k => ?_, hs.size, key?_index h g, fun i => ?_⟩
  · rw [← mem_internedNames_iff, ← not_iff_not, ← hs.key?_eq_none_iff]
    simp
  · rw [hs.text?, hs.size]
    simp
  · rw [hs.key?, hs.text?]
  · have hkeys : interner.key? index ∘ g.timingView.name = some ∘ Fin.val :=
      funext (key?_name h g)
    refine ⟨?_, ?_, ?_, hview.delays i, hview.kind i⟩
    · rw [hs.text?, g.getElem?_internedNames]
    · rw [← g.map_fanout_timingView, List.filterMap_map, hkeys, List.filterMap_eq_map]
    · rw [← g.map_fanout_timingView, List.map_map, hkeys]

end Netlist

/-- A register that feeds one of its bits twice and something that is not registered, next to a wire
that is not connected. -/
def Netlist.scattered : Netlist Int :=
  let node (name : String) (kind : NodeKind) (father : Option String) (delay : Option Int) :
      Node Int :=
    ⟨name, kind, none, father, delay, none, 0⟩
  { registry := .ofList [("a", node "a" .Reg none (some 1)),
      ("alone", node "alone" .Wire none none), ("b", node "b" .Pointer (some "a") (some 0))]
    fanout := .ofList [("a", ["b", "b", "ghost"])] }

/-- The wire comes last, since no fanout list names it, and the name without a node has a key. -/
theorem Netlist.timingView_interned_scattered :
    let index := Interner.byPosition.index scattered
    let a : Fin scattered.internedSize := ⟨0, by decide +kernel⟩
    let b : Fin scattered.internedSize := ⟨1, by decide +kernel⟩
    Interner.byPosition.Lawful ∧
      Interner.byPosition.key? index "alone" = some 3 ∧
      Interner.byPosition.key? index "other" = none ∧ ¬ scattered.Mentions "other" ∧
      (scattered.timingView.fanout a).map Fin.val = [1, 1, 2] ∧
      (scattered.neighbors "a").filterMap (Interner.byPosition.key? index) = [1, 1, 2] ∧
      scattered.timingView.delays.get a = some (some 1) ∧
      scattered.timingView.kind b = some .Reg := by
  intro index a b
  obtain ⟨hmentions, -, -, -, -, htables⟩ :=
    scattered.timingView_interned Interner.lawful_byPosition
  obtain ⟨-, hfanout, -, -, -⟩ := htables a
  have hlist : (scattered.timingView.fanout a).map Fin.val = [1, 1, 2] := by decide +kernel
  have hname : scattered.timingView.name a = "a" := by decide +kernel
  rw [hlist, hname] at hfanout
  refine ⟨Interner.lawful_byPosition, by decide +kernel, by decide +kernel, ?_, hlist, hfanout,
    by decide +kernel, by decide +kernel⟩
  rw [← hmentions]
  decide +kernel

end Presynth
