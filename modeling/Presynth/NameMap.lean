/-!
# Maps keyed by name

A `NameMap β` lists its entries in strictly increasing order of their names. The order is that of
the code points, which is also the order in which the entries are walked, written and reported.
Because the list is sorted and no name occurs twice, two maps with the same look-ups are equal.

Main statements: `get?_insert`, `get?_erase` (what each operation does to look-ups),
`mem_toList_iff` (the listing holds exactly the look-ups) and `ext_get?` (a map is its look-ups).
-/

namespace Presynth

variable {β γ : Type}

namespace NameMap

/-! ### Entry lists -/

/-- The entry list is strictly sorted by name. -/
def Sorted (entries : List (String × β)) : Prop :=
  entries.Pairwise (fun a b => a.1 < b.1)

/-- The value that an entry list holds for `name`. -/
def lookup (name : String) : List (String × β) → Option β
  | [] => none
  | (k, x) :: rest => if k = name then some x else lookup name rest

/-- Puts an entry in its place in name order; an entry of the same name gives way. -/
def place (name : String) (value : β) : List (String × β) → List (String × β)
  | [] => [(name, value)]
  | (k, x) :: rest =>
    if name < k then (name, value) :: (k, x) :: rest
    else if name = k then (name, value) :: rest
    else (k, x) :: place name value rest

theorem mem_place {name : String} {value : β} {e : String × β} {l : List (String × β)}
    (h : e ∈ place name value l) : e = (name, value) ∨ e ∈ l := by
  induction l with
  | nil => simpa [place] using h
  | cons hd tl ih =>
    rw [place] at h
    split at h
    · simpa using h
    · split at h
      · rcases List.mem_cons.1 h with h | h
        · exact .inl h
        · exact .inr (List.mem_cons_of_mem _ h)
      · rcases List.mem_cons.1 h with h | h
        · exact .inr (h ▸ List.mem_cons_self)
        · exact (ih h).imp id (List.mem_cons_of_mem _)

theorem sorted_place (name : String) (value : β) {l : List (String × β)} (h : Sorted l) :
    Sorted (place name value l) := by
  induction l with
  | nil => simp [place, Sorted]
  | cons hd tl ih =>
    obtain ⟨k, x⟩ := hd
    obtain ⟨hk, ht⟩ := List.pairwise_cons.1 h
    rw [Sorted, place]
    split
    · next h1 =>
      refine List.pairwise_cons.2 ⟨fun e he => ?_, h⟩
      rcases List.mem_cons.1 he with rfl | he
      · exact h1
      · exact String.lt_trans h1 (hk e he)
    · next h1 =>
      split
      · next h2 => exact List.pairwise_cons.2 ⟨fun e he => h2 ▸ hk e he, ht⟩
      · next h2 =>
        have hlt : k < name := by
          rcases Decidable.em (k < name) with h3 | h3
          · exact h3
          · exact absurd (String.le_antisymm (String.not_lt.1 h3) (String.not_lt.1 h1)) h2
        refine List.pairwise_cons.2 ⟨fun e he => ?_, ih ht⟩
        rcases mem_place he with rfl | he
        · exact hlt
        · exact hk e he

theorem lookup_place (name other : String) (value : β) (l : List (String × β)) :
    lookup other (place name value l) = if name = other then some value else lookup other l := by
  induction l with
  | nil => simp [place, lookup]
  | cons hd tl ih =>
    obtain ⟨k, x⟩ := hd
    rw [place]
    split
    · simp [lookup]
    · split
      · next h2 => subst h2; by_cases h : name = other <;> simp [lookup, h]
      · next h2 =>
        simp only [lookup, ih]
        by_cases hk : k = other
        · subst hk; simp [h2]
        · simp [hk]

theorem lookup_eq_some_iff {name : String} {value : β} {l : List (String × β)} (h : Sorted l) :
    lookup name l = some value ↔ (name, value) ∈ l := by
  induction l with
  | nil => simp [lookup]
  | cons hd tl ih =>
    obtain ⟨k, x⟩ := hd
    obtain ⟨hk, ht⟩ := List.pairwise_cons.1 h
    by_cases hkn : k = name
    · subst hkn
      have : (k, value) ∉ tl := fun hy => String.lt_irrefl k (hk (k, value) hy)
      simp [lookup, this, eq_comm]
    · simp [lookup, hkn, ih ht, Ne.symm hkn]

theorem lookup_eq_none_iff {name : String} {l : List (String × β)} :
    lookup name l = none ↔ ∀ e ∈ l, e.1 ≠ name := by
  induction l with
  | nil => simp [lookup]
  | cons hd tl ih => by_cases h : hd.1 = name <;> simp [lookup, h, ih]

theorem eq_of_lookup_eq {l₁ l₂ : List (String × β)} (h₁ : Sorted l₁) (h₂ : Sorted l₂)
    (h : ∀ name, lookup name l₁ = lookup name l₂) : l₁ = l₂ := by
  induction l₁ generalizing l₂ with
  | nil =>
    cases l₂ with
    | nil => rfl
    | cons e tl => have := h e.1; simp [lookup] at this
  | cons e₁ t₁ ih =>
    cases l₂ with
    | nil => have := h e₁.1; simp [lookup] at this
    | cons e₂ t₂ =>
      obtain ⟨hk₁, ht₁⟩ := List.pairwise_cons.1 h₁
      obtain ⟨hk₂, ht₂⟩ := List.pairwise_cons.1 h₂
      -- each head occurs in the other list, so neither can come before the other
      have mem₁ : e₁ ∈ e₂ :: t₂ := by
        refine (lookup_eq_some_iff h₂).1 ?_
        rw [← h]; simp [lookup]
      have mem₂ : e₂ ∈ e₁ :: t₁ := by
        refine (lookup_eq_some_iff h₁).1 ?_
        rw [h]; simp [lookup]
      have he : e₁ = e₂ := by
        rcases List.mem_cons.1 mem₁ with h | h
        · exact h
        rcases List.mem_cons.1 mem₂ with h' | h'
        · exact h'.symm
        exact absurd (hk₁ _ h') (String.lt_asymm (hk₂ _ h))
      subst he
      congr 1
      refine ih ht₁ ht₂ fun name => ?_
      by_cases hn : e₁.1 = name
      · have n₁ : lookup name t₁ = none :=
          lookup_eq_none_iff.2 fun e he hen => String.lt_irrefl _ (hen ▸ hn ▸ hk₁ e he)
        have n₂ : lookup name t₂ = none :=
          lookup_eq_none_iff.2 fun e he hen => String.lt_irrefl _ (hen ▸ hn ▸ hk₂ e he)
        rw [n₁, n₂]
      · simpa [lookup, hn] using h name

end NameMap

/-! ### Maps -/

/-- A finite map from names to values of type `β`, listed in name order. -/
structure NameMap (β : Type) where
  /-- The entries in increasing order of their names. -/
  toList : List (String × β)
  /-- The entries stand in strict name order. -/
  sorted : NameMap.Sorted toList

namespace NameMap

/-- The map without entries. -/
def empty : NameMap β := ⟨[], List.Pairwise.nil⟩

instance : Inhabited (NameMap β) := ⟨empty⟩

instance : EmptyCollection (NameMap β) := ⟨empty⟩

instance [DecidableEq β] : DecidableEq (NameMap β) := fun a b =>
  decidable_of_iff (a.toList = b.toList)
    ⟨fun h => by cases a; cases b; cases h; rfl, fun h => h ▸ rfl⟩

instance [BEq β] : BEq (NameMap β) := ⟨fun a b => a.toList == b.toList⟩

/-- The value held for `name`. -/
def get? (m : NameMap β) (name : String) : Option β := lookup name m.toList

/-- Binds `name` to `value`, replacing an older binding. -/
def insert (m : NameMap β) (name : String) (value : β) : NameMap β :=
  ⟨place name value m.toList, sorted_place name value m.sorted⟩

/-- Removes the binding of `name`, if there is one. -/
def erase (m : NameMap β) (name : String) : NameMap β :=
  ⟨m.toList.filter (fun e => e.1 ≠ name), List.Pairwise.sublist List.filter_sublist m.sorted⟩

/-- Applies `f` to every value. -/
def map (f : β → γ) (m : NameMap β) : NameMap γ :=
  ⟨m.toList.map (fun e => (e.1, f e.2)), List.pairwise_map.2 (m.sorted.imp fun h => h)⟩

/-- Replaces the value at `name` by its image, if there is one. -/
def modify (m : NameMap β) (name : String) (f : β → β) : NameMap β :=
  match m.get? name with
  | none => m
  | some x => m.insert name (f x)

/-- Collects entries from a list; of two entries with one name the later wins. -/
def ofList (entries : List (String × β)) : NameMap β :=
  entries.foldl (fun m e => m.insert e.1 e.2) empty

/-- The names in increasing order. -/
def keys (m : NameMap β) : List String := m.toList.map (·.1)

/-- The values in increasing order of their names. -/
def values (m : NameMap β) : List β := m.toList.map (·.2)

/-- The number of names. -/
def size (m : NameMap β) : Nat := m.toList.length

/-- Is there a value for `name`? -/
def contains (m : NameMap β) (name : String) : Bool := (m.get? name).isSome

/-! ### Look-ups after each operation -/

@[simp] theorem get?_empty (name : String) : (empty : NameMap β).get? name = none := rfl

@[simp] theorem toList_empty : (empty : NameMap β).toList = [] := rfl

@[grind =] theorem get?_insert (m : NameMap β) (name other : String) (value : β) :
    (m.insert name value).get? other = if name = other then some value else m.get? other :=
  lookup_place name other value m.toList

@[simp] theorem get?_insert_self (m : NameMap β) (name : String) (value : β) :
    (m.insert name value).get? name = some value := by simp [get?_insert]

theorem mem_toList_iff {m : NameMap β} {name : String} {value : β} :
    (name, value) ∈ m.toList ↔ m.get? name = some value :=
  (lookup_eq_some_iff m.sorted).symm

theorem get?_eq_none_iff {m : NameMap β} {name : String} :
    m.get? name = none ↔ name ∉ m.keys := by
  simp only [get?, lookup_eq_none_iff, keys, List.mem_map, not_exists, not_and, ne_eq]

theorem mem_keys_iff {m : NameMap β} {name : String} :
    name ∈ m.keys ↔ ∃ value, m.get? name = some value := by
  rw [← Option.isSome_iff_exists, ← Option.not_isNone, ← Decidable.not_iff_not]
  simp [get?_eq_none_iff]

/-- A map is determined by its look-ups. -/
theorem ext_get? {m₁ m₂ : NameMap β} (h : ∀ name, m₁.get? name = m₂.get? name) : m₁ = m₂ := by
  cases m₁; cases m₂
  congr 1
  exact eq_of_lookup_eq ‹_› ‹_› h

@[grind =] theorem get?_erase (m : NameMap β) (name other : String) :
    (m.erase name).get? other = if name = other then none else m.get? other := by
  refine Option.ext fun value => ?_
  by_cases h : name = other
  · subst h
    simp [← mem_toList_iff, erase]
  · simp [← mem_toList_iff, erase, h, Ne.symm h]

@[grind =] theorem get?_modify (m : NameMap β) (name other : String) (f : β → β) :
    (m.modify name f).get? other =
      if name = other then (m.get? other).map f else m.get? other := by
  unfold modify
  split
  · next h => by_cases hn : name = other <;> simp_all
  · next x h => by_cases hn : name = other <;> simp_all [get?_insert]

@[grind =] theorem get?_map (f : β → γ) (m : NameMap β) (name : String) :
    (m.map f).get? name = (m.get? name).map f := by
  refine Option.ext fun value => ?_
  simp only [Option.map_eq_some_iff, ← mem_toList_iff, map, List.mem_map, Prod.mk.injEq]
  constructor
  · rintro ⟨e, he, rfl, rfl⟩
    exact ⟨e.2, he, rfl⟩
  · rintro ⟨x, hx, rfl⟩
    exact ⟨(name, x), hx, rfl, rfl⟩

/-- Collecting the entries of a map gives the map back. -/
theorem ofList_toList (m : NameMap β) : ofList m.toList = m := by
  -- in a sorted list no later entry replaces an earlier one
  have key : ∀ (l : List (String × β)) (acc : NameMap β) (name : String), Sorted l →
      (l.foldl (fun m e => m.insert e.1 e.2) acc).get? name =
        (lookup name l).or (acc.get? name) := by
    intro l
    induction l with
    | nil => intro acc name _; simp [lookup]
    | cons e tl ih =>
      intro acc name h
      obtain ⟨hk, ht⟩ := List.pairwise_cons.1 h
      rw [List.foldl_cons, ih _ _ ht, get?_insert]
      by_cases hn : e.1 = name
      · have : lookup name tl = none :=
          lookup_eq_none_iff.2 fun e' he' hen => String.lt_irrefl _ (hen ▸ hn ▸ hk e' he')
        simp [lookup, hn, this]
      · simp [lookup, hn]
  refine ext_get? fun name => ?_
  have h := key m.toList empty name m.sorted
  rw [get?_empty, Option.or_none] at h
  exact h

end NameMap

/-! ### Name sets -/

/-- The distinct names of a list in increasing order. -/
def sortedNames (names : List String) : List String :=
  (NameMap.ofList (names.map fun name => (name, ()))).keys

theorem NameMap.get?_ofList_unit (names : List String) (name : String) :
    (NameMap.ofList (names.map fun name => (name, ()))).get? name =
      if name ∈ names then some () else none := by
  suffices h : ∀ (acc : NameMap Unit),
      ((names.map fun name => (name, ())).foldl (fun m e => m.insert e.1 e.2) acc).get? name =
        if name ∈ names then some () else acc.get? name from h .empty
  induction names with
  | nil => intro acc; simp
  | cons hd tl ih =>
    intro acc
    simp only [List.map_cons, List.foldl_cons]
    rw [ih, NameMap.get?_insert]
    by_cases h₁ : name ∈ tl
    · simp [h₁]
    · by_cases h₂ : hd = name
      · simp [h₂]
      · simp [h₁, h₂, Ne.symm h₂]

@[simp] theorem mem_sortedNames {names : List String} {name : String} :
    name ∈ sortedNames names ↔ name ∈ names := by
  rw [sortedNames, NameMap.mem_keys_iff]
  simp [NameMap.get?_ofList_unit]

theorem sortedNames_pairwise (names : List String) :
    (sortedNames names).Pairwise (· < ·) :=
  List.pairwise_map.2 (NameMap.ofList (names.map fun name => (name, ()))).sorted

end Presynth
