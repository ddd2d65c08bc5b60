import Mathlib.Data.List.Basic
import Mathlib.Data.Nat.Find
import Presynth.Text.Lines
/-!
# Searching a text

A text is searched from the left. What stands at its front is found first, and otherwise what is
found in the rest; so a search finds what stands leftmost.

Main statements: `Text.Pattern.search_eq_some_iff` and `Text.Pattern.exists_leftmost_iff` for
patterns of any kind, and `Text.occursIn_iff` for words.
-/

namespace Presynth.Text

variable {text : List Char}

/-! ### Words -/

section

variable {word : List Char}

theorem startsWith_iff : startsWith word text = true ↔ word <+: text := by
  induction word generalizing text with
  | nil => simp [startsWith]
  | cons c word ih =>
      cases text with
      | nil => simp [startsWith]
      | cons d text => simp [startsWith, ih]

theorem occursIn_iff : occursIn word text = true ↔ word <:+: text := by
  induction text with
  | nil => simp [occursIn]
  | cons c text ih => rw [occursIn, Bool.or_eq_true, startsWith_iff, ih, List.infix_cons_iff]

end

/-! ### Patterns -/

/-- A pattern, by what it finds in texts, each time behind some of the characters. -/
structure Pattern (α : Type) where
  At : α → List Char → List Char → Prop
  /-- Nothing is found in an empty text. -/
  not_empty : ∀ {x before}, ¬ At x before []
  /-- What is found behind the first character is found in the rest. -/
  cons_iff : ∀ {x before b c rest}, At x (b :: before) (c :: rest) ↔ b = c ∧ At x before rest

variable {α : Type} {pattern : Pattern α} {x : α}

/-- Something is found in a text, and nothing to the left of it. -/
def Pattern.Leftmost (pattern : Pattern α) (x : α) (text : List Char) : Prop :=
  ∃ before, pattern.At x before text ∧
    ∀ y before', pattern.At y before' text → before.length ≤ before'.length

/-- The leftmost find is at the front, or it is that of the rest. -/
theorem Pattern.leftmost_cons_iff {c : Char} {rest : List Char} :
    pattern.Leftmost x (c :: rest) ↔ pattern.At x [] (c :: rest) ∨
      (∀ y, ¬ pattern.At y [] (c :: rest)) ∧ pattern.Leftmost x rest := by
  constructor
  · rintro ⟨before, hat, hfirst⟩
    cases before with
    | nil => exact .inl hat
    | cons b before =>
        refine .inr ⟨fun y hy => absurd (hfirst y [] hy) (by simp), before,
          (pattern.cons_iff.mp hat).2, fun y before' hy => ?_⟩
        exact Nat.le_of_succ_le_succ (hfirst y (c :: before') (pattern.cons_iff.mpr ⟨rfl, hy⟩))
  · rintro (hat | ⟨hnone, before, hat, hfirst⟩)
    · exact ⟨[], hat, fun _ _ _ => Nat.zero_le _⟩
    · refine ⟨c :: before, pattern.cons_iff.mpr ⟨rfl, hat⟩, fun y before' hy => ?_⟩
      cases before' with
      | nil => exact absurd hy (hnone y)
      | cons b before' =>
          exact Nat.succ_le_succ (hfirst y before' (pattern.cons_iff.mp hy).2)

/-- A search that looks at the front and then in the rest finds what stands leftmost. -/
theorem Pattern.search_eq_some_iff {search front : List Char → Option α} (hnil : search [] = none)
    (hcons : ∀ c rest, search (c :: rest) = (front (c :: rest)).or (search rest))
    (hfront : ∀ y c rest, front (c :: rest) = some y ↔ pattern.At y [] (c :: rest)) :
    search text = some x ↔ pattern.Leftmost x text := by
  induction text with
  | nil =>
      refine ⟨fun h => ?_, fun ⟨_, hat, _⟩ => absurd hat pattern.not_empty⟩
      rw [hnil] at h
      cases h
  | cons c rest ih =>
      rw [hcons, Pattern.leftmost_cons_iff, ← ih, Option.or_eq_some_iff, hfront]
      simp only [← hfront, Option.eq_none_iff_forall_ne_some, ne_eq]

/-- Among finds there is a leftmost one. -/
theorem Pattern.exists_leftmost_iff :
    (∃ x, pattern.Leftmost x text) ↔ ∃ x before, pattern.At x before text := by
  constructor
  · rintro ⟨x, before, hat, -⟩
    exact ⟨x, before, hat⟩
  · rintro ⟨x, before, hat⟩
    -- finds begin at natural numbers, so there is a least one
    let begins (k : ℕ) : Prop := ∃ y before', pattern.At y before' text ∧ before'.length = k
    have hbegins : ∃ k, begins k := ⟨_, x, before, hat, rfl⟩
    classical
    obtain ⟨y, before', hy, hlength⟩ := Nat.find_spec hbegins
    refine ⟨y, before', hy, fun z before'' hz => ?_⟩
    exact hlength ▸ Nat.find_min' hbegins ⟨z, before'', hz, rfl⟩

end Presynth.Text
