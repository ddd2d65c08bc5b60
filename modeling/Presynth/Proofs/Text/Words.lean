import Mathlib.Data.List.TakeWhile
import Presynth.Text.Blank
/-!
# Words of a text

The words of a text are what is left of its pieces between blanks when the empty ones are dropped. A
blank at the end of a text changes neither its words nor what is left when it is trimmed.

Main statements: `Text.words_eq_tokens` and `Text.cut_append` (where a text is cut by a property of
characters).
-/

namespace Presynth.Text

/-- A text is cut where a property ends. -/
theorem cut_append {p : Char → Bool} {front back : List Char} (hfront : ∀ c ∈ front, p c = true)
    (hback : ∀ c ∈ back.head?, p c = false) :
    (front ++ back).takeWhile p = front ∧ (front ++ back).dropWhile p = back := by
  rw [List.takeWhile_append_of_pos hfront, List.dropWhile_append_of_pos hfront]
  cases back with
  | nil => simp
  | cons b back =>
      have hb : p b = false := hback b rfl
      simp [hb]

/-- The pieces of a text between blanks, without the empty ones. -/
def tokens (text : List Char) : List (List Char) :=
  (text.splitOnP isBlank).filter fun piece => !piece.isEmpty

theorem tokens_nil : tokens [] = [] := by
  rw [tokens, List.splitOnP_nil, List.filter_cons_of_neg (by simp), List.filter_nil]

/-- A blank belongs to no word. -/
theorem tokens_append_cons {b : Char} (hb : isBlank b = true) (front back : List Char) :
    tokens (front ++ b :: back) = tokens front ++ tokens back := by
  rw [tokens, List.splitOnP_append_cons front back hb, List.filter_append, tokens, tokens]

theorem tokens_cons_of_blank {b : Char} (hb : isBlank b = true) (text : List Char) :
    tokens (b :: text) = tokens text := by
  have h := tokens_append_cons hb [] text
  rwa [List.nil_append, tokens_nil, List.nil_append] at h

theorem tokens_append_blank {b : Char} (hb : isBlank b = true) (text : List Char) :
    tokens (text ++ [b]) = tokens text := by
  rw [tokens_append_cons hb, tokens_nil, List.append_nil]

theorem words_cons_of_blank {b : Char} (hb : isBlank b = true) (text : List Char) :
    words (b :: text) = words text := by
  rw [words.eq_def]
  exact if_pos hb

/-- Collecting words character by character gives the pieces between blanks. -/
theorem words_eq_tokens (text : List Char) : words text = tokens text := by
  induction text with
  | nil => exact tokens_nil.symm
  | cons c rest ih =>
      by_cases hc : isBlank c = true
      · rw [words_cons_of_blank hc, ih, tokens_cons_of_blank hc]
      · rw [tokens, List.splitOnP_cons_eq_if_modifyHead c rest, if_neg hc]
        cases rest with
        | nil => simp [words.eq_def [c], hc]
        | cons d rest =>
            -- the character goes to the piece at the front, which is empty if a blank follows
            obtain ⟨piece, pieces, hpieces⟩ :=
              List.exists_cons_of_ne_nil (List.splitOnP_ne_nil isBlank rest)
            rw [tokens, List.splitOnP_cons_eq_if_modifyHead d rest, hpieces] at ih
            rw [List.splitOnP_cons_eq_if_modifyHead d rest, hpieces]
            by_cases hd : isBlank d = true
            · rw [if_pos hd] at ih ⊢
              simp [words.eq_def (c :: d :: rest), hc, hd, ih]
            · rw [if_neg hd] at ih ⊢
              simp [words.eq_def (c :: d :: rest), hc, hd, ih]

/-! ### Trimming -/

theorem trim_append_blank {b : Char} (hb : isBlank b = true) (text : List Char) :
    trim (text ++ [b]) = trim text := by
  rw [trim, trim, trimLeft, trimLeft, List.dropWhile_append]
  cases h : text.dropWhile isBlank with
  | nil => simp [hb]
  | cons c rest => simp [trimRight, hb]

end Presynth.Text
