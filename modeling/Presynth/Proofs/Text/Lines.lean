import Mathlib.Data.List.Basic
import Presynth.Text.Lines
/-!
# Cutting a text into lines

A piece of a text that ends with its first line feed is a line, without a carriage return at its
end. A text without a line feed is a line as it is, unless it is empty.

Main statements: `Text.lines_append_newline` and `Text.lines_of_not_mem`, which tell all lines of
all texts.
-/

namespace Presynth.Text

/-- A line without the carriage return at its end. -/
def withoutReturn (line : List Char) : List Char :=
  if line.getLast? = some '\r' then line.dropLast else line

variable {piece rest : List Char} {c : Char}

theorem withoutReturn_cons_cons (c d : Char) (rest : List Char) :
    withoutReturn (c :: d :: rest) = c :: withoutReturn (d :: rest) := by
  rw [withoutReturn, withoutReturn, List.getLast?_cons_cons]
  split
  · rfl
  · rfl

/-- A carriage return that goes is a blank at the end. -/
theorem withoutReturn_cases (line : List Char) :
    withoutReturn line = line ∨ line = withoutReturn line ++ ['\r'] := by
  unfold withoutReturn
  split
  · rename_i h
    obtain ⟨front, rfl⟩ := List.getLast?_eq_some_iff.mp h
    exact .inr (by simp)
  · exact .inl rfl

/-- A character that does not end a line is in one with what follows. -/
theorem lines_cons (hc : c ≠ '\n') (hreturn : c = '\r' → rest.head? ≠ some '\n') :
    lines (c :: rest) = match lines rest with
      | [] => [[c]]
      | line :: more => (c :: line) :: more := by
  have hends : ∀ more, c = '\r' → rest ≠ '\n' :: more := by
    rintro more hc' rfl
    exact hreturn hc' rfl
  cases hlines : lines rest with
  | nil => simp only [lines, hlines]
  | cons line more => simp only [lines, hlines]

/-- Up to the first line feed there is one line, without a carriage return at its end. -/
theorem lines_append_newline (h : '\n' ∉ piece) (rest : List Char) :
    lines (piece ++ '\n' :: rest) = withoutReturn piece :: lines rest := by
  induction piece with
  | nil => rfl
  | cons c piece ih =>
      rw [List.mem_cons, not_or] at h
      by_cases hreturn : c = '\r' ∧ piece = []
      · obtain ⟨rfl, rfl⟩ := hreturn
        rfl
      · have hstays : withoutReturn (c :: piece) = c :: withoutReturn piece := by
          cases piece with
          | nil => simpa [withoutReturn] using hreturn
          | cons d piece => exact withoutReturn_cons_cons c d piece
        rw [List.cons_append, lines_cons (Ne.symm h.1), ih h.2, hstays]
        intro hc hhead
        cases piece with
        | nil => exact hreturn ⟨hc, rfl⟩
        | cons d piece => exact h.2 (Option.some.inj hhead ▸ List.mem_cons_self)

/-- A text without line feeds is one line, or none if it is empty. -/
theorem lines_of_not_mem (h : '\n' ∉ piece) : lines piece = if piece = [] then [] else [piece] := by
  induction piece with
  | nil => rfl
  | cons c piece ih =>
      rw [List.mem_cons, not_or] at h
      rw [lines_cons (Ne.symm h.1) fun _ hhead => h.2 (List.mem_of_mem_head? hhead), ih h.2,
        if_neg (List.cons_ne_nil c piece)]
      split_ifs with hpiece
      · rw [hpiece]
      · rfl

end Presynth.Text
