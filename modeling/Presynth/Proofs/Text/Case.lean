import Mathlib
import Presynth.Decimal.Numeral
import Presynth.Proofs.Text.Encoding
import Presynth.Proofs.Text.Words
import Presynth.Text.WordChar
/-!
# Letters and their case

Letters and digits are those of ASCII, which are ranges of numbers, and only letters have case. What
is asked about a character often has the same answer for all letters, and then it does not see case:
blanks, word characters, digits, and any one character that is not a letter. Numerals have letters,
in the special values and in front of the exponent, but read them in any case.

Main statements: `Text.isAlpha_iff`, `Text.ignoresCase_of_isAlpha`, `Text.words_map_toLower` and
`Decimal.numeral?_map_toLower`.
-/

namespace Presynth

namespace Text

/-! ### Letters and digits -/

/-- Is the number between those of two ASCII characters? -/
def IsIn (first last : Char) (n : ℕ) : Prop := first.toNat ≤ n ∧ n ≤ last.toNat

theorem IsIn.lt {first last : Char} {n : ℕ} (hn : IsIn first last n) (h : last.toNat < 0x80) :
    n < 0x80 := hn.2.trans_lt h

theorem isUpper_iff {c : Char} : c.isUpper = true ↔ IsIn 'A' 'Z' c.toNat := by
  simp [Char.isUpper, IsIn, UInt32.le_iff_toNat_le]

theorem isLower_iff {c : Char} : c.isLower = true ↔ IsIn 'a' 'z' c.toNat := by
  simp [Char.isLower, IsIn, UInt32.le_iff_toNat_le]

theorem isDigit_iff {c : Char} : c.isDigit = true ↔ IsIn '0' '9' c.toNat := by
  simp [Char.isDigit, IsIn, UInt32.le_iff_toNat_le]

theorem isAlpha_iff {c : Char} :
    c.isAlpha = true ↔ IsIn 'A' 'Z' c.toNat ∨ IsIn 'a' 'z' c.toNat := by
  rw [Char.isAlpha, Bool.or_eq_true, isUpper_iff, isLower_iff]

/-- Letters of these alphabets are below 128, so each is one byte. -/
theorem lt_of_isAlpha {c : Char} (hc : c.isAlpha = true) : c.toNat < 0x80 :=
  (isAlpha_iff.mp hc).elim (fun h => h.lt (by decide)) fun h => h.lt (by decide)

theorem isDigit_eq_false_of_isAlpha {c : Char} (hc : c.isAlpha = true) : c.isDigit = false := by
  rw [Bool.eq_false_iff, ne_eq, isDigit_iff]
  rw [isAlpha_iff] at hc
  simp only [IsIn, Char.reduceToNat] at hc ⊢
  omega

/-! ### Questions about characters -/

/-- The answer for a character does not depend on its case. -/
def IgnoresCase {α : Type} (f : Char → α) : Prop := f ∘ Char.toLower = f

section

variable {α : Type} {f : Char → α}

theorem IgnoresCase.apply (h : IgnoresCase f) (c : Char) : f c.toLower = f c := congrFun h c

/-- A question with one answer for all letters does not see case. -/
theorem ignoresCase_of_isAlpha (a : α) (h : ∀ c, c.isAlpha = true → f c = a) : IgnoresCase f := by
  funext c
  by_cases hupper : c.isUpper = true
  · have hletter : c.isAlpha = true := by simp [Char.isAlpha, hupper]
    rw [Function.comp_apply, h c.toLower (by simp [hletter]), h c hletter]
  · rw [Function.comp_apply, Char.toLower_eq_of_not_isUpper hupper]

end

theorem ignoresCase_isDigit : IgnoresCase Char.isDigit :=
  ignoresCase_of_isAlpha false fun _ => isDigit_eq_false_of_isAlpha

theorem ignoresCase_isBlank : IgnoresCase isBlank := by
  refine ignoresCase_of_isAlpha false fun c hc => ?_
  rw [isAlpha_iff] at hc
  simp only [IsIn, Char.reduceToNat] at hc
  simp only [isBlank, Bool.or_eq_false_iff, Bool.and_eq_false_iff, decide_eq_false_iff_not,
    beq_eq_false_iff_ne]
  omega

theorem ignoresCase_isWordChar : IgnoresCase isWordChar := by
  refine ignoresCase_of_isAlpha true fun c hc => ?_
  simp [isWordChar, isAlphanumeric, lt_of_isAlpha hc, Char.isAlphanum, hc]

/-- Small and capital letters take the same bytes. -/
theorem ignoresCase_utf8Size : IgnoresCase Char.utf8Size := by
  refine ignoresCase_of_isAlpha 1 fun c hc => ?_
  rw [Char.utf8Size_eq_one_iff, UInt32.le_iff_toNat_le, Char.toNat_val]
  exact Nat.le_of_lt_succ (lt_of_isAlpha hc)

/-- A character that is not a letter is the same in any case. -/
theorem toLower_eq_iff {c d : Char} (hd : d.isAlpha = false) : c.toLower = d ↔ c = d := by
  -- to be `d` is no question of case, since no letter is
  have h : IgnoresCase (· == d) := by
    refine ignoresCase_of_isAlpha false fun c hc => ?_
    rw [beq_eq_false_iff_ne]
    rintro rfl
    rw [hc] at hd
    cases hd
  rw [← beq_iff_eq, h.apply, beq_iff_eq]

theorem toLower_eq_self_of_isDigit {c : Char} (hc : c.isDigit = true) : c.toLower = c := by
  refine (toLower_eq_iff ?_).mpr rfl
  rw [Bool.eq_false_iff]
  intro hletter
  rw [isDigit_eq_false_of_isAlpha hletter] at hc
  cases hc

/-! ### Texts -/

variable {p : Char → Bool} {text : List Char}

theorem takeWhile_map_toLower (hp : IgnoresCase p) (text : List Char) :
    (text.map Char.toLower).takeWhile p = (text.takeWhile p).map Char.toLower := by
  rw [List.takeWhile_map, hp]

theorem dropWhile_map_toLower (hp : IgnoresCase p) (text : List Char) :
    (text.map Char.toLower).dropWhile p = (text.dropWhile p).map Char.toLower := by
  rw [List.dropWhile_map, hp]

theorem all_map_toLower (hp : IgnoresCase p) (text : List Char) :
    (text.map Char.toLower).all p = text.all p := by
  rw [List.all_map, hp]

theorem map_toLower_map_toLower (text : List Char) :
    (text.map Char.toLower).map Char.toLower = text.map Char.toLower := by
  rw [List.map_map]
  exact List.map_congr_left fun c _ => Char.toLower_toLower_eq_toLower c

theorem map_toLower_of_isDigit (h : ∀ c ∈ text, c.isDigit = true) :
    text.map Char.toLower = text :=
  (List.map_congr_left fun c hc => toLower_eq_self_of_isDigit (h c hc)).trans (List.map_id' text)

/-- A text has as many bytes in small letters. -/
theorem length_bytes_map_toLower (text : List Char) :
    (bytes (text.map Char.toLower)).length = (bytes text).length := by
  induction text with
  | nil => rfl
  | cons c text ih =>
      rw [List.map_cons, bytes_cons, bytes_cons, List.length_append, List.length_append, ih,
        String.length_utf8EncodeChar, String.length_utf8EncodeChar, ignoresCase_utf8Size.apply]

/-- Words are divided at blanks, which have no case. -/
theorem words_map_toLower (text : List Char) :
    words (text.map Char.toLower) = (words text).map (List.map Char.toLower) := by
  induction text with
  | nil => rfl
  | cons c rest ih =>
      have hblank := fun c => ignoresCase_isBlank.apply c
      by_cases hc : isBlank c = true
      · rw [List.map_cons, words_cons_of_blank (by rwa [hblank]), ih, words_cons_of_blank hc]
      · cases rest with
        | nil => simp [words.eq_def [_], hblank, hc]
        | cons d rest =>
            rw [List.map_cons] at ih
            by_cases hd : isBlank d = true
            · simp [words.eq_def (_ :: _ :: _), hblank, hc, hd, ih]
            · cases hfound : words (d :: rest) with
              | nil => simp [words.eq_def (_ :: _ :: _), hblank, hc, hd, ih, hfound]
              | cons w more => simp [words.eq_def (_ :: _ :: _), hblank, hc, hd, ih, hfound]

end Text

/-! ### Numerals -/

namespace Decimal

open Text

theorem splitSign_of_ne {c : Char} (hminus : c ≠ '-') (hplus : c ≠ '+') (rest : List Char) :
    splitSign (c :: rest) = (false, c :: rest) := by
  simp [splitSign, hminus, hplus]

theorem splitSign_map_toLower (text : List Char) : splitSign (text.map Char.toLower) =
    ((splitSign text).1, (splitSign text).2.map Char.toLower) := by
  cases text with
  | nil => rfl
  | cons c rest =>
      by_cases hminus : c = '-'
      · subst hminus
        rfl
      by_cases hplus : c = '+'
      · subst hplus
        rfl
      rw [List.map_cons, splitSign_of_ne hminus hplus, List.map_cons, splitSign_of_ne]
      · rwa [ne_eq, toLower_eq_iff rfl]
      · rwa [ne_eq, toLower_eq_iff rfl]

/-- The mark of an exponent is a letter of either case. -/
theorem isExponentMark_toLower (c : Char) :
    c.toLower = 'e' ∨ c.toLower = 'E' ↔ c = 'e' ∨ c = 'E' := by
  by_cases hupper : c.isUpper = true
  · constructor
    · rintro (h | h)
      · right
        rw [← Char.toUpper_eq_of_not_isLower (Char.not_isLower_of_isUpper hupper),
          ← Char.toUpper_toLower_eq_toUpper, h]
        rfl
      · -- no character becomes a capital letter
        have hcapital := Char.isUpper_toLower_eq_false c
        rw [h] at hcapital
        cases hcapital
    · rintro (rfl | rfl) <;> exact .inl rfl
  · rw [Char.toLower_eq_of_not_isUpper hupper]

/-- The mark of an exponent may be written in either case. -/
theorem exponent?_map_toLower (text : List Char) :
    exponent? (text.map Char.toLower) = exponent? text := by
  cases text with
  | nil => rfl
  | cons c rest =>
      rw [List.map_cons, exponent?, exponent?, splitSign_map_toLower]
      simp only [isExponentMark_toLower, all_map_toLower ignoresCase_isDigit, List.isEmpty_map]
      by_cases hdigits : (splitSign rest).2.all Char.isDigit = true
      · rw [map_toLower_of_isDigit (List.all_eq_true.mp hdigits)]
      · simp [hdigits]

theorem magnitude?_map_toLower (text : List Char) :
    magnitude? (text.map Char.toLower) = magnitude? text := by
  have hdigits (text : List Char) :
      (text.map Char.toLower).takeWhile Char.isDigit = text.takeWhile Char.isDigit := by
    rw [takeWhile_map_toLower ignoresCase_isDigit]
    exact map_toLower_of_isDigit fun c hc => List.mem_takeWhile_imp hc
  rw [magnitude?, magnitude?, hdigits, dropWhile_map_toLower ignoresCase_isDigit]
  cases text.dropWhile Char.isDigit with
  | nil => rfl
  | cons c rest =>
      by_cases hpoint : c = '.'
      · subst hpoint
        simp [hdigits, dropWhile_map_toLower ignoresCase_isDigit, exponent?_map_toLower]
      · have hpoint' : c.toLower ≠ '.' := by rwa [ne_eq, toLower_eq_iff rfl]
        have hrest := exponent?_map_toLower (c :: rest)
        rw [List.map_cons] at hrest
        simp [hpoint, hpoint', hrest]

/-- A numeral has the same value in small letters. -/
theorem numeral?_map_toLower (text : List Char) :
    numeral? (text.map Char.toLower) = numeral? text := by
  rw [numeral?, numeral?, splitSign_map_toLower]
  dsimp only
  rw [map_toLower_map_toLower, magnitude?_map_toLower]

end Decimal

end Presynth
