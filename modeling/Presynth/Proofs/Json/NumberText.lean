import Mathlib.Data.List.Forall2
import Presynth.Json.Printer
import Presynth.Json.Reader
/-!
# The texts of numbers

A number ends where no digit, point or exponent mark follows, so it is read alike before a comma,
before a bracket and at the end of a text. The text of every finite double is a number, however its
digits were found; the other doubles are written as null. So every double stands for a value, and an
array of such texts for the array of their values.

Main statements: `IsMagnitude.exists_unsigned`, `exists_standsFor_float` and `parse?_array`.
-/

namespace Presynth

/-! ### Digits -/

namespace Decimal

/-- Some digits, and at least one. -/
def AreDigits (digits : List Char) : Prop := digits ≠ [] ∧ ∀ c ∈ digits, c.isDigit = true

theorem areDigits_toDigits (n : Nat) : AreDigits (Nat.toDigits 10 n) :=
  ⟨Nat.toDigits_ne_nil, fun _ hc => Nat.isDigit_of_mem_toDigits (by decide) (by decide) hc⟩

theorem areDigits_padded (width n : Nat) : AreDigits (padded width n).toList := by
  obtain ⟨hne, hdigits⟩ := areDigits_toDigits n
  simp only [padded, String.toList_ofList]
  refine ⟨fun h => hne (List.append_eq_nil_iff.mp h).2, fun c hc => ?_⟩
  rcases List.mem_append.mp hc with hzero | hc
  · rw [List.eq_of_mem_replicate hzero]
    rfl
  · exact hdigits c hc

/-- No number but zero is written with a zero in front. -/
theorem head?_toDigits_ne {n : Nat} (hn : n ≠ 0) : (Nat.toDigits 10 n).head? ≠ some '0' := by
  induction n using Nat.strongRecOn with
  | ind n ih =>
      rw [Nat.toDigits_eq_if (by decide)]
      split
      · rename_i hlt
        intro h
        have hzero : ∀ m < 10, m.digitChar = '0' → m = 0 := by decide
        exact hn (hzero n hlt (Option.some.inj h))
      · rename_i hge
        rw [List.head?_append, Option.or_of_isSome (by simp [Nat.toDigits_ne_nil])]
        exact ih (n / 10) (by omega) (by omega)

end Decimal

namespace Json

open Decimal

/-! ### The form of a number -/

/-- The digits before the point: without a zero in front, unless it is all. -/
structure IsWhole (whole : List Char) : Prop where
  digits : AreDigits whole
  noZero : whole.head? = some '0' → whole.length = 1

/-- The digits after the point, with it; or nothing. -/
def IsFraction (fraction : List Char) : Prop :=
  fraction = [] ∨ ∃ places, AreDigits places ∧ fraction = '.' :: places

/-- An exponent with its mark and its sign, or nothing. -/
def IsExponent (exponent : List Char) : Prop :=
  exponent = [] ∨ ∃ sign digits, (sign = '+' ∨ sign = '-') ∧ AreDigits digits ∧
    exponent = 'e' :: sign :: digits

/-- A number without its sign. -/
def IsMagnitude (text : List Char) : Prop :=
  ∃ whole fraction exponent, IsWhole whole ∧ IsFraction fraction ∧ IsExponent exponent ∧
    text = whole ++ (fraction ++ exponent)

/-- What ends a number: nothing that would continue it. -/
def EndsNumber (rest : List Char) : Prop :=
  ∀ c ∈ rest.head?, c.isDigit = false ∧ c ≠ '.' ∧ c ≠ 'e' ∧ c ≠ 'E'

variable {negative whole : Bool} {digits text rest : List Char} {places : Nat}

theorem EndsNumber.not_digit (h : EndsNumber rest) : ∀ c ∈ rest.head?, c.isDigit = false :=
  fun c hc => (h c hc).1

/-- A run of digits stops at what is no digit. -/
theorem takeWhile_isDigit_append (hdigits : AreDigits digits)
    (hrest : ∀ c ∈ rest.head?, c.isDigit = false) :
    (digits ++ rest).takeWhile Char.isDigit = digits ∧
      (digits ++ rest).dropWhile Char.isDigit = rest := by
  rw [List.takeWhile_append_of_pos hdigits.2, List.dropWhile_append_of_pos hdigits.2]
  cases rest with
  | nil => simp
  | cons c rest => simp [hrest c rfl]

/-- Without a mark there is no exponent, and the number ends there. -/
theorem withExponent_of_endsNumber (hrest : EndsNumber rest) :
    withExponent negative digits places whole rest =
      some (⟨negative, ofDigits digits, places, 0, whole⟩, rest) := by
  cases rest with
  | nil => rfl
  | cons c rest =>
      obtain ⟨-, -, hlower, hupper⟩ := hrest c rfl
      simp [withExponent, hlower, hupper]

theorem exists_exponentAfterMark {sign : Char} {powers : List Char}
    (hsign : sign = '+' ∨ sign = '-') (hpowers : AreDigits powers) :
    ∃ power, ∀ rest, EndsNumber rest →
      exponentAfterMark (sign :: (powers ++ rest)) = some (power, rest) := by
  have hread (rest : List Char) (hrest : EndsNumber rest) :
      (powers ++ rest).takeWhile Char.isDigit = powers ∧
        (powers ++ rest).dropWhile Char.isDigit = rest :=
    takeWhile_isDigit_append hpowers hrest.not_digit
  rcases hsign with rfl | rfl
  · refine ⟨ofDigits powers, fun rest hrest => ?_⟩
    obtain ⟨htake, hdrop⟩ := hread rest hrest
    simp [exponentAfterMark, splitSign, htake, hdrop, hpowers.1]
  · refine ⟨-ofDigits powers, fun rest hrest => ?_⟩
    obtain ⟨htake, hdrop⟩ := hread rest hrest
    simp [exponentAfterMark, splitSign, htake, hdrop, hpowers.1]

/-- An exponent, or none, is read up to the end of the number. -/
theorem IsExponent.exists_withExponent {exponent : List Char} (h : IsExponent exponent)
    (negative : Bool) (digits : List Char) (places : Nat) (whole : Bool) :
    ∃ n, ∀ rest, EndsNumber rest →
      withExponent negative digits places whole (exponent ++ rest) = some (n, rest) := by
  rcases h with rfl | ⟨sign, powers, hsign, hpowers, rfl⟩
  · exact ⟨_, fun rest hrest => withExponent_of_endsNumber hrest⟩
  · obtain ⟨power, hpower⟩ := exists_exponentAfterMark hsign hpowers
    refine ⟨⟨negative, ofDigits digits, places, power, false⟩, fun rest hrest => ?_⟩
    simp [withExponent, hpower rest hrest]

theorem IsExponent.not_digit {exponent : List Char} (h : IsExponent exponent)
    (hrest : EndsNumber rest) :
    ∀ c ∈ (exponent ++ rest).head?, c.isDigit = false ∧ c ≠ '.' := by
  rcases h with rfl | ⟨sign, powers, -, -, rfl⟩
  · exact fun c hc => ⟨(hrest c hc).1, (hrest c hc).2.1⟩
  · rintro c ⟨⟩
    decide

/-- Every magnitude is read in full, up to its end. -/
theorem IsMagnitude.exists_unsigned (h : IsMagnitude text) (negative : Bool) :
    ∃ n, ∀ rest, EndsNumber rest → unsigned negative (text ++ rest) = some (n, rest) := by
  obtain ⟨whole, fraction, exponent, hwhole, hfraction, hexponent, rfl⟩ := h
  have hzero : ¬ (whole.isEmpty ∨ (whole.head? = some '0' ∧ 1 < whole.length)) := by
    rintro (hempty | ⟨hhead, hlength⟩)
    · exact hwhole.digits.1 (List.isEmpty_iff.mp hempty)
    · exact absurd (hwhole.noZero hhead) (by omega)
  -- the digits stop at the point, or where there is none at the exponent
  rcases hfraction with rfl | ⟨places, hplaces, rfl⟩
  · obtain ⟨n, hn⟩ := hexponent.exists_withExponent negative whole 0 true
    refine ⟨n, fun rest hrest => ?_⟩
    have hstop := hexponent.not_digit hrest
    obtain ⟨htake, hdrop⟩ := takeWhile_isDigit_append hwhole.digits fun c hc => (hstop c hc).1
    unfold unsigned
    simp only [List.nil_append, List.append_assoc, htake, hdrop, if_neg hzero]
    split
    · rename_i tail htail
      exact absurd rfl (hstop '.' (by rw [htail]; rfl)).2
    · exact hn rest hrest
  · obtain ⟨n, hn⟩ := hexponent.exists_withExponent negative (whole ++ places) places.length false
    refine ⟨n, fun rest hrest => ?_⟩
    have hstop := hexponent.not_digit hrest
    have hpoint : ∀ c ∈ ('.' :: (places ++ (exponent ++ rest))).head?, c.isDigit = false := by
      rintro c ⟨⟩
      decide
    obtain ⟨htake, hdrop⟩ := takeWhile_isDigit_append hwhole.digits hpoint
    obtain ⟨htake', hdrop'⟩ := takeWhile_isDigit_append hplaces fun c hc => (hstop c hc).1
    have hempty : places.isEmpty = false := by simpa using hplaces.1
    unfold unsigned
    simp only [List.cons_append, List.append_assoc, htake, hdrop, if_neg hzero, htake', hdrop',
      hempty]
    exact hn rest hrest

/-! ### Doubles -/

theorem isWhole_toDigits (n : Nat) : IsWhole (Nat.toDigits 10 n) where
  digits := areDigits_toDigits n
  noZero h := by
    by_cases hn : n = 0
    · rw [hn, Nat.toDigits_zero]
      rfl
    · exact absurd h (head?_toDigits_ne hn)

theorem isWhole_singleton {d : Char} (h : d.isDigit = true) : IsWhole [d] :=
  ⟨⟨List.cons_ne_nil _ _, by simpa using h⟩, fun _ => rfl⟩

/-- A number that is written without an exponent has digits on both sides of the point. -/
theorem isMagnitude_positionalText (s : Scaled) : IsMagnitude (s.positionalText true).toList := by
  unfold Scaled.positionalText
  split
  · refine ⟨_, ".0".toList, [], isWhole_toDigits (s.digits * Nat.pow 10 s.exponent.toNat),
      .inr ⟨['0'], ⟨List.cons_ne_nil _ _, List.forall_mem_singleton.mpr rfl⟩, rfl⟩, .inl rfl, ?_⟩
    simp
  · refine ⟨_, _, [], isWhole_toDigits (s.digits / Nat.pow 10 (-s.exponent).toNat),
      .inr ⟨_, areDigits_padded (-s.exponent).toNat (s.digits % Nat.pow 10 (-s.exponent).toNat),
        rfl⟩, .inl rfl, ?_⟩
    simp

/-- And one that is written with an exponent has one digit in front of the point, if there is a
point at all. -/
theorem isMagnitude_exponentText (s : Scaled) (power : Int) :
    IsMagnitude (s.exponentText power).toList := by
  obtain ⟨hne, hdigits⟩ := areDigits_toDigits s.digits
  -- whichever sign, the exponent is a letter, a sign and digits
  have hexponent : ∃ sign, (sign = '+' ∨ sign = '-') ∧
      (if power < 0 then "e-" else "e+").toList = ['e', sign] := by
    split
    · exact ⟨'-', .inr rfl, rfl⟩
    · exact ⟨'+', .inl rfl, rfl⟩
  obtain ⟨sign, hsign, hmark⟩ := hexponent
  unfold Scaled.exponentText
  dsimp only
  split
  · rename_i hnil
    exact absurd hnil hne
  · rename_i d hd
    rw [hd] at hdigits
    refine ⟨[d], [], _, isWhole_singleton (hdigits d List.mem_cons_self), .inl rfl,
      .inr ⟨sign, _, hsign, areDigits_toDigits power.natAbs, rfl⟩, ?_⟩
    simp [hmark]
  · rename_i d rest hrest hd
    rw [hd] at hdigits
    have hplaces : AreDigits rest :=
      ⟨hrest, fun c hc => hdigits c (List.mem_cons_of_mem _ hc)⟩
    refine ⟨[d], '.' :: rest, _, isWhole_singleton (hdigits d List.mem_cons_self),
      .inr ⟨rest, hplaces, rfl⟩, .inr ⟨sign, _, hsign, areDigits_toDigits power.natAbs, rfl⟩, ?_⟩
    simp [hmark]

/-- A magnitude starts with a digit, so it is not taken for a number with a sign. -/
theorem IsMagnitude.exists_cons (h : IsMagnitude text) :
    ∃ d more, text = d :: more ∧ d.isDigit = true := by
  obtain ⟨whole, fraction, exponent, ⟨⟨hne, hdigits⟩, -⟩, -, -, rfl⟩ := h
  cases whole with
  | nil => exact absurd rfl hne
  | cons d more => exact ⟨d, _, rfl, hdigits d List.mem_cons_self⟩

/-- Either way, what is written for a finite double is a sign and a magnitude. -/
theorem isMagnitude_exchange (b : Binary) : ∃ magnitude, IsMagnitude magnitude ∧
    (exchange.finiteText b).toList = (if b.negative then ['-'] else []) ++ magnitude := by
  have hsign : (if b.negative then "-" else "").toList = if b.negative then ['-'] else [] := by
    split <;> rfl
  have hpoint : exchange.point = true := rfl
  unfold Layout.finiteText
  generalize b.shortest exchange.tie = s
  simp only [String.toList_append, hsign, hpoint]
  refine ⟨_, ?_, rfl⟩
  split
  · exact isMagnitude_positionalText s
  · exact isMagnitude_exponentText s _

/-- The text of a finite double is a number. -/
theorem exists_signedNumber_finiteText (b : Binary) :
    ∃ n, ∀ rest, EndsNumber rest →
      signedNumber ((exchange.finiteText b).toList ++ rest) = some (n, rest) := by
  obtain ⟨magnitude, hmagnitude, htext⟩ := isMagnitude_exchange b
  obtain ⟨n, hn⟩ := hmagnitude.exists_unsigned b.negative
  refine ⟨n, fun rest hrest => ?_⟩
  rw [htext, ← hn rest hrest]
  cases b.negative with
  | true => rfl
  | false =>
      obtain ⟨d, more, rfl, hd⟩ := hmagnitude.exists_cons
      have hminus : d ≠ '-' := by
        rintro rfl
        cases hd
      unfold signedNumber
      split
      · rename_i heq
        exact absurd (List.cons.inj heq).1 hminus
      · rfl

/-! ### Values -/

/-- A text that is read as a value, whatever ends it. -/
def StandsFor (text : List Char) (v : Json) : Prop :=
  ∀ fuel rest, EndsNumber rest → value (fuel + 1) (text ++ rest) = some (v, rest)

/-- The first character of a number tells it from any other value. -/
theorem ne_of_starts_number {c d : Char} (hc : c.isDigit = true ∨ c = '-')
    (hd : d.isDigit = false ∧ d ≠ '-') : c ≠ d := by
  rintro rfl
  rcases hc with hdigit | hminus
  · rw [hd.1] at hdigit
    cases hdigit
  · exact hd.2 hminus

/-- What starts with a digit or a minus is read as a number. -/
theorem value_of_head {c : Char} (hc : c.isDigit = true ∨ c = '-') (fuel : Nat)
    (more : List Char) :
    value (fuel + 1) (c :: more) =
      (signedNumber (c :: more)).map fun (n, rest) => (number n, rest) := by
  have hskip : skipSpace (c :: more) = c :: more := by
    have hblank : c ≠ ' ' := ne_of_starts_number hc (by decide)
    have htab : c ≠ '\t' := ne_of_starts_number hc (by decide)
    have hline : c ≠ '\n' := ne_of_starts_number hc (by decide)
    have hreturn : c ≠ '\r' := ne_of_starts_number hc (by decide)
    simp [skipSpace, isSpace, hblank, htab, hline, hreturn]
  unfold value
  rw [hskip]
  split
  case h_7 => rfl
  all_goals
    rename_i heq
    exact absurd (List.cons.inj heq).1 (ne_of_starts_number hc (by decide))

theorem standsFor_null : StandsFor "null".toList null := fun _ _ _ => rfl

/-- No number is written as an empty text, and none begins like another value. -/
theorem exists_cons_finiteText (b : Binary) : ∃ c more,
    (exchange.finiteText b).toList = c :: more ∧ (c.isDigit = true ∨ c = '-') := by
  obtain ⟨magnitude, hmagnitude, htext⟩ := isMagnitude_exchange b
  obtain ⟨d, more, rfl, hd⟩ := hmagnitude.exists_cons
  rw [htext]
  cases b.negative with
  | true => exact ⟨'-', _, rfl, .inr rfl⟩
  | false => exact ⟨d, _, rfl, .inl hd⟩

theorem standsFor_finiteText (b : Binary) :
    ∃ n, StandsFor (exchange.finiteText b).toList (number n) := by
  obtain ⟨n, hn⟩ := exists_signedNumber_finiteText b
  obtain ⟨c, more, htext, hc⟩ := exists_cons_finiteText b
  refine ⟨n, fun fuel rest hrest => ?_⟩
  have hnumber := hn rest hrest
  rw [htext, List.cons_append] at hnumber ⊢
  rw [value_of_head hc, hnumber]
  rfl

/-- Every double is written as a value. -/
theorem exists_standsFor_float (x : Float) : ∃ v, StandsFor (Printer.float x).toList v := by
  unfold Printer.float exchangeText?
  split
  · rename_i b _
    obtain ⟨n, hn⟩ := standsFor_finiteText b
    exact ⟨number n, hn⟩
  · exact ⟨null, standsFor_null⟩

theorem endsNumber_nil : EndsNumber [] := by
  rintro c ⟨⟩

theorem endsNumber_comma (rest : List Char) : EndsNumber (',' :: rest) := by
  rintro c ⟨⟩
  decide

theorem endsNumber_bracket (rest : List Char) : EndsNumber (']' :: rest) := by
  rintro c ⟨⟩
  decide

/-- Items between commas are read in order. -/
theorem items_intercalate {texts : List String} {vs : List Json}
    (h : List.Forall₂ (fun text v => StandsFor text.toList v) texts vs) (hne : texts ≠ [])
    {fuel : Nat} (hfuel : texts.length < fuel) (rest : List Char) :
    items fuel ((",".intercalate texts).toList ++ ']' :: rest) = some (vs, rest) := by
  induction h generalizing fuel with
  | nil => exact absurd rfl hne
  | @cons text v texts vs htext htexts ih =>
      -- one call for the first item, and at least one for what follows it
      obtain ⟨less, rfl⟩ : ∃ less, fuel = less + 2 := ⟨fuel - 2, by grind⟩
      cases htexts with
      | nil =>
          rw [String.intercalate_singleton, items, htext _ _ (endsNumber_bracket rest)]
          rfl
      | @cons text' v' texts vs htext' htexts =>
          have hmore : items (less + 1)
              ((",".intercalate (text' :: texts)).toList ++ ']' :: rest) = some (v' :: vs, rest) :=
            ih (List.cons_ne_nil _ _) (by grind)
          have hchars : (",".intercalate (text :: text' :: texts)).toList ++ ']' :: rest =
              text.toList ++
                ',' :: ((",".intercalate (text' :: texts)).toList ++ ']' :: rest) := by
            simp [String.intercalate_cons_cons]
          rw [hchars, items, htext _ _ (endsNumber_comma _)]
          show (items (less + 1) _ >>= _) = _
          rw [hmore]
          rfl

/-! ### Arrays -/

theorem skipSpace_skipSpace (text : List Char) : skipSpace (skipSpace text) = skipSpace text := by
  unfold skipSpace
  induction text with
  | nil => rfl
  | cons c text ih =>
      by_cases hc : isSpace c = true
      · simp [hc, ih]
      · simp [hc]

theorem value_skipSpace (fuel : Nat) (text : List Char) :
    value fuel (skipSpace text) = value fuel text := by
  cases fuel with
  | zero => rfl
  | succ fuel =>
      unfold value
      rw [skipSpace_skipSpace]

theorem items_skipSpace (fuel : Nat) (text : List Char) :
    items fuel (skipSpace text) = items fuel text := by
  cases fuel with
  | zero => rfl
  | succ fuel =>
      unfold items
      rw [value_skipSpace]

/-- A bracket is no item; the empty array is told before the items are read. -/
theorem items_bracket (fuel : Nat) (rest : List Char) : items fuel (']' :: rest) = none := by
  cases fuel with
  | zero => rfl
  | succ fuel =>
      cases fuel with
      | zero => rfl
      | succ fuel => rfl

/-- Items in brackets are an array. -/
theorem value_of_items {fuel : Nat} {text rest : List Char} {vs : List Json}
    (h : items fuel text = some (vs, rest)) :
    value (fuel + 1) ('[' :: text) = some (array vs, rest) := by
  have hbracket : skipSpace ('[' :: text) = '[' :: text := rfl
  simp only [value, hbracket]
  split
  · rename_i tail htail
    rw [← items_skipSpace, htail, items_bracket] at h
    cases h
  · rw [items_skipSpace, h]
    rfl

/-- There are no more items than characters and one, so the fuel that is the length of the text is
enough for them. -/
theorem length_le_length_intercalate (texts : List String) :
    texts.length ≤ (",".intercalate texts).toList.length + 1 := by
  induction texts with
  | nil => simp
  | cons text texts ih =>
      cases texts with
      | nil => simp
      | cons text' texts =>
          rw [String.intercalate_cons_cons]
          simp only [String.toList_append, List.length_append, List.length_cons] at ih ⊢
          have hcomma : ",".toList.length = 1 := rfl
          omega

/-- An array of written values is read as the array of these values. -/
theorem parse?_array {texts : List String} {vs : List Json}
    (h : List.Forall₂ (fun text v => StandsFor text.toList v) texts vs) :
    parse? (Printer.array texts) = some (array vs) := by
  cases h with
  | nil => rfl
  | @cons text v texts vs htext htexts =>
      have hchars : (Printer.array (text :: texts)).toList =
          '[' :: ((",".intercalate (text :: texts)).toList ++ [']']) := by
        simp [Printer.array]
      have hlength := length_le_length_intercalate (text :: texts)
      have hitems : items (2 * (Printer.array (text :: texts)).toList.length + 1)
          ((",".intercalate (text :: texts)).toList ++ [']']) = some (v :: vs, []) :=
        items_intercalate (.cons htext htexts) (List.cons_ne_nil _ _) (by grind) []
      unfold parse?
      dsimp only
      rw [hchars] at hitems ⊢
      rw [value_of_items hitems]
      rfl

/-- A written value is read as this value. -/
theorem StandsFor.parse?_eq {text : String} {v : Json} (h : StandsFor text.toList v) :
    parse? text = some v := by
  have hvalue := h (2 * text.toList.length + 1) [] endsNumber_nil
  rw [List.append_nil] at hvalue
  unfold parse?
  dsimp only
  rw [hvalue]
  rfl

end Json

end Presynth
