import Presynth.Proofs.Text.Case
import Presynth.Proofs.Text.Encoding
import Presynth.Proofs.Text.Search
import Presynth.Slack.Report
/-!
# The grammar of slack lines

A line carries a slack behind a mark, which is the word `slack` in any case with a tag in
parentheses behind it. Where the word has another tag or none, it is no mark, and a later one may
be. Behind the first mark, the first word that begins as a number does and is a numeral is the
slack, unless it is not finite. All of this does not see the case of letters, and since letters are
as long in small as in capitals, the word begins and ends at the same bytes in the line and in its
copy in small letters.

Main statements: `SlackLine.afterSlack?_eq_some_iff`, `SlackLine.slack?_eq_some_iff`,
`SlackLine.slack?_map_toLower`, `SlackLine.slack?_append_blank` and `SlackLine.slack?_grammar`.
-/

namespace Presynth.SlackLine

/-! ### Marks -/

/-- What is accepted as a tag. -/
inductive IsTag (tag : List Char) : Prop where
  | word (nonempty : tag ≠ []) (h : ∀ c ∈ tag, Text.isWordChar c = true)
  /-- The remark on digits, in any case. -/
  | remark (h : tag.map Char.toLower = digitsRemark)

/-- A text has a tag in parentheses at its front, which blanks may precede. The first parenthesis
that closes ends the tag. -/
def IsTagged (after text : List Char) : Prop :=
  ∃ blanks tag, text = blanks ++ '(' :: (tag ++ ')' :: after) ∧
    (∀ c ∈ blanks, Text.isBlank c = true) ∧ ')' ∉ tag ∧ IsTag tag

/-- The word stands in a line, in any case, with a tag behind it. -/
def IsMarked (after before line : List Char) : Prop :=
  ∃ w rest, line = before ++ (w ++ rest) ∧ w.map Char.toLower = word ∧ IsTagged after rest

variable {text line before after tag : List Char} {c : Char} {rest : List Char}

theorem isTag_iff : isTag tag = true ↔ IsTag tag := by
  rw [isTag, Bool.or_eq_true, Bool.and_eq_true, Bool.not_eq_true', List.isEmpty_eq_false_iff,
    List.all_eq_true, beq_iff_eq]
  constructor
  · rintro (⟨hne, h⟩ | h)
    · exact .word hne h
    · exact .remark h
  · intro h
    cases h with
    | word hne h => exact .inl ⟨hne, h⟩
    | remark h => exact .inr h

theorem afterTag?_eq_some_iff : afterTag? text = some after ↔ IsTagged after text := by
  constructor
  · intro h
    unfold afterTag? at h
    split at h
    · rename_i inner hinner
      split at h
      · rename_i rest hrest
        rw [Option.ite_none_right_eq_some, Option.some_inj] at h
        obtain ⟨htag, rfl⟩ := h
        refine ⟨text.takeWhile Text.isBlank, inner.takeWhile (· != ')'), ?_,
          fun c hc => List.mem_takeWhile_imp hc, fun hmem => ?_, isTag_iff.mp htag⟩
        · rw [← hrest, List.takeWhile_append_dropWhile, ← hinner, Text.trimLeft,
            List.takeWhile_append_dropWhile]
        · simpa using List.mem_takeWhile_imp hmem
      · cases h
    · cases h
  · rintro ⟨blanks, tag, rfl, hblanks, hclosed, htag⟩
    have hopen : (blanks ++ '(' :: (tag ++ ')' :: after)).dropWhile Text.isBlank =
        '(' :: (tag ++ ')' :: after) := (Text.cut_append hblanks (by simp [Text.isBlank])).2
    have hinner : ∀ c ∈ tag, (c != ')') = true := by
      simpa using fun c hc => ne_of_mem_of_not_mem hc hclosed
    obtain ⟨htake, hdrop⟩ : (tag ++ ')' :: after).takeWhile (· != ')') = tag ∧
        (tag ++ ')' :: after).dropWhile (· != ')') = ')' :: after :=
      Text.cut_append hinner (by simp)
    rw [afterTag?, Text.trimLeft, hopen]
    simp only [htake, hdrop, isTag_iff.mpr htag, if_true]

/-! ### The first mark -/

theorem isMarked_cons_iff {b : Char} :
    IsMarked after (b :: before) (c :: rest) ↔ b = c ∧ IsMarked after before rest := by
  simp only [IsMarked, List.cons_append, List.cons_eq_cons]
  constructor
  · rintro ⟨w, rest', ⟨rfl, hrest⟩, hw⟩
    exact ⟨rfl, w, rest', hrest, hw⟩
  · rintro ⟨rfl, w, rest', hrest, hw⟩
    exact ⟨w, rest', ⟨rfl, hrest⟩, hw⟩

/-- Marks as what is found in lines. -/
def marks : Text.Pattern (List Char) where
  At := IsMarked
  not_empty := by
    rintro after before ⟨w, rest, hline, hw, -⟩
    have hrest : w ++ rest = [] := (List.append_eq_nil_iff.mp hline.symm).2
    rw [(List.append_eq_nil_iff.mp hrest).1] at hw
    cases hw
  cons_iff := isMarked_cons_iff

/-- The text after a mark at the front of a line. -/
def atFront? (line : List Char) : Option (List Char) :=
  if Text.startsWith word ((line.take word.length).map Char.toLower) then
    afterTag? (line.drop word.length)
  else none

/-- The executable test at the front of a line finds the marks with nothing before them. -/
theorem atFront?_eq_some_iff : atFront? line = some after ↔ IsMarked after [] line := by
  rw [atFront?, Option.ite_none_right_eq_some, Text.startsWith_iff, afterTag?_eq_some_iff]
  constructor
  · rintro ⟨hw, htagged⟩
    refine ⟨line.take word.length, line.drop word.length, by simp, ?_, htagged⟩
    refine (hw.eq_of_length_le ?_).symm
    rw [List.length_map]
    exact List.length_take_le _ _
  · rintro ⟨w, rest, rfl, hw, htagged⟩
    have hlength : w.length = word.length := by rw [← hw, List.length_map]
    rw [List.nil_append, ← hlength, List.take_left, List.drop_left, hw]
    exact ⟨List.prefix_rfl, htagged⟩

theorem afterSlack?_cons (c : Char) (rest : List Char) :
    afterSlack? (c :: rest) = (atFront? (c :: rest)).or (afterSlack? rest) := by
  rw [afterSlack?, ← atFront?]
  cases atFront? (c :: rest) with
  | none => rfl
  | some found => rfl

/-- The search finds the first mark. -/
theorem afterSlack?_eq_some_iff : afterSlack? line = some after ↔ marks.Leftmost after line :=
  Text.Pattern.search_eq_some_iff rfl afterSlack?_cons fun _ _ _ => atFront?_eq_some_iff

/-! ### The first number -/

/-- A word begins as a number does: with a digit, a sign or a point. -/
def BeginsNumber (w : List Char) : Prop :=
  ∃ c ∈ w.head?, c.isDigit = true ∨ c = '-' ∨ c = '+' ∨ c = '.'

/-- The first word that begins as a number does and is a numeral has a value. -/
def IsFirstNumeral (words : List (List Char)) (v : Float) : Prop :=
  ∃ passed w rest, words = passed ++ w :: rest ∧ (BeginsNumber w ∧ Decimal.numeral? w = some v) ∧
    ∀ w' ∈ passed, BeginsNumber w' → Decimal.numeral? w' = none

variable {words : List (List Char)} {v : Float}

theorem any_startsNumber_iff {w : List Char} :
    w.head?.any startsNumber = true ↔ BeginsNumber w := by
  simp [Option.any_eq_true, startsNumber, BeginsNumber, or_assoc]

/-- The first numeral among the words decides, also if it is too large. -/
theorem firstNumber?_eq_some_iff :
    firstNumber? words = some v ↔ IsFirstNumeral words v ∧ v.isFinite = true := by
  have hfirst (x : Float) : (words.findSome? fun w =>
      if w.head?.any startsNumber then Decimal.numeral? w else none) = some x ↔
        IsFirstNumeral words x := by
    simp only [List.findSome?_eq_some_iff, Option.ite_none_right_eq_some, ite_eq_right_iff,
      any_startsNumber_iff, IsFirstNumeral]
  rw [← hfirst, firstNumber?]
  cases words.findSome? fun w =>
      if w.head?.any startsNumber then Decimal.numeral? w else none with
  | none => simp
  | some x =>
      rw [Option.ite_none_right_eq_some, Option.some_inj]
      constructor
      · rintro ⟨hfinite, rfl⟩
        exact ⟨rfl, hfinite⟩
      · rintro ⟨rfl, hfinite⟩
        exact ⟨hfinite, rfl⟩

/-- The slack of a line is the first numeral behind the first mark. -/
theorem slack?_eq_some_iff : slack? line = some v ↔ ∃ after, marks.Leftmost after line ∧
    IsFirstNumeral (Text.tokens after) v ∧ v.isFinite = true := by
  simp only [slack?, Option.bind_eq_some_iff, afterSlack?_eq_some_iff, firstNumber?_eq_some_iff,
    Text.words_eq_tokens]

/-! ### Case -/

theorem isTag_map_toLower (tag : List Char) : isTag (tag.map Char.toLower) = isTag tag := by
  rw [isTag, isTag, List.isEmpty_map, Text.all_map_toLower Text.ignoresCase_isWordChar,
    Text.map_toLower_map_toLower]

theorem afterTag?_map_toLower (text : List Char) :
    afterTag? (text.map Char.toLower) = (afterTag? text).map (List.map Char.toLower) := by
  -- brackets and blanks have no case, so the cuts fall on the same places
  have hclose : Text.IgnoresCase (· != ')') := by
    funext c
    simp [bne, Text.toLower_eq_iff]
  rw [afterTag?, afterTag?, Text.trimLeft, Text.trimLeft,
    Text.dropWhile_map_toLower Text.ignoresCase_isBlank]
  cases text.dropWhile Text.isBlank with
  | nil => rfl
  | cons c inner =>
      by_cases hopen : c = '('
      · subst hopen
        simp only [List.map_cons, Char.reduceToLower, Text.dropWhile_map_toLower hclose,
          Text.takeWhile_map_toLower hclose, isTag_map_toLower]
        cases inner.dropWhile (· != ')') with
        | nil => rfl
        | cons d rest =>
            by_cases hd : d = ')'
            · subst hd
              simp only [List.map_cons, Char.reduceToLower]
              split
              · rfl
              · rfl
            · have hd' : d.toLower ≠ ')' := by rwa [ne_eq, Text.toLower_eq_iff rfl]
              simp [hd, hd']
      · have hopen' : c.toLower ≠ '(' := by rwa [ne_eq, Text.toLower_eq_iff rfl]
        simp [hopen, hopen']

/-- The mark stands at the same place in small letters. -/
theorem afterSlack?_map_toLower (line : List Char) :
    afterSlack? (line.map Char.toLower) = (afterSlack? line).map (List.map Char.toLower) := by
  induction line with
  | nil => rfl
  | cons c rest ih =>
      have hfront : atFront? ((c :: rest).map Char.toLower) =
          (atFront? (c :: rest)).map (List.map Char.toLower) := by
        rw [atFront?, atFront?, ← List.map_take, ← List.map_drop, Text.map_toLower_map_toLower,
          afterTag?_map_toLower]
        split
        · rfl
        · rfl
      rw [List.map_cons] at hfront ⊢
      rw [afterSlack?_cons, afterSlack?_cons, hfront, ih, Option.map_or]

theorem ignoresCase_startsNumber : Text.IgnoresCase startsNumber := by
  funext c
  rw [Function.comp_apply, Bool.eq_iff_iff]
  simp [startsNumber, Text.ignoresCase_isDigit.apply, Text.toLower_eq_iff]

/-- Of the characters of numerals only the exponent mark has a case, and both are read alike. -/
theorem firstNumber?_map_toLower (words : List (List Char)) :
    firstNumber? (words.map (List.map Char.toLower)) = firstNumber? words := by
  have hword : (fun w : List Char => if w.head?.any startsNumber then Decimal.numeral? w else none)
      ∘ List.map Char.toLower =
        fun w => if w.head?.any startsNumber then Decimal.numeral? w else none := by
    funext w
    rw [Function.comp_apply, List.head?_map, Option.any_map, Decimal.numeral?_map_toLower]
    simp only [ignoresCase_startsNumber.apply]
  rw [firstNumber?, firstNumber?, List.findSome?_map, hword]

/-- The slack of a line does not depend on the case of its letters. -/
theorem slack?_map_toLower (line : List Char) : slack? (line.map Char.toLower) = slack? line := by
  rw [slack?, slack?, afterSlack?_map_toLower, Option.bind_map]
  congr 1
  funext after
  rw [Function.comp_apply, Text.words_map_toLower, firstNumber?_map_toLower]

/-! ### Blanks at the end of a line -/

section

variable {b : Char}

theorem isMarked_append_blank (hb : Text.isBlank b = true) :
    IsMarked after before (line ++ [b]) ↔
      ∃ front, after = front ++ [b] ∧ IsMarked front before line := by
  constructor
  · rintro ⟨w, rest, hline, hw, blanks, tag, rfl, htag⟩
    rcases List.eq_nil_or_concat' after with rfl | ⟨front, d, rfl⟩
    · -- the line would end with the parenthesis
      have hline' : line ++ [b] = (before ++ (w ++ (blanks ++ '(' :: tag))) ++ [')'] := by
        simp [hline]
      have hclose := (List.append_inj' hline' rfl).2
      obtain rfl := List.singleton_inj.mp hclose
      exact absurd hb (by decide)
    · have hline' : line ++ [b] =
          (before ++ (w ++ (blanks ++ '(' :: (tag ++ ')' :: front)))) ++ [d] := by
        simp [hline]
      obtain ⟨rfl, hd⟩ := List.append_inj' hline' rfl
      obtain rfl := List.singleton_inj.mp hd
      exact ⟨front, rfl, w, _, rfl, hw, blanks, tag, rfl, htag⟩
  · rintro ⟨front, rfl, w, rest, rfl, hw, blanks, tag, rfl, htag⟩
    exact ⟨w, blanks ++ '(' :: (tag ++ ')' :: (front ++ [b])), by simp, hw, blanks, tag, rfl, htag⟩

/-- A blank at the end of a line does not change which mark is the first. -/
theorem leftmost_append_blank (hb : Text.isBlank b = true) :
    marks.Leftmost after (line ++ [b]) ↔
      ∃ front, after = front ++ [b] ∧ marks.Leftmost front line := by
  constructor
  · rintro ⟨before, hat, hfirst⟩
    obtain ⟨front, rfl, hfront⟩ := (isMarked_append_blank hb).mp hat
    refine ⟨front, rfl, before, hfront, fun other before' hother => ?_⟩
    exact hfirst (other ++ [b]) before' ((isMarked_append_blank hb).mpr ⟨other, rfl, hother⟩)
  · rintro ⟨front, rfl, before, hat, hfirst⟩
    refine ⟨before, (isMarked_append_blank hb).mpr ⟨front, rfl, hat⟩, fun y before' hy => ?_⟩
    obtain ⟨other, rfl, hother⟩ := (isMarked_append_blank hb).mp hy
    exact hfirst other before' hother

/-- Nor does it change the slack, since a blank ends a word as the end of the line does. -/
theorem slack?_append_blank (hb : Text.isBlank b = true) (line : List Char) :
    slack? (line ++ [b]) = slack? line := by
  ext v
  rw [slack?_eq_some_iff, slack?_eq_some_iff]
  simp only [leftmost_append_blank hb]
  constructor
  · rintro ⟨_, ⟨after, rfl, hfirst⟩, hnumeral⟩
    rw [Text.tokens_append_blank hb] at hnumeral
    exact ⟨after, hfirst, hnumeral⟩
  · rintro ⟨after, hfirst, hnumeral⟩
    rw [← Text.tokens_append_blank hb] at hnumeral
    exact ⟨after ++ [b], ⟨after, rfl, hfirst⟩, hnumeral⟩

/-- The word has no blank in it. -/
theorem isInfix_append_blank (hb : Text.isBlank b = true) :
    word <:+: line ++ [b] ↔ word <:+: line := by
  rw [List.infix_concat_iff, or_iff_right]
  rw [List.suffix_concat_iff]
  rintro (h | ⟨front, hword, -⟩)
  · cases h
  · obtain ⟨-, hlast⟩ := List.append_inj' (show ['s', 'l', 'a', 'c'] ++ ['k'] = _ from hword) rfl
    obtain rfl := List.singleton_inj.mp hlast
    exact absurd hb (by decide)

end

/-! ### Bytes -/

/-- The word stands at a byte of the copy of a line in small letters. -/
def FoundAt (line : String) (k : ℕ) : Prop :=
  Archive.utf8 (String.ofList word) <+: (Archive.utf8 line.toLower).drop k

/-- The word is found in the copy where it stands in the line. -/
theorem foundAt_iff {line : String} {k : ℕ} : FoundAt line k ↔ ∃ before w after,
    line.toList = before ++ (w ++ after) ∧ w.map Char.toLower = word ∧
      (Text.bytes before).length = k := by
  rw [FoundAt, Text.utf8_ofList, Text.utf8_eq_bytes, String.toLower, String.toList_map]
  constructor
  · rintro ⟨back, hback⟩
    have hne : Text.bytes word ≠ [] := Text.bytes_eq_nil_iff.not.mpr (by decide)
    have hsmall : ∀ b ∈ Text.bytes word, b.toNat < 0x80 :=
      (Text.forall_mem_bytes_iff fun _ h => h).mpr (by simp [word])
    obtain ⟨before, w, after, hline, hbefore, hw, -⟩ :=
      Text.exists_of_bytes_drop hne hsmall hback
    obtain ⟨before, rest, hsplit, rfl, hrest⟩ := List.map_eq_append_iff.mp hline
    obtain ⟨w, after, rfl, rfl, rfl⟩ := List.map_eq_append_iff.mp hrest
    rw [Text.length_bytes_map_toLower] at hbefore
    exact ⟨before, w, after, hsplit, Text.bytes_injective hw, hbefore⟩
  · rintro ⟨before, w, after, hline, hw, rfl⟩
    rw [hline, List.map_append, List.map_append, hw, Text.bytes_append, Text.bytes_append,
      ← Text.length_bytes_map_toLower before, List.drop_left]
    exact List.prefix_append _ _

/-- Where the word is found in the copy, the line can be cut in front of it and behind it. -/
theorem FoundAt.isValid {line : String} {k : ℕ} (h : FoundAt line k) :
    String.Pos.Raw.IsValid line ⟨k⟩ ∧ String.Pos.Raw.IsValid line ⟨k + word.length⟩ := by
  obtain ⟨before, w, after, hline, hw, rfl⟩ := foundAt_iff.mp h
  have hlength : (String.ofList w).utf8ByteSize = word.length := by
    rw [← Text.length_bytes, ← Text.length_bytes_map_toLower, hw]
    rfl
  have hfront : line = String.ofList before ++ String.ofList (w ++ after) := by
    rw [← String.toList_inj]
    simp [hline]
  have hback : line = (String.ofList before ++ String.ofList w) ++ String.ofList after := by
    rw [← String.toList_inj]
    simp [hline]
  rw [Text.length_bytes]
  refine ⟨Text.isValid_of_eq_append hfront, ?_⟩
  rw [← hlength, ← String.utf8ByteSize_append]
  exact Text.isValid_of_eq_append hback

/-! ### Lines -/

/-- A line has a slack exactly if it has a mark and, behind the first one, the first word that
begins as a number does and is a numeral is finite; that is the slack. Lines that differ in the case
of letters have the same slack. All marks begin where the word is found in a copy of the line in
small letters, byte by byte, and everywhere the word is found the line can be cut. -/
theorem slack?_grammar (line : String) :
    (∀ v, slack? line.toList = some v ↔ ∃ after, marks.Leftmost after line.toList ∧
      IsFirstNumeral (Text.tokens after) v ∧ v.isFinite = true) ∧
    (∀ line' : String, line'.toLower = line.toLower →
      slack? line'.toList = slack? line.toList) ∧
    (∀ after before, IsMarked after before line.toList →
      FoundAt line (String.ofList before).utf8ByteSize) ∧
    ∀ k, FoundAt line k →
      String.Pos.Raw.IsValid line ⟨k⟩ ∧ String.Pos.Raw.IsValid line ⟨k + word.length⟩ := by
  refine ⟨fun v => slack?_eq_some_iff, fun line' h => ?_, ?_, fun k => FoundAt.isValid⟩
  · have hsmall := congrArg String.toList h
    rw [String.toLower, String.toLower, String.toList_map, String.toList_map] at hsmall
    rw [← slack?_map_toLower, hsmall, slack?_map_toLower]
  · rintro after before ⟨w, rest, hline, hw, -⟩
    rw [← Text.length_bytes]
    exact foundAt_iff.mpr ⟨before, w, rest, hline, hw, rfl⟩

/-- A line whose first tag is refused, and whose first word behind the second only begins as a
number does. -/
def refusedTag : String := "slack (two words) Slack(met) -- -.5e0 ns"

theorem slack?_grammar_refused :
    slack? "SLACK (TWO WORDS) SLACK(MET) -- -.5E0 NS".toList = some (-0.5) ∧
    FoundAt refusedTag 18 ∧
    String.Pos.Raw.IsValid refusedTag ⟨18⟩ ∧ String.Pos.Raw.IsValid refusedTag ⟨23⟩ := by
  have hvalue : slack? refusedTag.toList = some (-0.5) := by decide +kernel
  have hfound : FoundAt refusedTag 18 := foundAt_iff.mpr
    ⟨"slack (two words) ".toList, "Slack".toList, "(met) -- -.5e0 ns".toList, by decide +kernel,
      by decide +kernel, by decide +kernel⟩
  have hsmall : "SLACK (TWO WORDS) SLACK(MET) -- -.5E0 NS".toLower = refusedTag.toLower := by
    rw [String.toLower, String.toLower, ← String.toList_inj, String.toList_map, String.toList_map]
    decide +kernel
  obtain ⟨-, hcase, -, hcuts⟩ := slack?_grammar refusedTag
  exact ⟨(hcase _ hsmall).trans hvalue, hfound, hcuts 18 hfound⟩

end Presynth.SlackLine
