import Presynth.Proofs.Slack.LineGrammar
import Presynth.Proofs.Text.Lines
import Presynth.Run.Slack
/-!
# Lines of timing reports

Each line of a report with the word `slack` in small letters is accounted for once, by its slack or
by a remark with its number, and no other line is. A report in two parts yields what the parts
yield, with the lines of the second numbered behind those of the first; the carriage returns at the
ends of lines do not matter to what a line yields, also where a part ends with one.

Main statements: `ReportEntry.ofLine?_cases` (what a line yields),
`ReportEntry.ofLines_lines_append` (reports in two parts) and `reportSlacks_conserves`.
-/

namespace Presynth

/-! ### Entries -/

namespace ReportEntry

open SlackLine

variable {number first : ℕ}

/-- What a line yields: nothing without the word, and otherwise its slack or that it has none. -/
theorem ofLine?_cases (number : ℕ) (line : List Char) :
    (¬ word <:+: line ∧ ofLine? number line = none) ∨
    (word <:+: line ∧ ∃ x, slack? line = some x ∧ ofLine? number line = some (slack x)) ∨
    (word <:+: line ∧ slack? line = none ∧
      ofLine? number line = some (unrecognized number (String.ofList (Text.trim line)))) := by
  simp only [ofLine?, Text.occursIn_iff]
  by_cases hword : word <:+: line
  · refine .inr ?_
    simp only [if_pos hword]
    cases slack? line with
    | none => exact .inr ⟨hword, rfl, rfl⟩
    | some x => exact .inl ⟨hword, x, rfl, rfl⟩
  · exact .inl ⟨hword, if_neg hword⟩

theorem ofLine?_append_blank {b : Char} (hb : Text.isBlank b = true) (line : List Char) :
    ofLine? number (line ++ [b]) = ofLine? number line := by
  simp only [ofLine?, Text.occursIn_iff, isInfix_append_blank hb, slack?_append_blank hb,
    Text.trim_append_blank hb]

/-- The carriage return at the end of a line is a blank. -/
theorem ofLine?_withoutReturn (line : List Char) :
    ofLine? number (Text.withoutReturn line) = ofLine? number line := by
  rcases Text.withoutReturn_cases line with h | h
  · rw [h]
  · calc ofLine? number (Text.withoutReturn line)
        = ofLine? number (Text.withoutReturn line ++ ['\r']) :=
          (ofLine?_append_blank (by decide) _).symm
      _ = ofLine? number line := by rw [← h]

theorem ofLines_cons (line : List Char) (rest : List (List Char)) :
    ofLines first (line :: rest) = (ofLine? first line).toList ++ ofLines (first + 1) rest := by
  rw [ofLines]
  cases ofLine? first line with
  | none => rfl
  | some entry => rfl

/-- The lines of the second part are numbered behind those of the first. -/
theorem ofLines_lines_append (text more : List Char) :
    ofLines first (Text.lines (text ++ '\n' :: more)) =
      ofLines first (Text.lines text) ++
        ofLines (first + (1 + text.count '\n')) (Text.lines more) := by
  -- on the length, since whole lines are cut off in front
  induction hlength : text.length using Nat.strong_induction_on generalizing text first with
  | _ n ih =>
    by_cases h : '\n' ∈ text
    · obtain ⟨piece, rest, rfl, hpiece⟩ := List.eq_append_cons_of_mem h
      rw [List.append_assoc, List.cons_append, Text.lines_append_newline hpiece,
        Text.lines_append_newline hpiece, ofLines_cons, ofLines_cons,
        ih rest.length (by simp [← hlength]; omega) rest rfl, List.append_assoc, List.count_append,
        List.count_eq_zero_of_not_mem hpiece, List.count_cons_self]
      congr 3
      omega
    · rw [Text.lines_append_newline h, ofLines_cons, Text.lines_of_not_mem h,
        List.count_eq_zero_of_not_mem h, ofLine?_withoutReturn]
      by_cases hempty : text = []
      · subst hempty
        rfl
      · rw [if_neg hempty, ofLines_cons, ofLines, List.append_nil]

/-! ### Values and remarks -/

/-- The remark on a line that speaks of slack but carries none. -/
def skipped (number : ℕ) (line : List Char) : Diagnostic :=
  { severity := .warning
    code := ⟨.Report, 1⟩
    message := "unrecognized slack line skipped"
    subject := some ("line " ++ toString number)
    notes := [String.ofList (Text.trim line)] }

/-- The slacks of the lines with the word, in order. -/
def slacksOf (text : String) : List Float :=
  (Text.lines text.toList).filterMap fun line => if word <:+: line then slack? line else none

/-- The remarks on the lines with the word that have no slack, in order, where the lines of the text
are numbered from `first` on. -/
def skippedFrom (first : ℕ) (text : String) : List Diagnostic :=
  ((Text.lines text.toList).zipIdx first).filterMap fun (line, number) =>
    if word <:+: line ∧ slack? line = none then some (skipped number line) else none

theorem ofLine?_bind_value? (number : ℕ) (line : List Char) :
    (ofLine? number line).bind value? = if word <:+: line then slack? line else none := by
  rcases ofLine?_cases number line with ⟨hword, h⟩ | ⟨hword, x, hx, h⟩ | ⟨hword, hnone, h⟩
  · simp [hword, h]
  · simp [hword, hx, h, value?]
  · simp [hword, hnone, h, value?]

theorem ofLine?_bind_remark? (number : ℕ) (line : List Char) : (ofLine? number line).bind remark? =
    if word <:+: line ∧ slack? line = none then some (skipped number line) else none := by
  rcases ofLine?_cases number line with ⟨hword, h⟩ | ⟨hword, x, hx, h⟩ | ⟨hword, hnone, h⟩
  · simp [hword, h]
  · simp [hx, h, remark?]
  · simp [hword, hnone, h, remark?, skipped]

/-- Lines are looked at one by one, each with its number. -/
theorem ofLines_eq_filterMap (lines : List (List Char)) :
    ofLines first lines = (lines.zipIdx first).filterMap fun l => ofLine? l.2 l.1 := by
  induction lines generalizing first with
  | nil => rfl
  | cons line rest ih =>
      rw [ofLines_cons, ih, List.zipIdx_cons, List.filterMap_cons]
      cases ofLine? first line with
      | none => rfl
      | some entry => rfl

theorem filterMap_value?_ofLines (first : ℕ) (text : String) :
    (ofLines first (Text.lines text.toList)).filterMap value? = slacksOf text := by
  have hlines := List.zipIdx_map_fst first (Text.lines text.toList)
  rw [ofLines_eq_filterMap, List.filterMap_filterMap, slacksOf]
  simp only [ofLine?_bind_value?]
  conv_rhs => rw [← hlines, List.filterMap_map]
  rfl

theorem filterMap_remark?_ofLines (first : ℕ) (text : String) :
    (ofLines first (Text.lines text.toList)).filterMap remark? = skippedFrom first text := by
  rw [ofLines_eq_filterMap, List.filterMap_filterMap, skippedFrom]
  simp only [ofLine?_bind_remark?]

/-- An entry has a slack or a remark on it, and not both. -/
theorem length_values_add_length_remarks (entries : List ReportEntry) :
    (entries.filterMap value?).length + (entries.filterMap remark?).length = entries.length := by
  induction entries with
  | nil => rfl
  | cons entry rest ih =>
      cases entry with
      | slack x =>
          simp only [List.filterMap_cons, value?, remark?, List.length_cons]
          omega
      | unrecognized line text =>
          simp only [List.filterMap_cons, value?, remark?, List.length_cons]
          omega

/-- Every line with the word leaves one entry. -/
theorem length_ofLines (lines : List (List Char)) :
    (ofLines first lines).length = lines.countP fun line => word <:+: line := by
  induction lines generalizing first with
  | nil => rfl
  | cons line rest ih =>
      rw [ofLines_cons, List.length_append, ih, List.countP_cons, Nat.add_comm]
      congr 1
      rcases ofLine?_cases first line with ⟨hword, h⟩ | ⟨hword, x, -, h⟩ | ⟨hword, -, h⟩
      · simp [hword, h]
      · simp [hword, h]
      · simp [hword, h]

end ReportEntry

/-! ### Reports -/

open ReportEntry

theorem reportSlacks_eq (text : String) :
    reportSlacks text = (slacksOf text, skippedFrom 1 text) := by
  rw [reportSlacks, ofReport, filterMap_value?_ofLines, filterMap_remark?_ofLines]

/-- Each line of a report with the word is accounted for once, by its slack or by a remark with its
number, both in order, and other lines by nothing. The lines of a second report behind a line feed
are numbered behind those of the first. Of a report in a file the first slacks are kept, as many as
asked for and there are, with the remarks on all lines. -/
theorem reportSlacks_conserves (text : String) :
    reportSlacks text = (slacksOf text, skippedFrom 1 text) ∧
    (reportSlacks text).1.length + (reportSlacks text).2.length =
      ((Text.lines text.toList).countP fun line => SlackLine.word <:+: line) ∧
    (∀ more : String, reportSlacks (text ++ "\n" ++ more) =
      (slacksOf text ++ slacksOf more,
        skippedFrom 1 text ++ skippedFrom (1 + (1 + text.toList.count '\n')) more)) ∧
    ∀ files path limit remarks, files.readText path = .ok text →
      (ExceptT.run (Run.referenceSlacks files path limit)).run remarks =
        (.ok ((slacksOf text).take (min limit (slacksOf text).length)),
          remarks ++ skippedFrom 1 text) := by
  refine ⟨reportSlacks_eq text, ?_, fun more => ?_, fun files path limit remarks h => ?_⟩
  · rw [reportSlacks, length_values_add_length_remarks, ofReport, length_ofLines]
  · have hlines : (text ++ "\n" ++ more).toList = text.toList ++ '\n' :: more.toList := by simp
    rw [reportSlacks, ofReport, hlines, ofLines_lines_append, List.filterMap_append,
      List.filterMap_append, filterMap_value?_ofLines, filterMap_value?_ofLines,
      filterMap_remark?_ofLines, filterMap_remark?_ofLines]
  · rw [Run.referenceSlacks, h]
    change (Except.ok ((reportSlacks text).1.take limit), remarks ++ (reportSlacks text).2) = _
    rw [reportSlacks_eq, ← List.take_take, List.take_length]

/-- Two slacks, and a line without one between them. -/
def mixedReport : String := "slack (MET) 0.25\nslack skipped\r\nslack (MET) 0.5"

/-- The file of that report. -/
def mixedFile : FileTree where
  entries := [("top.rpt", .file (Archive.utf8 mixedReport))]

theorem reportSlacks_conserves_mixed : mixedFile.readText (.ofText "top.rpt") = .ok mixedReport ∧
    (ExceptT.run (Run.referenceSlacks mixedFile (.ofText "top.rpt") 1)).run [] =
      (.ok [0.25], [skipped 2 "slack skipped".toList]) := by
  have hread : mixedFile.readText (.ofText "top.rpt") = .ok mixedReport := by decide +kernel
  have hslacks : slacksOf mixedReport = [0.25, 0.5] := by decide +kernel
  have hskipped : skippedFrom 1 mixedReport = [skipped 2 "slack skipped".toList] := by
    decide +kernel
  have hrun := (reportSlacks_conserves mixedReport).2.2.2 mixedFile (.ofText "top.rpt") 1 [] hread
  rw [hslacks, hskipped] at hrun
  exact ⟨hread, hrun⟩

end Presynth
