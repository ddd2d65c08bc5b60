import Presynth.Estimate.Mnemonic
import Presynth.Proofs.Text.Search
import Presynth.Proofs.Text.Words
/-!
# The operator of a name

An instance name holds the token of its operator somewhere: a capital and small letters, and a
number right behind them. Names may hold several tokens; the one that begins leftmost counts. A
number ends where no digit follows, so at each place of a name at most one token begins.

Main statements: `OperatorToken.find?_eq_some_iff` and `find?_eq_none_iff` (the search finds the
leftmost token, if there is one) and `Operator.ofInstanceName_eq_ok_iff` with
`Operator.ofInstanceName_eq_error_iff` (what this says about instance names).
-/

namespace Presynth

namespace OperatorToken

/-- A token stands in a name between what comes before it and what comes after it. -/
structure IsAt (token : OperatorToken) (before after name : List Char) : Prop where
  split : name = before ++ (token.mnemonic ++ (token.instanceNumber ++ after))
  letters : ∃ c small,
    token.mnemonic = c :: small ∧ c.isUpper = true ∧ ∀ l ∈ small, l.isLower = true
  digits : ∀ d ∈ token.instanceNumber, d.isDigit = true
  numbered : token.instanceNumber ≠ []
  /-- The number does not go on. -/
  ended : ∀ d ∈ after.head?, d.isDigit = false

/-- A token stands in a name, and none begins to the left of it. -/
def IsFirst (token : OperatorToken) (name : List Char) : Prop :=
  ∃ before after, token.IsAt before after name ∧
    ∀ token' before' after', IsAt token' before' after' name → before.length ≤ before'.length

variable {token : OperatorToken} {name rest before after : List Char} {c : Char}

/-! ### Tokens at the front of a name -/

/-- Digits are no letters, so the small letters of a mnemonic end where its number begins. -/
theorem isLower_eq_false {d : Char} (h : d.isDigit = true) : d.isLower = false := by
  have hle : d.val ≤ '9'.val := of_decide_eq_true (Bool.and_eq_true_iff.mp h).2
  rw [Bool.eq_false_iff]
  intro hlower
  have hge : 'a'.val ≤ d.val := of_decide_eq_true (Bool.and_eq_true_iff.mp hlower).1
  exact absurd (UInt32.le_trans hge hle) (by decide)

/-- The number behind the small letters that come first. -/
def numberOf (rest : List Char) : List Char := (rest.dropWhile Char.isLower).takeWhile Char.isDigit

/-- At the front of a name is at most one token: its letters and digits go as far as they can. -/
theorem exists_isAt_nil_iff :
    (∃ after, token.IsAt [] after (c :: rest)) ↔
      c.isUpper = true ∧ numberOf rest ≠ [] ∧
        token = ⟨c :: rest.takeWhile Char.isLower, numberOf rest⟩ := by
  unfold numberOf
  constructor
  · rintro ⟨after, hsplit, hletters, hdigits, hnumbered, hended⟩
    obtain ⟨capital, small, hmnemonic, hcapital, hsmall⟩ := hletters
    obtain ⟨mnemonic, number⟩ := token
    dsimp only at hsplit hmnemonic hdigits hnumbered
    subst hmnemonic
    obtain ⟨rfl, rfl⟩ := List.cons_eq_cons.mp hsplit
    -- a digit follows the letters, so they stop there and not before
    have hnumber : ∀ d ∈ (number ++ after).head?, d.isLower = false := by
      cases number with
      | nil => exact absurd rfl hnumbered
      | cons d number =>
          intro e he
          obtain rfl : d = e := Option.some.inj he
          exact isLower_eq_false (hdigits d List.mem_cons_self)
    obtain ⟨htake, hdrop⟩ := Text.cut_append hsmall hnumber
    obtain ⟨htake', -⟩ := Text.cut_append hdigits hended
    rw [List.append_eq, htake, hdrop, htake']
    exact ⟨hcapital, hnumbered, rfl⟩
  · rintro ⟨hcapital, hnumbered, rfl⟩
    refine ⟨(rest.dropWhile Char.isLower).dropWhile Char.isDigit, ?_,
      ⟨c, _, rfl, hcapital, fun l hl => List.mem_takeWhile_imp hl⟩,
      fun d hd => List.mem_takeWhile_imp hd, hnumbered, ?_⟩
    · simp
    · intro d hd
      have hstop := List.head?_dropWhile_not Char.isDigit (rest.dropWhile Char.isLower)
      rw [Option.mem_def.mp hd] at hstop
      exact hstop

theorem isAt_cons_iff {b : Char} :
    token.IsAt (b :: before) after (c :: rest) ↔ b = c ∧ token.IsAt before after rest := by
  constructor
  · rintro ⟨hsplit, hletters, hdigits, hnumbered, hended⟩
    obtain ⟨rfl, hrest⟩ := List.cons_eq_cons.mp hsplit
    exact ⟨rfl, hrest, hletters, hdigits, hnumbered, hended⟩
  · rintro ⟨rfl, hsplit, hletters, hdigits, hnumbered, hended⟩
    exact ⟨by rw [hsplit]; rfl, hletters, hdigits, hnumbered, hended⟩

theorem not_isAt_empty : ¬ token.IsAt before after [] := by
  rintro ⟨hsplit, ⟨c, small, hmnemonic, -⟩, -⟩
  rw [hmnemonic] at hsplit
  simp at hsplit

/-- Tokens as what is found in names. -/
def pattern : Text.Pattern OperatorToken where
  At token before name := ∃ after, token.IsAt before after name
  not_empty := fun ⟨_, hat⟩ => not_isAt_empty hat
  cons_iff := by simp only [isAt_cons_iff, exists_and_left, implies_true]

/-- The first token is the leftmost match of the pattern. -/
theorem isFirst_iff_leftmost : token.IsFirst name ↔ pattern.Leftmost token name := by
  constructor
  · rintro ⟨before, after, hat, hfirst⟩
    exact ⟨before, ⟨after, hat⟩, fun token' before' ⟨after', hat'⟩ =>
      hfirst token' before' after' hat'⟩
  · rintro ⟨before, ⟨after, hat⟩, hfirst⟩
    exact ⟨before, after, hat, fun token' before' after' hat' =>
      hfirst token' before' ⟨after', hat'⟩⟩

/-! ### The search -/

/-- The token at the front of a name. -/
def atFront? : List Char → Option OperatorToken
  | [] => none
  | c :: rest =>
    if c.isUpper = true ∧ numberOf rest ≠ [] then
      some ⟨c :: rest.takeWhile Char.isLower, numberOf rest⟩
    else none

theorem find?_cons (c : Char) (rest : List Char) :
    find? (c :: rest) = (atFront? (c :: rest)).or (find? rest) := by
  rw [find?, atFront?]
  dsimp only
  rw [show (rest.dropWhile Char.isLower).takeWhile Char.isDigit = numberOf rest from rfl]
  by_cases hc : c.isUpper = true
  · by_cases hn : numberOf rest = []
    · simp [hc, hn]
    · simp [hc, hn]
  · simp [hc]

/-- The search finds the first token. -/
theorem find?_eq_some_iff : find? name = some token ↔ token.IsFirst name := by
  rw [isFirst_iff_leftmost]
  refine Text.Pattern.search_eq_some_iff rfl find?_cons fun token c rest => ?_
  change _ ↔ ∃ after, token.IsAt [] after (c :: rest)
  rw [exists_isAt_nil_iff, atFront?, Option.ite_none_right_eq_some, Option.some_inj, and_assoc,
    eq_comm (a := token)]

/-- The search fails only where there is no token. -/
theorem find?_eq_none_iff :
    find? name = none ↔ ∀ (token : OperatorToken) before after, ¬ token.IsAt before after name := by
  rw [Option.eq_none_iff_forall_ne_some, ← not_exists]
  simp only [find?_eq_some_iff, isFirst_iff_leftmost, Text.Pattern.exists_leftmost_iff]
  push Not
  exact forall_congr' fun token => forall_congr' fun before => not_exists

end OperatorToken

/-! ### Instance names -/

namespace Operator

/-- The name is that of an instance of the operator. -/
def IsInstance (op : Operator) (name : String) : Prop :=
  ∃ token : OperatorToken, token.IsFirst name.toList ∧ String.ofList token.mnemonic = op.mnemonic

/-- What is wrong with a name that is not that of an instance of any operator. -/
inductive NoInstance (name : String) : CostError → Prop where
  /-- There is no token in it. -/
  | tokenless (h : ∀ (token : OperatorToken) before after, ¬ token.IsAt before after name.toList) :
      NoInstance name (.missingMnemonic name)
  /-- No operator has the mnemonic of its first token. -/
  | unsupported {token : OperatorToken} (first : token.IsFirst name.toList)
      (h : ∀ op : Operator, op.mnemonic ≠ String.ofList token.mnemonic) :
      NoInstance name (.unknownOperator name (String.ofList token.mnemonic))

theorem ofMnemonic?_eq_none_iff {mnemonic : String} :
    ofMnemonic? mnemonic = none ↔ ∀ op : Operator, op.mnemonic ≠ mnemonic := by
  rw [Option.eq_none_iff_forall_ne_some]
  exact forall_congr' fun op => ofMnemonic?_eq_some_iff.not.trans ne_comm

/-- A name with a token whose mnemonic is known is that of an instance. -/
theorem ofInstanceName_eq_ok_iff {name : String} {op : Operator} :
    ofInstanceName name = .ok op ↔ op.IsInstance name := by
  unfold ofInstanceName IsInstance
  simp only [← OperatorToken.find?_eq_some_iff]
  cases OperatorToken.find? name.toList with
  | none => simp
  | some token =>
      simp only [Option.some_inj, exists_eq_left', ← ofMnemonic?_eq_some_iff]
      cases ofMnemonic? (String.ofList token.mnemonic) with
      | none => simp
      | some op' => simp

instance (op : Operator) (name : String) : Decidable (op.IsInstance name) :=
  decidable_of_iff _ ofInstanceName_eq_ok_iff

/-- There is no token, or its mnemonic is unknown; a later token does not help. -/
theorem ofInstanceName_eq_error_iff {name : String} {e : CostError} :
    ofInstanceName name = .error e ↔ NoInstance name e := by
  unfold ofInstanceName
  constructor
  · cases hfind : OperatorToken.find? name.toList with
    | none =>
        rintro ⟨⟩
        exact .tokenless (OperatorToken.find?_eq_none_iff.mp hfind)
    | some token =>
        have hfirst := OperatorToken.find?_eq_some_iff.mp hfind
        dsimp only
        cases hop : ofMnemonic? (String.ofList token.mnemonic) with
        | none =>
            rintro ⟨⟩
            exact .unsupported hfirst (ofMnemonic?_eq_none_iff.mp hop)
        | some op => exact nofun
  · intro h
    cases h with
    | tokenless h => rw [OperatorToken.find?_eq_none_iff.mpr h]
    | unsupported first h =>
        rw [OperatorToken.find?_eq_some_iff.mpr first]
        dsimp only
        rw [ofMnemonic?_eq_none_iff.mpr h]

end Operator

end Presynth
