import Mathlib.Computability.Language
import Presynth.Proofs.Estimate.Token
import Presynth.Proofs.Text.Case
/-!
# The grammar of operator tokens

A token is a capital with small letters, and digits right behind them: as a regular expression over
the bytes of a name, `[A-Z][a-z]*[0-9]+`. All these bytes are characters of their own, so the first
token of a name is the leftmost match of the expression, byte by byte, and its ends are ends of
characters. Its digits go as far as they can.

Main statements: `OperatorToken.beginsAt_iff` (matches in the bytes are tokens),
`OperatorToken.exists_isLeftmostIn_iff` (the first token is the leftmost match) and
`Operator.ofInstanceName_grammar`.
-/

namespace Presynth

open Computability
open Text (IsIn isUpper_iff isLower_iff isDigit_iff)

namespace OperatorToken

/-! ### The regular expression -/

/-- The texts of one byte between two ASCII characters. -/
def byteIn (first last : Char) : Language UInt8 :=
  {text | ∃ b : UInt8, text = [b] ∧ IsIn first last b.toNat}

/-- The mnemonics, `[A-Z][a-z]*`. -/
def mnemonics : Language UInt8 := byteIn 'A' 'Z' * (byteIn 'a' 'z')∗

/-- The numbers of instances, `[0-9]+`. -/
def numbers : Language UInt8 := byteIn '0' '9' * (byteIn '0' '9')∗

/-- A match of the expression begins at a byte of a name. -/
def BeginsAt (name : String) (k : ℕ) : Prop :=
  ∃ text ∈ mnemonics * numbers, text <+: (Archive.utf8 name).drop k

variable {text : List UInt8}

theorem mem_kstar_byteIn_iff {first last : Char} :
    text ∈ (byteIn first last)∗ ↔ ∀ b ∈ text, IsIn first last b.toNat := by
  rw [Language.mem_kstar]
  constructor
  · rintro ⟨pieces, rfl, hpieces⟩ b hb
    obtain ⟨piece, hpiece, hmem⟩ := List.mem_flatten.mp hb
    obtain ⟨b', rfl, hb'⟩ := hpieces piece hpiece
    rwa [List.mem_singleton.mp hmem]
  · intro h
    refine ⟨text.map fun b => [b], ?_, fun piece hpiece => ?_⟩
    · simp [← List.flatMap_def]
    · obtain ⟨b, hb, rfl⟩ := List.mem_map.mp hpiece
      exact ⟨b, rfl, h b hb⟩

theorem mem_mnemonics_iff : text ∈ mnemonics ↔
    ∃ b small, text = b :: small ∧ IsIn 'A' 'Z' b.toNat ∧ ∀ l ∈ small, IsIn 'a' 'z' l.toNat := by
  rw [mnemonics, Language.mem_mul]
  constructor
  · rintro ⟨_, ⟨b, rfl, hb⟩, small, hsmall, rfl⟩
    exact ⟨b, small, rfl, hb, mem_kstar_byteIn_iff.mp hsmall⟩
  · rintro ⟨b, small, rfl, hb, hsmall⟩
    exact ⟨[b], ⟨b, rfl, hb⟩, small, mem_kstar_byteIn_iff.mpr hsmall, rfl⟩

theorem mem_numbers_iff :
    text ∈ numbers ↔ text ≠ [] ∧ ∀ d ∈ text, IsIn '0' '9' d.toNat := by
  rw [numbers, Language.mem_mul]
  constructor
  · rintro ⟨_, ⟨b, rfl, hb⟩, rest, hrest, rfl⟩
    exact ⟨by simp, List.forall_mem_cons.mpr ⟨hb, mem_kstar_byteIn_iff.mp hrest⟩⟩
  · rintro ⟨hne, hall⟩
    obtain ⟨b, rest, rfl⟩ := List.exists_cons_of_ne_nil hne
    rw [List.forall_mem_cons] at hall
    exact ⟨[b], ⟨b, rfl, hall.1⟩, rest, mem_kstar_byteIn_iff.mpr hall.2, rfl⟩

/-- A run of small bytes, which are characters of their own. -/
def IsSmallRun (text : List UInt8) : Prop := text ≠ [] ∧ ∀ b ∈ text, b.toNat < 0x80

/-- All bytes of a token are below 128, so that no character of more bytes has a part in one. -/
theorem isSmallRun_of_mem_mnemonics (h : text ∈ mnemonics) : IsSmallRun text := by
  obtain ⟨b, small, rfl, hb, hsmall⟩ := mem_mnemonics_iff.mp h
  refine ⟨List.cons_ne_nil b small, List.forall_mem_cons.mpr ⟨hb.lt (by decide), ?_⟩⟩
  exact fun l hl => (hsmall l hl).lt (by decide)

theorem isSmallRun_of_mem_numbers (h : text ∈ numbers) : IsSmallRun text := by
  obtain ⟨hne, hdigits⟩ := mem_numbers_iff.mp h
  exact ⟨hne, fun d hd => (hdigits d hd).lt (by decide)⟩

/-! ### The same in characters -/

variable {chars : List Char}

/-- The expression over bytes describes the same texts as one over characters. -/
theorem bytes_mem_mnemonics_iff : Text.bytes chars ∈ mnemonics ↔
    ∃ c small, chars = c :: small ∧ c.isUpper = true ∧ ∀ l ∈ small, l.isLower = true := by
  simp only [mem_mnemonics_iff, isUpper_iff, isLower_iff]
  have hcapital : ∀ n, IsIn 'A' 'Z' n → n < 0x80 := fun _ h => h.lt (by decide)
  have hsmall : ∀ n, IsIn 'a' 'z' n → n < 0x80 := fun _ h => h.lt (by decide)
  constructor
  · rintro ⟨b, small, hbytes, hb, hall⟩
    obtain ⟨before, c, small, rfl, hbefore, ⟨-, hc⟩, rfl⟩ :=
      Text.exists_of_bytes_eq (hcapital _ hb) (hbytes.trans (List.nil_append _).symm)
    obtain rfl := Text.bytes_eq_nil_iff.mp hbefore
    exact ⟨c, small, rfl, hc ▸ hb, (Text.forall_mem_bytes_iff hsmall).mp hall⟩
  · rintro ⟨c, small, rfl, hc, hall⟩
    have hsingle : String.utf8EncodeChar c = [c.toUInt8] :=
      ((Text.utf8EncodeChar_cases c).resolve_right fun hlarge =>
        absurd (hcapital _ hc) (Nat.not_lt_of_le hlarge.1)).2
    refine ⟨c.toUInt8, Text.bytes small, ?_, ?_, (Text.forall_mem_bytes_iff hsmall).mpr hall⟩
    · rw [Text.bytes_cons, hsingle, List.singleton_append]
    · rwa [Text.toNat_toUInt8 (hcapital _ hc)]

theorem bytes_mem_numbers_iff :
    Text.bytes chars ∈ numbers ↔ chars ≠ [] ∧ ∀ d ∈ chars, d.isDigit = true := by
  simp only [mem_numbers_iff, isDigit_iff, ne_eq, Text.bytes_eq_nil_iff]
  exact and_congr_right fun _ => Text.forall_mem_bytes_iff fun _ h => h.lt (by decide)

/-! ### Matches and tokens -/

variable {name : String} {token : OperatorToken}

/-- A match begins where a token does. -/
theorem beginsAt_iff {k : ℕ} : BeginsAt name k ↔
    ∃ (token : OperatorToken) (before after : List Char),
      token.IsAt before after name.toList ∧ (Text.bytes before).length = k := by
  unfold BeginsAt
  rw [Text.utf8_eq_bytes]
  constructor
  · rintro ⟨_, ⟨mnemonic, hmnemonic, number, hnumber, rfl⟩, back, hback⟩
    have hletters := isSmallRun_of_mem_mnemonics hmnemonic
    have hdigits := isSmallRun_of_mem_numbers hnumber
    rw [List.append_assoc] at hback
    obtain ⟨before, letters, rest, hname, hbefore, rfl, hrest⟩ :=
      Text.exists_of_bytes_drop hletters.1 hletters.2 hback
    obtain ⟨between, digits, rest, rfl, hbetween, rfl, -⟩ :=
      Text.exists_of_bytes_eq_append hdigits.1 hdigits.2 (hrest.trans (List.nil_append _).symm)
    obtain rfl := Text.bytes_eq_nil_iff.mp hbetween
    obtain ⟨hne, hdigits⟩ := bytes_mem_numbers_iff.mp hnumber
    -- the token goes on where more digits follow
    refine ⟨⟨letters, digits ++ rest.takeWhile Char.isDigit⟩, before, rest.dropWhile Char.isDigit,
      ⟨?_, bytes_mem_mnemonics_iff.mp hmnemonic, ?_, by simp [hne], ?_⟩, hbefore⟩
    · simp [hname]
    · exact List.forall_mem_append.mpr ⟨hdigits, fun d hd => List.mem_takeWhile_imp hd⟩
    · intro d hd
      have hstop := List.head?_dropWhile_not Char.isDigit rest
      rwa [Option.mem_def.mp hd] at hstop
  · rintro ⟨token, before, after, ⟨hsplit, hletters, hdigits, hnumbered, -⟩, rfl⟩
    refine ⟨_, Language.mem_mul.mpr ⟨_, bytes_mem_mnemonics_iff.mpr hletters, _,
      bytes_mem_numbers_iff.mpr ⟨hnumbered, hdigits⟩, rfl⟩, Text.bytes after, ?_⟩
    rw [hsplit, Text.bytes_append, List.drop_left, Text.bytes_append, Text.bytes_append,
      List.append_assoc]

/-- Some part of a name matches if there is a token. -/
theorem exists_infix_iff : (∃ text ∈ mnemonics * numbers, text <:+: Archive.utf8 name) ↔
    ∃ token, find? name.toList = some token := by
  rw [← Option.isSome_iff_exists, Option.isSome_iff_ne_none, ne_eq, find?_eq_none_iff]
  push Not
  constructor
  · rintro ⟨text, hmem, front, back, hname⟩
    have hbegins : BeginsAt name front.length := by
      refine ⟨text, hmem, back, ?_⟩
      rw [← hname, List.append_assoc, List.drop_left]
    obtain ⟨token, before, after, hat, -⟩ := beginsAt_iff.mp hbegins
    exact ⟨token, before, after, hat⟩
  · rintro ⟨token, before, after, hat⟩
    obtain ⟨text, hmem, hfront⟩ := beginsAt_iff.mpr ⟨token, before, after, hat, rfl⟩
    exact ⟨text, hmem, hfront.isInfix.trans (List.drop_suffix _ _).isInfix⟩

/-- The leftmost match in a name, between what comes before it and what comes after it. -/
structure IsLeftmostIn (token : OperatorToken) (name before after : String) : Prop where
  /-- The mnemonic and the number stand in the name, side by side. -/
  split : name = before ++ (String.ofList token.mnemonic ++
    (String.ofList token.instanceNumber ++ after))
  mnemonic_mem : Archive.utf8 (String.ofList token.mnemonic) ∈ mnemonics
  number_mem : Archive.utf8 (String.ofList token.instanceNumber) ∈ numbers
  /-- The number does not go on. -/
  ended : ∀ d ∈ after.toList.head?, d.isDigit = false
  /-- No match begins at an earlier byte. -/
  leftmost : ∀ k, BeginsAt name k → before.utf8ByteSize ≤ k

theorem IsAt.front_of {before after : List Char} (h : token.IsAt before after name.toList) :
    before <+: name.toList := ⟨_, h.split.symm⟩

/-- To begin at no later byte is to begin at no later character. -/
theorem forall_beginsAt_iff {before : List Char} (h : before <+: name.toList) :
    (∀ k, BeginsAt name k → (Text.bytes before).length ≤ k) ↔
      ∀ token' before' after', IsAt token' before' after' name.toList →
        before.length ≤ before'.length := by
  constructor
  · intro hleftmost token' before' after' hat
    rw [← Text.length_le_iff_of_fronts h hat.front_of]
    exact hleftmost _ (beginsAt_iff.mpr ⟨token', before', after', hat, rfl⟩)
  · intro hfirst k hk
    obtain ⟨token', before', after', hat, rfl⟩ := beginsAt_iff.mp hk
    rw [Text.length_le_iff_of_fronts h hat.front_of]
    exact hfirst token' before' after' hat

/-- The first token is the leftmost match. -/
theorem exists_isLeftmostIn_iff :
    (∃ before after, token.IsLeftmostIn name before after) ↔ token.IsFirst name.toList := by
  constructor
  · rintro ⟨before, after, hsplit, hmnemonic, hnumber, hended, hleftmost⟩
    rw [Text.utf8_ofList] at hmnemonic hnumber
    obtain ⟨hnumbered, hdigits⟩ := bytes_mem_numbers_iff.mp hnumber
    have hat : token.IsAt before.toList after.toList name.toList :=
      ⟨by simp [hsplit], bytes_mem_mnemonics_iff.mp hmnemonic, hdigits, hnumbered, hended⟩
    refine ⟨before.toList, after.toList, hat, (forall_beginsAt_iff hat.front_of).mp ?_⟩
    rwa [Text.length_bytes, String.ofList_toList]
  · rintro ⟨before, after, hat, hfirst⟩
    refine ⟨String.ofList before, String.ofList after, ?_, ?_, ?_, ?_, ?_⟩
    · rw [← String.toList_inj]
      simp [hat.split]
    · rw [Text.utf8_ofList]
      exact bytes_mem_mnemonics_iff.mpr hat.letters
    · rw [Text.utf8_ofList]
      exact bytes_mem_numbers_iff.mpr ⟨hat.numbered, hat.digits⟩
    · rw [String.toList_ofList]
      exact hat.ended
    · rw [← Text.length_bytes]
      exact (forall_beginsAt_iff hat.front_of).mpr hfirst

/-- The bytes at which a token begins and ends, and at which its number begins. -/
def cuts (token : OperatorToken) (before : String) : List ℕ :=
  let start := before.utf8ByteSize
  let middle := start + (String.ofList token.mnemonic).utf8ByteSize
  [start, middle, middle + (String.ofList token.instanceNumber).utf8ByteSize]

/-- A token is cut out of its name between characters. -/
theorem IsLeftmostIn.isValid {before after : String} (h : token.IsLeftmostIn name before after) :
    ∀ k ∈ token.cuts before, String.Pos.Raw.IsValid name ⟨k⟩ := by
  have hsplit := h.split
  generalize hm : String.ofList token.mnemonic = m at hsplit
  generalize hn : String.ofList token.instanceNumber = n at hsplit
  intro k hk
  simp only [cuts, hm, hn, List.mem_cons, List.not_mem_nil, or_false] at hk
  rcases hk with rfl | rfl | rfl
  · exact Text.isValid_of_eq_append hsplit
  · have hmiddle : name = (before ++ m) ++ (n ++ after) := by rw [hsplit, String.append_assoc]
    rw [← String.utf8ByteSize_append]
    exact Text.isValid_of_eq_append hmiddle
  · have hend : name = (before ++ m ++ n) ++ after := by
      rw [hsplit, String.append_assoc, String.append_assoc]
    rw [← String.utf8ByteSize_append, ← String.utf8ByteSize_append]
    exact Text.isValid_of_eq_append hend

end OperatorToken

/-! ### Instance names -/

namespace Operator

open OperatorToken

/-- A name has a token exactly if some part of it matches `[A-Z][a-z]*[0-9]+`, and then the token is
the leftmost match, byte by byte, with all digits that follow, cut out of the name between
characters. The operator of a name is the one of the mnemonic of its token; a name without a token
and a mnemonic outside the closed set are reported as such. -/
theorem ofInstanceName_grammar (name : String) :
    ((∃ token, find? name.toList = some token) ↔
      ∃ text ∈ mnemonics * numbers, text <:+: Archive.utf8 name) ∧
    (∀ token, find? name.toList = some token ↔ ∃ before after,
      token.IsLeftmostIn name before after ∧
        ∀ k ∈ token.cuts before, String.Pos.Raw.IsValid name ⟨k⟩) ∧
    (∀ op, ofInstanceName name = .ok op ↔
      ∃ token, find? name.toList = some token ∧ String.ofList token.mnemonic = op.mnemonic) ∧
    (∀ node mnemonic, ofInstanceName name = .error (.unknownOperator node mnemonic) ↔
      node = name ∧ ∃ token, find? name.toList = some token ∧
        String.ofList token.mnemonic = mnemonic ∧ ∀ op : Operator, op.mnemonic ≠ mnemonic) ∧
    ∀ node, ofInstanceName name = .error (.missingMnemonic node) ↔
      node = name ∧ find? name.toList = none := by
  refine ⟨exists_infix_iff.symm, fun token => ?_, fun op => ?_, fun node mnemonic => ?_,
    fun node => ?_⟩
  · rw [find?_eq_some_iff, ← exists_isLeftmostIn_iff]
    constructor
    · rintro ⟨before, after, h⟩
      exact ⟨before, after, h, h.isValid⟩
    · rintro ⟨before, after, h, -⟩
      exact ⟨before, after, h⟩
  · simp only [find?_eq_some_iff]
    exact ofInstanceName_eq_ok_iff
  · simp only [find?_eq_some_iff]
    rw [ofInstanceName_eq_error_iff]
    constructor
    · intro h
      cases h with
      | unsupported hfirst hno => exact ⟨rfl, _, hfirst, rfl, hno⟩
    · rintro ⟨rfl, token, hfirst, rfl, hno⟩
      exact .unsupported hfirst hno
  · rw [ofInstanceName_eq_error_iff, find?_eq_none_iff]
    constructor
    · intro h
      cases h with
      | tokenless hno => exact ⟨rfl, hno⟩
    · rintro ⟨rfl, hno⟩
      exact .tokenless hno

/-- A compound mnemonic counts by its tail, as the capital before it has no digits. -/
example : find? "top.LessThan3".toList = some ⟨"Than".toList, ['3']⟩ := by decide

end Operator

end Presynth
