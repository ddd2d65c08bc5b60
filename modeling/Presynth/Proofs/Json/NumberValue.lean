import Presynth.Json.Basic
import Presynth.Proofs.Numbers.Finite
/-!
# The values of numbers

A number has a finite double for its value, or none: its digits fit a word, a product beyond the
doubles is refused, and quotients by powers of ten only become smaller.

Main statement: `isFinite_of_toFloat?`.
-/

namespace Presynth.Json.Number

open Double Float.Model Float.Model.UnpackedFloat

/-- At most 64 bits of the digits are taken. -/
theorem leadingWord_lt (digits : Nat) : (leadingWord digits).1 < 2 ^ 64 := by
  induction digits using leadingWord.induct with
  | case1 digits h =>
      rw [leadingWord, if_pos h]
      exact h
  | case2 digits h word dropped hword ih =>
      rw [leadingWord, if_neg h, hword]
      rw [hword] at ih
      exact ih

/-- A canonical form that is not below four. -/
theorem two_le_of_units_le {m : Nat} {e : Int} (h : Canonical m e)
    (hle : units (2 ^ 52) (-50) ≤ units m e) : 2 ≤ (m.log2 : Int) + e := by
  by_contra hlt
  have hleast := h.least
  have hm : m < 2 ^ (m.log2 + 1) := Nat.lt_log2_self
  have hunits : units m e < 2 ^ (m.log2 + 1 + (e + 1074).toNat) := by
    rw [Nat.pow_add]
    exact Nat.mul_lt_mul_of_pos_right hm (Nat.two_pow_pos _)
  rw [← Nat.one_mul (2 ^ 52), units_mul_two_pow 1 52 (by decide)] at hle
  have hfour := hle.trans_lt hunits
  rw [units, Nat.one_mul] at hfour
  have hpow := (Nat.pow_lt_pow_iff_right (by decide)).mp hfour
  omega

/-- Three decimal digits are less than ten bits. -/
theorem log2_ten_pow_le {p k : Nat} (hp : p ≤ 3 * k) : (10 ^ p).log2 ≤ 10 * k := by
  have hle : 10 ^ p ≤ 2 ^ (10 * k) :=
    calc 10 ^ p ≤ 10 ^ (3 * k) := Nat.pow_le_pow_right (by decide) hp
      _ = (10 ^ 3) ^ k := Nat.pow_mul ..
      _ ≤ (2 ^ 10) ^ k := Nat.pow_le_pow_left (by decide) _
      _ = 2 ^ (10 * k) := (Nat.pow_mul ..).symm
  have hlog := Nat.log2_self_le (Nat.pow_pos (by decide) : 0 < 10 ^ p).ne'
  exact (Nat.pow_le_pow_iff_right (by decide)).mp (hlog.trans hle)

/-- The powers of ten that are computed exactly before they are rounded. -/
theorem unpack_tenTo_of_lt {p : Nat} (hp : 22 < p) (hp' : p ≤ 306) :
    ∃ s m e hm, (tenTo p).toModel.unpack = .finite s m e hm ∧ 2 ≤ (m.log2 : Int) + e := by
  have hpos : 0 < 10 ^ p := Nat.pow_pos (by decide)
  have hscientific : UnpackedFloat.ofScientific .binary64 1 (p : Int) =
      roundWithAccuracy .binary64 .positive (10 ^ p <<< 53) (-53) .exact := by
    have hmantissa : 10 ^ p <<< 53 = 1 <<< 53 * 10 ^ p := by
      rw [Nat.shiftLeft_eq, Nat.shiftLeft_eq, Nat.one_mul, Nat.mul_comm]
    unfold UnpackedFloat.ofScientific
    rw [dif_neg (by decide), if_neg (by change ¬ (p : Int) > 2048; omega),
      if_neg (by change ¬ (p : Int) < -(2048 + 0); omega), if_pos (by omega), hmantissa]
    rfl
  have htenTo : (tenTo p).toModel.unpack =
      (Float.Model.pack (UnpackedFloat.ofScientific .binary64 1 (p : Int))).unpack := by
    unfold tenTo Float.ofScientific
    rw [dif_neg (by omega)]
    rfl
  -- three decimal digits are less than ten bits, so the power is in the range of the doubles
  have hlog : (10 ^ p).log2 ≤ 10 * 102 := log2_ten_pow_le hp'
  have hbits : (10 ^ p <<< 53).log2 = (10 ^ p).log2 + 53 := log2_shiftLeft hpos 53
  obtain ⟨m, e, hm, hround, hcanon, habove⟩ := isRounded_roundWithAccuracy .positive
    (Nat.shiftLeft_pos_iff.mpr hpos) (show -1074 ≤ (-53 : Int) by decide)
    (by unfold target; rw [hbits]; omega)
  have hbound := exponent_roundWithAccuracy .positive .exact (show (-53 : Int) ≤ 971 by decide)
    (by rw [hbits]; omega) (by decide)
  rw [hround] at hbound
  rcases hbound with hzero | ⟨m', e', hm', heq, he'⟩
  · cases hzero
  · cases heq
    refine ⟨.positive, m, e, hm, ?_, two_le_of_units_le hcanon (habove _ _ ?_ ?_)⟩
    · rw [htenTo, hscientific, hround, unpack_pack hcanon, if_neg (by omega)]
    · exact ⟨by decide, by decide, .inl le_rfl⟩
    · have hfour : 4 ≤ 10 ^ p :=
        (by decide : 4 ≤ 10 ^ 1).trans (Nat.pow_le_pow_right (by decide) (by omega))
      show units (2 ^ 52) (-53 + (3 : Nat)) ≤ _
      rw [← units_mul_two_pow _ _ (by decide), units_le_units, Nat.shiftLeft_eq]
      omega

/-- The place of the highest bit of a number that is finite and not zero. -/
def highestBit? : UnpackedFloat → Option Int
  | .finite _ m e _ => some (m.log2 + e)
  | _ => none

/-- The powers of ten from ten on, as far as there are doubles for them, are at least four. -/
theorem unpack_tenTo {p : Nat} (hpos : 0 < p) (hp : p ≤ 308) :
    ∃ s m e hm, (tenTo p).toModel.unpack = .finite s m e hm ∧ 2 ≤ (m.log2 : Int) + e := by
  by_cases hmiddle : 22 < p ∧ p ≤ 306
  · exact unpack_tenTo_of_lt hmiddle.1 hmiddle.2
  have hends : ∀ p ∈ 307 :: 308 :: List.range 23, 0 < p →
      ∃ bit ∈ highestBit? (tenTo p).toModel.unpack, 2 ≤ bit := by
    decide +kernel
  obtain ⟨bit, hbit, hle⟩ := hends p (by grind) hpos
  cases hunpack : (tenTo p).toModel.unpack with
  | finite s m e hm =>
      rw [hunpack] at hbit
      cases hbit
      exact ⟨s, m, e, hm, rfl, hle⟩
  | _ =>
      rw [hunpack] at hbit
      cases hbit

theorem isFinite_tenTo {p : Nat} (hp : p ≤ 308) : (tenTo p).isFinite = true := by
  by_cases hpos : 0 < p
  · obtain ⟨s, m, e, hm, hunpack, -⟩ := unpack_tenTo hpos hp
    show (tenTo p).toModel.unpack.isFinite = true
    rw [hunpack]
    rfl
  · obtain rfl : p = 0 := by omega
    decide +kernel

/-- Scaling a finite double gives a finite one, or nothing. -/
theorem isFinite_of_scale {x y : Float} {power : Int} (hx : x.isFinite = true)
    (h : scale x power = some y) : y.isFinite = true := by
  unfold scale at h
  split at h
  · split at h
    · cases h
      exact hx
    · split at h
      · cases h
      · rename_i hpower
        dsimp only at h
        split at h
        · cases h
        · rename_i hinf
          cases h
          exact isFinite_mul hx (isFinite_tenTo (by omega)) (Bool.eq_false_iff.mpr hinf)
  · split at h
    · cases h
      obtain ⟨s, m, e, hm, hunpack, hlarge⟩ :=
        unpack_tenTo (p := power.natAbs) (by omega) (by omega)
      exact isFinite_div hx hunpack hlarge
    · split at h
      · cases h
        -- a divisor beyond the greatest power of ten is split in two
        obtain ⟨s, m, e, hm, hunpack, hlarge⟩ := unpack_tenTo (p := 308) (by omega) (by omega)
        obtain ⟨s', m', e', hm', hunpack', hlarge'⟩ :=
          unpack_tenTo (p := power.natAbs - 308) (by omega) (by omega)
        exact isFinite_div (isFinite_div hx hunpack hlarge) hunpack' hlarge'
      · cases h
        rfl

/-- The value of a number is finite. -/
theorem isFinite_of_toFloat? {n : Number} {x : Float} (h : n.toFloat? = some x) :
    x.isFinite = true := by
  unfold toFloat? at h
  dsimp only at h
  obtain ⟨y, hy, hsign⟩ := Option.map_eq_some_iff.mp h
  have hfinite : y.isFinite = true := isFinite_of_scale (isFinite_ofNat (leadingWord_lt _)) hy
  split at hsign
  · rw [← hsign]
    exact isFinite_neg hfinite
  · exact hsign ▸ hfinite

end Presynth.Json.Number
