import Presynth.Proofs.Numbers.RoundedSum
/-!
# Undefined doubles

A double can be undefined. Every comparison with it fails, so that a check which refuses what is at
most zero lets it pass. Differences and quotients are defined where no infinity meets another and no
zero divides a zero, also where they are too large or too small for a finite double; then what is
not at most zero is above it.

Main statements: `isNaN_sub_eq_false`, `isNaN_div_eq_false` and `not_le_zero_iff`.
-/

namespace Presynth.Double

open Float.Model Float.Model.UnpackedFloat

/-! ### Packing and rounding -/

/-- No pattern with an exponent below the greatest is undefined. -/
theorem unpack_packComponents_ne_notANumber (s : Sign) {e : BitVec 11} (m : BitVec 52)
    (he : e ≠ -1#11) :
    UnpackedFloat.unpack .binary64 (packComponents .binary64 s e m) ≠ .notANumber := by
  rw [unpack_packComponents, if_neg he]
  split
  · split
    · simp
    · simp
  · simp

/-- What is defined stays so when it is packed. -/
theorem unpack_pack_ne_notANumber {u : UnpackedFloat} (hu : u ≠ .notANumber) :
    (Float.Model.pack u).unpack ≠ .notANumber := by
  have hinfinity : ∀ s, UnpackedFloat.unpack .binary64 (packedInfinity .binary64 s) ≠
      .notANumber := by
    intro s
    rw [packedInfinity, unpack_packComponents, if_pos rfl]
    simp
  show UnpackedFloat.unpack .binary64 (UnpackedFloat.pack .binary64 u) ≠ .notANumber
  cases u with
  | notANumber => exact absurd rfl hu
  | infinity s => exact hinfinity s
  | zero s => exact unpack_packComponents_ne_notANumber s 0#52 (by decide)
  | finite s m e hm =>
      unfold UnpackedFloat.pack
      dsimp only
      split
      · exact hinfinity s
      · rename_i hsmall
        split
        · -- an exponent of all ones would have overflowed
          refine unpack_packComponents_ne_notANumber s _ fun h => hsmall ?_
          have hexp := congrArg BitVec.toNat h
          rw [BitVec.toNat_ofNat] at hexp
          change _ % 2 ^ 11 = 2047 at hexp
          change 2 ^ 11 ≤ _
          omega
        · exact unpack_packComponents_ne_notANumber s _ (by decide)

theorem roundWithAccuracy_ne_notANumber (s : Sign) (m : Nat) (e : Int) (acc : Accuracy) :
    roundWithAccuracy .binary64 s m e acc ≠ .notANumber := by
  unfold roundWithAccuracy
  dsimp only
  split
  · simp
  · simp

theorem normalize_ne_notANumber (m : Int) (e : Int) (s : Sign) :
    UnpackedFloat.normalize .binary64 m e s ≠ .notANumber := by
  unfold UnpackedFloat.normalize
  split
  · exact roundWithAccuracy_ne_notANumber _ _ _ _
  · simp
  · exact roundWithAccuracy_ne_notANumber _ _ _ _

/-! ### Differences and quotients -/

theorem isNaN_eq_false_iff {x : Float} : x.isNaN = false ↔ x.toModel.unpack ≠ .notANumber := by
  show x.toModel.unpack.isNaN = false ↔ _
  cases x.toModel.unpack <;> simp [UnpackedFloat.isNaN]

theorem isNaN_eq_false_of_isFinite {x : Float} (h : x.isFinite = true) : x.isNaN = false := by
  have hfinite : x.toModel.unpack.isFinite = true := h
  rw [isNaN_eq_false_iff]
  intro hu
  simp [hu, UnpackedFloat.isFinite] at hfinite

/-- A difference is defined if what is taken away is finite. -/
theorem isNaN_sub_eq_false {x y : Float} (hx : x.isNaN = false) (hy : y.isFinite = true) :
    (x - y).isNaN = false := by
  rw [isNaN_eq_false_iff] at hx ⊢
  have hfinite : y.toModel.unpack.isFinite = true := hy
  show (Float.Model.pack
    (UnpackedFloat.sub .binary64 x.toModel.unpack y.toModel.unpack)).unpack ≠ _
  refine unpack_pack_ne_notANumber ?_
  generalize x.toModel.unpack = u, y.toModel.unpack = v at hx hfinite
  -- two infinities of one sign are the only difference that is not defined
  cases v with
  | notANumber => simp [UnpackedFloat.isFinite] at hfinite
  | infinity s => simp [UnpackedFloat.isFinite] at hfinite
  | zero s =>
      cases u with
      | notANumber => exact absurd rfl hx
      | zero s' =>
          show (if s' == -s then UnpackedFloat.zero s' else .zero .positive) ≠ .notANumber
          split
          · simp
          · simp
      | _ => simp [UnpackedFloat.sub]
  | finite s m e hm =>
      cases u with
      | notANumber => exact absurd rfl hx
      | finite s' m' e' hm' => exact normalize_ne_notANumber _ _ _
      | _ => simp [UnpackedFloat.sub]

theorem lt_iff {x y : Float} : x < y ↔ x.toModel.unpack.lt y.toModel.unpack = true := by
  show decide (x.toModel < y.toModel) = true ↔ _
  rw [decide_eq_true_iff]
  rfl

/-- A quotient is defined if the dividend is finite and the divisor positive. -/
theorem isNaN_div_eq_false {x y : Float} (hx : x.isFinite = true) (hy : 0 < y) :
    (x / y).isNaN = false := by
  rw [isNaN_eq_false_iff]
  have hfinite : x.toModel.unpack.isFinite = true := hx
  have hpos : (UnpackedFloat.zero .positive).lt y.toModel.unpack = true := lt_iff.mp hy
  show (Float.Model.pack
    (UnpackedFloat.div .binary64 x.toModel.unpack y.toModel.unpack)).unpack ≠ _
  refine unpack_pack_ne_notANumber ?_
  generalize x.toModel.unpack = u, y.toModel.unpack = v at hfinite hpos
  -- infinities by infinities and zeros by zeros are the quotients that are not defined
  cases v with
  | notANumber => simp [UnpackedFloat.lt, UnpackedFloat.compare] at hpos
  | zero s => simp [UnpackedFloat.lt, UnpackedFloat.compare] at hpos
  | infinity s =>
      cases u with
      | notANumber => simp [UnpackedFloat.isFinite] at hfinite
      | infinity s' => simp [UnpackedFloat.isFinite] at hfinite
      | _ => simp [UnpackedFloat.div]
  | finite s m e hm =>
      cases u with
      | notANumber => simp [UnpackedFloat.isFinite] at hfinite
      | finite s' m' e' hm' => exact roundWithAccuracy_ne_notANumber _ _ _ _
      | _ => simp [UnpackedFloat.div]

/-! ### Signs -/

/-- What is defined is at most zero or above it. -/
theorem not_le_zero_iff {x : Float} (hx : x.isNaN = false) : ¬ x ≤ 0 ↔ 0 < x := by
  rw [isNaN_eq_false_iff] at hx
  rw [le_iff, lt_iff]
  show ¬ x.toModel.unpack.le (.zero .positive) = true ↔
    (UnpackedFloat.zero .positive).lt x.toModel.unpack = true
  generalize x.toModel.unpack = u at hx
  cases u with
  | notANumber => exact absurd rfl hx
  | zero s => simp [UnpackedFloat.le, UnpackedFloat.lt, UnpackedFloat.compare]
  | infinity s => cases s <;> simp [UnpackedFloat.le, UnpackedFloat.lt, UnpackedFloat.compare]
  | finite s m e hm =>
      cases s <;> simp [UnpackedFloat.le, UnpackedFloat.lt, UnpackedFloat.compare]

/-- What is at least zero is not below zero, neither for an infinity nor for the negative zero. -/
theorem not_lt_zero_of_nonneg {x : Float} (h : 0 ≤ x) : ¬ x < 0 := by
  rw [zero_le_iff] at h
  rw [lt_iff]
  show ¬ x.toModel.unpack.lt (.zero .positive) = true
  generalize x.toModel.unpack = u at h
  cases u with
  | notANumber => exact absurd h id
  | zero s => simp [UnpackedFloat.lt, UnpackedFloat.compare]
  | infinity s =>
      obtain rfl : s = .positive := h
      simp [UnpackedFloat.lt, UnpackedFloat.compare]
  | finite s m e hm =>
      obtain rfl : s = .positive := h
      simp [UnpackedFloat.lt, UnpackedFloat.compare]

end Presynth.Double
