import Mathlib

/-!
# Numbers that equal themselves

A floating-point number that is no NaN equals itself (`beq_self_of_not_isNaN`), and so does what an
integer leaf is widened to, for that is finite (`isFinite_ofInt`). The bounds are coarse: a small
mantissa and exponent stay small when they are rounded, and what is small can be stored.
-/

namespace GraphQL.Numbers

open Float.Model (Format UnpackedFloat totalExponent)
open Float.Model.UnpackedFloat

theorem beq_self_of_not_isNaN {x : Float} (h : x.isNaN = false) : (x == x) = true := by
  change (x.toModel.unpack.compare x.toModel.unpack == some .eq) = true
  change x.toModel.unpack.isNaN = false at h
  cases hx : x.toModel.unpack with
  | notANumber =>
    rw [hx] at h
    nomatch h
  | infinity sign => cases sign <;> rfl
  | zero sign => rfl
  | finite sign m e hm => cases sign <;> simp [UnpackedFloat.compare]

theorem not_isNaN_of_isFinite {x : Float} (h : x.isFinite = true) : x.isNaN = false := by
  change x.toModel.unpack.isFinite = true at h
  change x.toModel.unpack.isNaN = false
  cases hx : x.toModel.unpack with
  | notANumber =>
    rw [hx] at h
    nomatch h
  | _ => rfl

/-! ## Exponents stay small -/

/-- Zero, or a number whose exponent is at most the bound. -/
def ExponentLe (bound : Int) : UnpackedFloat → Prop
  | .zero _ => True
  | .finite _ _ e _ => e ≤ bound
  | _ => False

theorem mantissa_shiftRight_le (em : ExtendedMantissa) (k : Nat) :
    (em >>> k).mantissa ≤ em.mantissa := by
  induction k with
  | zero => exact Nat.le_refl _
  | succ k ih =>
    change (em >>> k).mantissa / 2 ≤ em.mantissa
    omega

theorem roundedMantissa_le (em : ExtendedMantissa) : em.roundedMantissa ≤ em.mantissa + 1 := by
  obtain ⟨m, roundBit, stickyBit⟩ := em
  cases roundBit <;> cases stickyBit <;>
    simp only [ExtendedMantissa.roundedMantissa, ExtendedMantissa.accuracy,
      Accuracy.roundToNearestEven] <;> omega

/-- Shifting to the target exponent adds at most the length of the mantissa to the exponent. -/
theorem shiftToTargetExponent_le {m a : Nat} {e bound : Int} (hm : m.log2 ≤ a) (he : e ≤ bound)
    (hb : 0 ≤ bound) :
    (shiftToTargetExponent Format.binary64 m e .exact).1.mantissa ≤ m ∧
      (shiftToTargetExponent Format.binary64 m e .exact).2 ≤ bound + a := by
  constructor
  · exact mantissa_shiftRight_le ..
  · simp only [shiftToTargetExponent, shiftToExponent, Format.targetExponent, totalExponent,
      Format.mantissaBits, Format.minExponent]
    omega

theorem log2_le_of_lt {m a : Nat} (h : m < 2 ^ (a + 1)) : m.log2 ≤ a := by
  by_cases hm : m = 0
  · simp [hm]
  · have := (Nat.log2_lt hm).2 h
    omega

theorem exponentLe_roundWithAccuracy (sign : Sign) {m a : Nat} {e bound : Int}
    (hm : m < 2 ^ a) (he : e ≤ bound) (hb : 0 ≤ bound) :
    ExponentLe (bound + a + a) (roundWithAccuracy Format.binary64 sign m e .exact) := by
  have ha : m.log2 ≤ a := log2_le_of_lt (hm.trans (Nat.pow_lt_pow_right (by omega) (by omega)))
  obtain ⟨hm₁, he₁⟩ := shiftToTargetExponent_le ha he hb
  unfold roundWithAccuracy
  generalize shiftToTargetExponent Format.binary64 m e .exact = first at hm₁ he₁ ⊢
  obtain ⟨em, e₁⟩ := first
  dsimp only at hm₁ he₁ ⊢
  have hr : em.roundedMantissa.log2 ≤ a := by
    have := roundedMantissa_le em
    have hpow : 2 ^ a < 2 ^ (a + 1) := Nat.pow_lt_pow_right (by omega) (by omega)
    exact log2_le_of_lt (by omega)
  obtain ⟨-, he₂⟩ := shiftToTargetExponent_le hr he₁ (by omega)
  split
  · trivial
  · exact he₂

/-- What is stored with a small exponent is read with one. -/
theorem exponentLe_unpack {b : BitVec Format.binary64.numBits} {bound : Int}
    (hb : 0 ≤ bound) (hn : unpackExponent b ≠ -1#_)
    (he : ((unpackExponent b).toNat : Int) ≤ bound + 1075) :
    ExponentLe bound (unpack Format.binary64 b) := by
  unfold unpack
  dsimp only
  rw [if_neg hn]
  split
  · next hz =>
    split
    · trivial
    · simp only [ExponentLe, hz, Format.exponentBias]
      simp
      omega
  · simp only [ExponentLe, Format.exponentBias]
    simp
    omega

/-- What is small can be stored. -/
theorem exponentLe_unpack_pack {u : UnpackedFloat} {bound : Int} (h : ExponentLe bound u)
    (hb : 0 ≤ bound) (hb' : bound ≤ 900) :
    ExponentLe bound (unpack Format.binary64 (pack Format.binary64 u)) := by
  cases u with
  | notANumber => exact h.elim
  | infinity sign => exact h.elim
  | zero sign =>
    apply exponentLe_unpack hb
    · simp [pack, packedZero]
    · simp [pack, packedZero]
      omega
  | finite sign m e hm =>
    have he : e ≤ bound := h
    have hbias : Format.binary64.exponentBias = 1023 := rfl
    have hbits : Format.binary64.mantissaBitsWithoutImplicit = 52 := rfl
    have hsmall : ¬ 2 ^ Format.binary64.exponentBits ≤
        (e + Format.binary64.exponentBias + Format.binary64.mantissaBitsWithoutImplicit).toNat +
          1 := by
      rw [hbias, hbits]
      norm_num
      omega
    rw [pack, if_neg hsmall]
    by_cases hnormal : m.log2 + 1 = Format.binary64.mantissaBits
    · rw [if_pos hnormal]
      apply exponentLe_unpack hb
      · rw [unpackExponent_packComponents, hbias, hbits]
        intro hones
        have := congrArg BitVec.toNat hones
        simp at this
        omega
      · rw [unpackExponent_packComponents, hbias, hbits]
        simp
        omega
    · rw [if_neg hnormal]
      apply exponentLe_unpack hb
      · simp
      · simp
        omega

theorem mantissa_unpack_lt {b : BitVec Format.binary64.numBits} {sign : Sign} {m : Nat} {e : Int}
    {hm : 0 < m} (h : unpack Format.binary64 b = .finite sign m e hm) : m < 2 ^ 53 := by
  unfold unpack at h
  dsimp only at h
  split at h
  · split at h <;> nomatch h
  · split at h
    · split at h
      · nomatch h
      · simp only [finite.injEq] at h
        have := (unpackMantissa b).isLt
        simp at this
        omega
    · simp only [finite.injEq] at h
      have := (1#1 ++ unpackMantissa b).isLt
      simp at this
      omega

/-! ## Integers are finite numbers -/

theorem isFinite_of_exponentLe {x : Float} {bound : Int}
    (h : ExponentLe bound x.toModel.unpack) : x.isFinite = true := by
  change x.toModel.unpack.isFinite = true
  cases hx : x.toModel.unpack with
  | notANumber =>
    rw [hx] at h
    exact h.elim
  | infinity sign =>
    rw [hx] at h
    exact h.elim
  | _ => rfl

/-- Rounding a natural number of 32 bits gives a small exponent. -/
theorem exponentLe_round (sign : Sign) {n : Nat} (h : n < 2 ^ 32) :
    ExponentLe 168 (UnpackedFloat.round Format.binary64 sign n 0) := by
  unfold UnpackedFloat.round decreaseExponent
  dsimp only
  generalize hs : ((0 : Int) - Format.binary64.targetExponent (totalExponent n 0)).toNat = shift
  have hshift : shift ≤ 52 := by
    simp only [Format.targetExponent, totalExponent, Format.mantissaBits, Format.minExponent] at hs
    omega
  have hm : n <<< shift < 2 ^ 84 := by
    rw [Nat.shiftLeft_eq]
    calc n * 2 ^ shift < 2 ^ 32 * 2 ^ shift := Nat.mul_lt_mul_of_pos_right h (Nat.two_pow_pos _)
      _ ≤ 2 ^ 32 * 2 ^ 52 := Nat.mul_le_mul_left _ (Nat.pow_le_pow_right (by omega) hshift)
      _ = 2 ^ 84 := by norm_num
  exact exponentLe_roundWithAccuracy sign hm (by omega) (Int.le_refl 0)

theorem exponentLe_ofNat {n : Nat} (h : n < 2 ^ 32) :
    ExponentLe 168 (UnpackedFloat.ofNat Format.binary64 n) := by
  unfold UnpackedFloat.ofNat UnpackedFloat.ofInt UnpackedFloat.normalize
  split
  · exact exponentLe_round _ (by omega)
  · trivial
  · exact exponentLe_round _ (by omega)

/-- Multiplying by one leaves the exponent small. -/
theorem exponentLe_mul {u v : UnpackedFloat} (hu : ExponentLe 168 u) (hv : ExponentLe 168 v)
    (hm : ∀ sign m e h, u = .finite sign m e h → m < 2 ^ 53)
    (hm' : ∀ sign m e h, v = .finite sign m e h → m < 2 ^ 53) :
    ExponentLe 548 (UnpackedFloat.mul Format.binary64 u v) := by
  cases u with
  | notANumber => exact hu.elim
  | infinity sign => exact hu.elim
  | zero sign =>
    cases v with
    | notANumber => exact hv.elim
    | infinity sign => exact hv.elim
    | _ => trivial
  | finite sign m e h =>
    cases v with
    | notANumber => exact hv.elim
    | infinity sign => exact hv.elim
    | zero sign => trivial
    | finite sign' m' e' h' =>
      have he : e ≤ 168 := hu
      have he' : e' ≤ 168 := hv
      have hprod : m * m' < 2 ^ 106 := by
        calc m * m' < 2 ^ 53 * 2 ^ 53 :=
              Nat.mul_lt_mul'' (hm _ _ _ _ rfl) (hm' _ _ _ _ rfl)
          _ = 2 ^ 106 := by norm_num
      have hbound := exponentLe_roundWithAccuracy (sign * sign') hprod
        (Int.add_le_add he he') (by norm_num)
      exact hbound

theorem exponentLe_neg {u : UnpackedFloat} {bound : Int} (h : ExponentLe bound u) :
    ExponentLe bound u.neg := by
  cases u with
  | notANumber => exact h.elim
  | infinity sign => exact h.elim
  | _ => exact h

/-- The number one, as the bits of it are stored. -/
theorem exponentLe_one : ExponentLe 168 (Float.ofBits 0x3FF0000000000000).toModel.unpack := by
  apply exponentLe_unpack_pack _ (by omega) (by omega)
  apply exponentLe_unpack (by omega)
  · decide
  · decide

theorem exponentLe_ofNat_float {n : Nat} (h : n < 2 ^ 32) :
    ExponentLe 548 (Float.ofNat n).toModel.unpack := by
  have hfast : n < 2 ^ 53 ∧ 0 ≤ 22 := by omega
  have heq : Float.ofNat n = n.toUInt64.toFloat * Float.ofBits 0x3FF0000000000000 := by
    change Float.ofScientific n false 0 = _
    rw [Float.ofScientific, dif_pos hfast]
    rfl
  have hn : n.toUInt64.toNat < 2 ^ 32 := by
    have : n.toUInt64.toNat = n % 2 ^ 64 := rfl
    omega
  have hfactor : ExponentLe 168 n.toUInt64.toFloat.toModel.unpack :=
    exponentLe_unpack_pack (exponentLe_ofNat hn) (by omega) (by omega)
  rw [heq]
  apply exponentLe_unpack_pack _ (by omega) (by omega)
  refine exponentLe_mul hfactor exponentLe_one ?_ ?_
  · intro sign m e h hu
    exact mantissa_unpack_lt hu
  · intro sign m e h hv
    exact mantissa_unpack_lt hv

/-- **An integer leaf is widened to a finite number.** -/
theorem isFinite_ofInt (i : Int32) : (Float.ofInt i.toInt).isFinite = true := by
  have hlt := i.toInt_lt
  have hge := i.le_toInt
  cases hi : i.toInt with
  | ofNat n =>
    have hn : n < 2 ^ 32 := by
      rw [hi, Int.ofNat_eq_natCast] at hlt
      omega
    exact isFinite_of_exponentLe (exponentLe_ofNat_float hn)
  | negSucc n =>
    have hn : n + 1 < 2 ^ 32 := by omega
    have hneg := exponentLe_neg (exponentLe_ofNat_float hn)
    have hstored := exponentLe_unpack_pack hneg (by omega) (by omega)
    change (Float.neg (Float.ofNat (n + 1))).isFinite = true
    exact isFinite_of_exponentLe hstored

end GraphQL.Numbers
