import Mathlib

/-!
# Rounding to `binary64`

The operations on `Float` compute a mantissa with an exponent, round it to the nearest number of
the format `binary64`, and to an even mantissa if there are two, and pack it.

* `AtMost b f` — the number `f` is neither infinite nor `NaN`, and its magnitude is at most `b`;
* `atMost_roundWithAccuracy` — rounding does not lead over a bound that is itself a number of the
  format (`Representable`);
* `atMost_unpack_pack`, `unpack_pack_finite` — what packing and unpacking do to a number.
-/

open Float.Model Float.Model.UnpackedFloat

namespace Binary64

/-! ## Mantissas -/

section Mantissa

variable {em : ExtendedMantissa}

/-- The least mantissa that is not below the number with these residual bits. -/
def upper (em : ExtendedMantissa) : ℕ :=
  em.mantissa + if em.roundBit || em.stickyBit then 1 else 0

/-- Rounding does not exceed the next integer. -/
theorem roundedMantissa_le : em.roundedMantissa ≤ upper em := by
  obtain ⟨m, round, sticky⟩ := em
  have hmod := Nat.mod_lt m Nat.two_pos
  cases round <;> cases sticky <;>
    simp [ExtendedMantissa.roundedMantissa, ExtendedMantissa.accuracy, upper,
      Accuracy.roundToNearestEven]
  omega

/-- It does not go below the mantissa. -/
theorem le_roundedMantissa : em.mantissa ≤ em.roundedMantissa := by
  obtain ⟨m, round, sticky⟩ := em
  cases round <;> cases sticky <;>
    simp [ExtendedMantissa.roundedMantissa, ExtendedMantissa.accuracy,
      Accuracy.roundToNearestEven]

/-- The next integer is at most one more. -/
theorem upper_le_succ : upper em ≤ em.mantissa + 1 := by
  unfold upper
  split <;> omega

/-- The upper bound after a bit is dropped, and before. -/
theorem upper_shiftRightOne_le_iff {q : ℕ} :
    upper em.shiftRightOne ≤ q ↔ upper em ≤ q * 2 := by
  obtain ⟨m, round, sticky⟩ := em
  rcases Nat.mod_two_eq_zero_or_one m with hmod | hmod <;> cases round <;> cases sticky <;>
    simp [upper, ExtendedMantissa.shiftRightOne, hmod] <;> omega

/-- A bound on a number is one on the number shifted to the right. -/
theorem upper_shiftRight_le_iff {k q : ℕ} : upper (em >>> k) ≤ q ↔ upper em ≤ q * 2 ^ k := by
  change upper (k.repeat ExtendedMantissa.shiftRightOne em) ≤ q ↔ _
  induction k generalizing q with
  | zero => simp [Nat.repeat]
  | succ k ih => rw [Nat.repeat, upper_shiftRightOne_le_iff, ih, Nat.pow_succ, Nat.mul_assoc,
      Nat.mul_comm 2]

/-- A shift divides the mantissa. -/
theorem mantissa_shiftRight {k : ℕ} : (em >>> k).mantissa = em.mantissa / 2 ^ k := by
  change (k.repeat ExtendedMantissa.shiftRightOne em).mantissa = _
  induction k with
  | zero => simp [Nat.repeat]
  | succ k ih =>
    rw [Nat.repeat, Nat.pow_succ, ← Nat.div_div_eq_div_mul, ← ih]
    rfl

theorem mantissa_ofMantissaAndAccuracy (m : ℕ) (accuracy : Accuracy) :
    (ExtendedMantissa.ofMantissaAndAccuracy m accuracy).mantissa = m := by
  cases accuracy with
  | exact => rfl
  | inexact ordering => cases ordering <;> rfl

end Mantissa

/-! ## Rounding -/

section Rounding

variable {sign : Sign} {m : ℕ} {e : ℤ} {accuracy : Accuracy}

/-- How far the mantissa is shifted. -/
def shift (m : ℕ) (e : ℤ) : ℕ := (max (m.log2 + e - 52) (-1074) - e).toNat

/-- The number of bits that are dropped. -/
theorem toNat_targetExponent_sub (m : ℕ) (e : ℤ) :
    (Format.binary64.targetExponent (totalExponent m e) - e).toNat = shift m e := by
  simp only [Format.targetExponent, totalExponent, Format.mantissaBits, Format.minExponent, shift]
  congr 2
  omega

/-- The mantissa and the exponent after they are dropped. -/
theorem shiftToTargetExponent_eq (m : ℕ) (e : ℤ) (accuracy : Accuracy) :
    shiftToTargetExponent Format.binary64 m e accuracy =
      (ExtendedMantissa.ofMantissaAndAccuracy m accuracy >>> shift m e, e + shift m e) := by
  rw [shiftToTargetExponent, shiftToExponent, toNat_targetExponent_sub]

/-- The exponent is never below the least one. -/
theorem le_add_shift (m : ℕ) (e : ℤ) : -1074 ≤ e + shift m e := by
  unfold shift
  omega

/-- After the shift the mantissa has at most 53 bits. -/
theorem div_two_pow_shift_lt (m : ℕ) (e : ℤ) : m / 2 ^ shift m e < 2 ^ 53 := by
  rw [Nat.div_lt_iff_lt_mul (Nat.two_pow_pos _), ← Nat.pow_add]
  have hlog : m.log2 + 1 ≤ 53 + shift m e := by
    unfold shift
    omega
  exact Nat.lt_log2_self.trans_le (Nat.pow_le_pow_right Nat.two_pos hlog)

/-- The mantissa after the first shift, rounded. -/
def rounded (m : ℕ) (e : ℤ) (accuracy : Accuracy) : ℕ :=
  (ExtendedMantissa.ofMantissaAndAccuracy m accuracy >>> shift m e).roundedMantissa

variable (m e accuracy) in
/-- The mantissa has 53 bits, or is the power of two after them. -/
theorem rounded_le : rounded m e accuracy ≤ 2 ^ 53 := by
  have hlt := div_two_pow_shift_lt m e
  have hle : rounded m e accuracy ≤ _ := roundedMantissa_le.trans upper_le_succ
  rw [mantissa_shiftRight, mantissa_ofMantissaAndAccuracy] at hle
  omega

/-- Rounding does not go below the truncated mantissa. -/
theorem le_rounded : m / 2 ^ shift m e ≤ rounded m e accuracy := by
  have hle : _ ≤ rounded m e accuracy := le_roundedMantissa
  rwa [mantissa_shiftRight, mantissa_ofMantissaAndAccuracy] at hle

/-- A mantissa that fits is not shifted. -/
theorem shift_eq_zero {r : ℕ} (hr : r < 2 ^ 53) (he : -1074 ≤ e) : shift r e = 0 := by
  have hlog : r.log2 ≤ 52 := by
    by_cases hzero : r = 0
    · simp [hzero]
    · exact Nat.le_of_lt_succ ((Nat.log2_lt hzero).mpr hr)
  unfold shift
  omega

/-- A mantissa with an exponent. -/
def ofMantissa (sign : Sign) (m : ℕ) (e : ℤ) : UnpackedFloat :=
  if h : m = 0 then .zero sign else .finite sign m e (Nat.pos_of_ne_zero h)

/-- The second shift only repairs a mantissa that has been rounded up to 54 bits. -/
theorem roundWithAccuracy_eq :
    roundWithAccuracy Format.binary64 sign m e accuracy =
      if rounded m e accuracy < 2 ^ 53 then
        ofMantissa sign (rounded m e accuracy) (e + shift m e)
      else ofMantissa sign (2 ^ 52) (e + shift m e + 1) := by
  have hle := rounded_le m e accuracy
  have he := le_add_shift m e
  have hsecond : roundWithAccuracy Format.binary64 sign m e accuracy =
      ofMantissa sign
        (rounded m e accuracy / 2 ^ shift (rounded m e accuracy) (e + shift m e))
        (e + shift m e + shift (rounded m e accuracy) (e + shift m e)) := by
    rw [roundWithAccuracy]
    simp only [shiftToTargetExponent_eq, mantissa_shiftRight, mantissa_ofMantissaAndAccuracy]
    rfl
  rw [hsecond]
  by_cases hr : rounded m e accuracy < 2 ^ 53
  · rw [if_pos hr, shift_eq_zero hr he, Nat.pow_zero, Nat.div_one, Nat.cast_zero, add_zero]
  · have hmax : rounded m e accuracy = 2 ^ 53 := by omega
    have hshift : shift (2 ^ 53) (e + shift m e) = 1 := by
      unfold shift at he ⊢
      rw [Nat.log2_two_pow]
      omega
    rw [if_neg hr, hmax, hshift]
    rfl

/-- A mantissa that is shifted to 53 bits keeps them. -/
theorem two_pow_le_rounded (hm : m ≠ 0) (hshift : (shift m e : ℤ) = m.log2 - 52) :
    2 ^ 52 ≤ rounded m e accuracy := by
  refine le_trans ?_ le_rounded
  rw [Nat.le_div_iff_mul_le (Nat.two_pow_pos _), ← Nat.pow_add]
  have hbits : 52 + shift m e = m.log2 := by omega
  rw [hbits]
  exact Nat.log2_self_le hm

variable (accuracy) in
/-- A number with enough digits is rounded to one with a mantissa of 53 bits, whatever its sign. -/
theorem exists_roundWithAccuracy (hlog : 52 ≤ m.log2) (he : -1022 ≤ e + m.log2) :
    ∃ r e' hr,
      (∀ sign, roundWithAccuracy Format.binary64 sign m e accuracy = .finite sign r e' hr) ∧
      2 ^ 52 ≤ r ∧ r < 2 ^ 53 ∧ e + m.log2 - 52 ≤ e' ∧ e' ≤ e + m.log2 - 51 := by
  have hshift : (shift m e : ℤ) = m.log2 - 52 := by
    unfold shift
    omega
  have hm : m ≠ 0 := by
    rintro rfl
    simp at hlog
  have hmin : 2 ^ 52 ≤ rounded m e accuracy := two_pow_le_rounded hm hshift
  have hmax := rounded_le m e accuracy
  by_cases hlt : rounded m e accuracy < 2 ^ 53
  · have hpos := Nat.lt_of_lt_of_le (Nat.two_pow_pos 52) hmin
    refine ⟨_, e + shift m e, hpos, fun sign => ?_, hmin, hlt, by omega, by omega⟩
    rw [roundWithAccuracy_eq, if_pos hlt]
    exact dif_neg hpos.ne'
  · refine ⟨2 ^ 52, e + shift m e + 1, Nat.two_pow_pos 52, fun sign => ?_, le_rfl, by norm_num,
      by omega, by omega⟩
    rw [roundWithAccuracy_eq, if_neg hlt]
    rfl

/-! ## Bounds -/

/-- The number is one of the format, up to its sign. -/
def Representable (b : ℚ) : Prop := ∃ (n : ℕ) (k : ℤ), n < 2 ^ 53 ∧ -1074 ≤ k ∧ b = n * 2 ^ k

/-- A number of magnitude at most `b`. -/
def AtMost (b : ℚ) : UnpackedFloat → Prop
  | .zero _ => 0 ≤ b
  | .finite _ m e _ => -1074 ≤ e ∧ m * 2 ^ e ≤ b
  | .infinity _ => False
  | .notANumber => False

/-- A larger bound is a bound, too. -/
theorem AtMost.mono {f : UnpackedFloat} {b c : ℚ} (hle : b ≤ c) (h : AtMost b f) : AtMost c f := by
  cases f with
  | zero => exact le_trans h hle
  | finite sign m e hm => exact ⟨h.1, h.2.trans hle⟩
  | infinity => exact h
  | notANumber => exact h

/-- A bound of an absolute value is not negative. -/
theorem AtMost.nonneg {f : UnpackedFloat} {b : ℚ} (h : AtMost b f) : 0 ≤ b := by
  cases f with
  | zero => exact h
  | finite sign m e hm => exact (mul_nonneg (Nat.cast_nonneg m) (zpow_pos two_pos e).le).trans h.2
  | infinity => exact h.elim
  | notANumber => exact h.elim

theorem two_zpow_pos (e : ℤ) : (0 : ℚ) < 2 ^ e := zpow_pos two_pos e

/-- Powers of two with a negative exponent can be added up, too. -/
theorem two_zpow_add_natCast (e : ℤ) (k : ℕ) : (2 : ℚ) ^ (e + k) = 2 ^ e * (2 ^ k : ℕ) := by
  rw [zpow_add₀ two_ne_zero, zpow_natCast]
  push_cast
  rfl

/-- A bound of the exact value is one of the number. -/
theorem atMost_ofMantissa {b : ℚ} (he : -1074 ≤ e) (hle : (m : ℚ) * 2 ^ e ≤ b) :
    AtMost b (ofMantissa sign m e) := by
  unfold ofMantissa
  split
  · next hzero =>
    rw [hzero, Nat.cast_zero, zero_mul] at hle
    exact hle
  · exact ⟨he, hle⟩

/-- The result of rounding has this value. -/
theorem atMost_of_rounded {b : ℚ}
    (hle : (rounded m e accuracy : ℚ) * 2 ^ (e + shift m e) ≤ b) :
    AtMost b (roundWithAccuracy Format.binary64 sign m e accuracy) := by
  have he := le_add_shift m e
  have hmax := rounded_le m e accuracy
  rw [roundWithAccuracy_eq]
  split
  · exact atMost_ofMantissa he hle
  · -- the mantissa has been halved
    next hlarge =>
    have hr : rounded m e accuracy = 2 ^ 53 := by omega
    refine atMost_ofMantissa (by omega) (le_trans (le_of_eq ?_) hle)
    rw [hr, zpow_add₀ two_ne_zero]
    push_cast
    ring

/-- A number whose mantissa must be shifted although its exponent is not too small is large. -/
theorem two_zpow_le_of_shift_pos (hpos : 0 < shift m e) (he : -1074 < e + shift m e) :
    (2 : ℚ) ^ (e + shift m e + 52) ≤ m * 2 ^ e := by
  have hlog : e + shift m e + 52 = e + (m.log2 : ℕ) := by
    unfold shift at hpos he ⊢
    omega
  have hm : m ≠ 0 := by
    rintro rfl
    simp only [Nat.log2_zero] at hlog
    omega
  have hle : ((2 ^ m.log2 : ℕ) : ℚ) ≤ m := Nat.cast_le.mpr (Nat.log2_self_le hm)
  rw [hlog, two_zpow_add_natCast, mul_comm]
  exact mul_le_mul_of_nonneg_right hle (two_zpow_pos e).le

/-- The upper bound is one of the mantissa. -/
theorem le_upper (m : ℕ) (accuracy : Accuracy) :
    m ≤ upper (ExtendedMantissa.ofMantissaAndAccuracy m accuracy) := by
  conv_lhs => rw [← mantissa_ofMantissaAndAccuracy m accuracy]
  exact Nat.le_add_right _ _

/-- A number of the format with a smaller last place is smaller than `2 ^ (e + 52)`. -/
theorem mul_two_zpow_lt {n : ℕ} {k : ℤ} (hn : n < 2 ^ 53) (hk : k < e) :
    (n : ℚ) * 2 ^ k < 2 ^ (e + 52) := by
  have hlt : (n : ℚ) < (2 ^ 53 : ℕ) := Nat.cast_lt.mpr hn
  calc (n : ℚ) * 2 ^ k < (2 ^ 53 : ℕ) * 2 ^ k := mul_lt_mul_of_pos_right hlt (two_zpow_pos k)
    _ = 2 ^ (k + (53 : ℕ)) := by rw [two_zpow_add_natCast, mul_comm]
    _ ≤ 2 ^ (e + 52) := zpow_le_zpow_right₀ one_le_two (by push_cast; omega)

/-- Rounding does not lead over a number of the format. -/
theorem atMost_roundWithAccuracy {b : ℚ} (hb : Representable b)
    (hle : (upper (ExtendedMantissa.ofMantissaAndAccuracy m accuracy) : ℚ) * 2 ^ e ≤ b) :
    AtMost b (roundWithAccuracy Format.binary64 sign m e accuracy) := by
  obtain ⟨n, k, hn, hk, rfl⟩ := hb
  apply atMost_of_rounded
  have hround : rounded m e accuracy ≤
      upper (ExtendedMantissa.ofMantissaAndAccuracy m accuracy >>> shift m e) := roundedMantissa_le
  have hupper := le_upper m accuracy
  generalize ExtendedMantissa.ofMantissaAndAccuracy m accuracy = em at hle hround hupper
  rcases le_or_gt (e + shift m e) k with hfine | hcoarse
  · -- the bound is a multiple of the last place
    obtain ⟨j, hj⟩ := Int.le.dest hfine
    have hbound : (n : ℚ) * 2 ^ k = (n * 2 ^ j : ℕ) * 2 ^ (e + shift m e) := by
      rw [← hj, two_zpow_add_natCast]
      push_cast
      ring
    rw [hbound] at hle ⊢
    rw [two_zpow_add_natCast, mul_comm (2 ^ e), ← mul_assoc,
      mul_le_mul_iff_of_pos_right (two_zpow_pos e), ← Nat.cast_mul, Nat.cast_le,
      ← upper_shiftRight_le_iff] at hle
    exact mul_le_mul_of_nonneg_right (Nat.cast_le.mpr (hround.trans hle)) (two_zpow_pos _).le
  · rcases Nat.eq_zero_or_pos (shift m e) with hzero | hpos
    · -- the mantissa is not shifted
      rw [hzero, Nat.cast_zero, add_zero]
      rw [hzero] at hround
      exact (mul_le_mul_of_nonneg_right (Nat.cast_le.mpr hround) (two_zpow_pos e).le).trans hle
    · -- the number would be larger than the bound
      have hlarge := two_zpow_le_of_shift_pos hpos (hk.trans_lt hcoarse)
      have hsmall := mul_two_zpow_lt hn hcoarse
      have hmantissa := mul_le_mul_of_nonneg_right (Nat.cast_le (α := ℚ).mpr hupper)
        (two_zpow_pos e).le
      linarith

end Rounding

/-! ## Packing -/

section Packing

variable {sign : Sign} {m : ℕ} {e : ℤ}

/-- Zero and the numbers with the smallest exponent. -/
theorem unpack_packComponents_zero (mantissa : BitVec 52) :
    unpack Format.binary64 (packComponents Format.binary64 sign 0#11 mantissa) =
      ofMantissa sign mantissa.toNat (-1074) := by
  unfold UnpackedFloat.unpack ofMantissa
  simp only [unpackExponent_packComponents, unpackMantissa_packComponents,
    unpackSign_packComponents, Sign.ofBitVec_toBitVec]
  by_cases hzero : mantissa = 0#52
  · simp [hzero]
  · have hne : mantissa.toNat ≠ 0 := fun h => hzero (BitVec.eq_of_toNat_eq h)
    simp only [hzero, hne, dite_false]
    rfl

/-- The other numbers. -/
theorem unpack_packComponents {exponent : ℕ} (hpos : 0 < exponent) (hlt : exponent < 2047)
    (hmin : 2 ^ 52 ≤ m) (hmax : m < 2 ^ 53) :
    unpack Format.binary64 (packComponents Format.binary64 sign (BitVec.ofNat 11 exponent)
        (BitVec.ofNat 52 m)) =
      .finite sign m (exponent - 1075) (Nat.lt_of_lt_of_le (Nat.two_pow_pos 52) hmin) := by
  have hexponent : (BitVec.ofNat 11 exponent).toNat = exponent := by
    rw [BitVec.toNat_ofNat, Nat.mod_eq_of_lt (by omega)]
  have hzero : BitVec.ofNat 11 exponent ≠ 0#11 :=
    fun h => hpos.ne' (hexponent.symm.trans (congrArg BitVec.toNat h))
  have hone : BitVec.ofNat 11 exponent ≠ -1#11 :=
    fun h => hlt.ne (hexponent.symm.trans (congrArg BitVec.toNat h))
  have hmantissa : (1#1 ++ BitVec.ofNat 52 m).toNat = m := by
    rw [BitVec.toNat_append, ← Nat.shiftLeft_add_eq_or_of_lt (BitVec.isLt _), BitVec.toNat_ofNat,
      Nat.shiftLeft_eq]
    simp only [BitVec.toNat_ofNat]
    omega
  unfold UnpackedFloat.unpack
  simp only [unpackExponent_packComponents, unpackMantissa_packComponents,
    unpackSign_packComponents, Sign.ofBitVec_toBitVec]
  simp only [hone, hzero, hexponent, hmantissa, if_false]
  rfl

/-- The bits of a normal number, and of one below all of these. -/
theorem pack_finite {hm : 0 < m} (he : -1074 ≤ e) (hlt : e < 972) :
    pack Format.binary64 (.finite sign m e hm) =
      if m.log2 + 1 = 53 then
        packComponents Format.binary64 sign (BitVec.ofNat 11 (e + 1075).toNat) (BitVec.ofNat 52 m)
      else packComponents Format.binary64 sign 0#11 (BitVec.ofNat 52 m) := by
  have hbias :
      (e + Format.binary64.exponentBias + Format.binary64.mantissaBitsWithoutImplicit).toNat =
        (e + 1075).toNat := by
    simp only [Format.exponentBias]
    omega
  rw [UnpackedFloat.pack]
  simp only [hbias]
  rw [if_neg (by omega)]
  rfl

/-- A mantissa with an implicit bit is packed and unpacked without a loss. -/
theorem unpack_pack_of_normal {hm : 0 < m} (he : -1074 ≤ e) (hlt : e < 972) (hmin : 2 ^ 52 ≤ m)
    (hmax : m < 2 ^ 53) :
    unpack Format.binary64 (pack Format.binary64 (.finite sign m e hm)) = .finite sign m e hm := by
  have hlog : m.log2 + 1 = 53 := by
    rw [(Nat.log2_eq_iff hm.ne').mpr ⟨hmin, hmax⟩]
  rw [pack_finite he hlt, if_pos hlog, unpack_packComponents (by omega) (by omega) hmin hmax]
  congr 1
  omega

/-- A number that is not too large is packed and unpacked without a loss if its mantissa has an
implicit bit, and otherwise as one with the smallest exponent. -/
theorem unpack_pack_finite {hm : 0 < m} (he : -1074 ≤ e) (hlt : e < 972) :
    unpack Format.binary64 (pack Format.binary64 (.finite sign m e hm)) =
      if m.log2 + 1 = 53 then .finite sign m e hm else ofMantissa sign (m % 2 ^ 52) (-1074) := by
  by_cases hlog : m.log2 + 1 = 53
  · obtain ⟨hmin, hmax⟩ := (Nat.log2_eq_iff hm.ne').mp (Nat.add_right_cancel hlog)
    rw [unpack_pack_of_normal he hlt hmin hmax, if_pos hlog]
  · rw [pack_finite he hlt, if_neg hlog, unpack_packComponents_zero, BitVec.toNat_ofNat,
      if_neg hlog]

/-- Zero keeps its sign. -/
theorem unpack_pack_zero (sign : Sign) :
    unpack Format.binary64 (pack Format.binary64 (.zero sign)) = .zero sign := by
  rw [UnpackedFloat.pack, unpack_packedZero]

/-- The exponent of a number that is not too large. -/
theorem AtMost.exponent_lt {b : ℚ} {hm : 0 < m} (hb : b < 2 ^ (972 : ℤ))
    (h : AtMost b (.finite sign m e hm)) : e < 972 := by
  have hone : (1 : ℚ) ≤ m := Nat.one_le_cast.mpr hm
  have hpow : (2 : ℚ) ^ e < 2 ^ (972 : ℤ) :=
    ((le_mul_of_one_le_left (two_zpow_pos e).le hone).trans h.2).trans_lt hb
  exact (zpow_lt_zpow_iff_right₀ one_lt_two).mp hpow

/-- Packing and unpacking keep a bound. -/
theorem atMost_unpack_pack {f : UnpackedFloat} {b : ℚ} (hb : b < 2 ^ (972 : ℤ))
    (h : AtMost b f) : AtMost b (unpack Format.binary64 (pack Format.binary64 f)) := by
  cases f with
  | infinity => exact h.elim
  | notANumber => exact h.elim
  | zero sign => rwa [unpack_pack_zero]
  | finite sign m e hm =>
    rw [unpack_pack_finite h.1 (h.exponent_lt hb)]
    split
    · exact h
    · -- what is lost makes the number smaller
      have hmod : ((m % 2 ^ 52 : ℕ) : ℚ) ≤ m := Nat.cast_le.mpr (Nat.mod_le m _)
      apply atMost_ofMantissa le_rfl
      exact (mul_le_mul hmod (zpow_le_zpow_right₀ one_le_two h.1) (two_zpow_pos _).le
        (Nat.cast_nonneg m)).trans h.2

end Packing

end Binary64
