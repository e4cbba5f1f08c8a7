import StateTableBench.Arithmetic.Rounding

/-!
# Arithmetic on `double`

A `double` is a `Float`. An operation keeps a bound that its exact result keeps, if the bound is a
number of the format (`AtMost.add`, `AtMost.sub`, `AtMost.mul`, `AtMost.div`, `AtMost.sqrt`). In
particular its result is neither infinite nor `NaN`.
-/

open Float.Model Float.Model.UnpackedFloat

namespace Binary64

/-! ## Operations on unpacked numbers -/

section Unpacked

variable {f g : UnpackedFloat} {a b c : ℚ} {sign : Sign} {m : ℕ} {e : ℤ}

/-- Decreasing the exponent does not change the number. -/
theorem decreaseExponent_eq (m : ℕ) (e target : ℤ) :
    ((decreaseExponent m e target).1 : ℚ) * 2 ^ (decreaseExponent m e target).2 = m * 2 ^ e := by
  have hexponent : e = e - ((e - target).toNat : ℤ) + ((e - target).toNat : ℕ) := by omega
  rw [decreaseExponent]
  simp only [Nat.shiftLeft_eq]
  conv_rhs => rw [hexponent, two_zpow_add_natCast]
  push_cast
  ring

/-- The exponent becomes the target, unless it is smaller already. -/
theorem decreaseExponent_snd {target : ℤ} (hle : target ≤ e) :
    (decreaseExponent m e target).2 = target := by
  rw [decreaseExponent]
  simp only
  omega

/-- Rounding does not exceed a representable bound. -/
theorem atMost_round (hb : Representable b) (hle : (m : ℚ) * 2 ^ e ≤ b) :
    AtMost b (UnpackedFloat.round Format.binary64 sign m e) := by
  rw [← decreaseExponent_eq m e (Format.binary64.targetExponent (totalExponent m e))] at hle
  exact atMost_roundWithAccuracy hb hle

/-- Nor does the rounding of a mantissa with a sign. -/
theorem atMost_normalize {mantissa : ℤ} {zeroSign : Sign} (hb : Representable b)
    (hle : |(mantissa : ℚ)| * 2 ^ e ≤ b) :
    AtMost b (UnpackedFloat.normalize Format.binary64 mantissa e zeroSign) := by
  rw [UnpackedFloat.normalize]
  rcases lt_trichotomy mantissa 0 with hneg | rfl | hpos
  · rw [compare_lt_iff_lt.mpr hneg]
    apply atMost_round hb
    have hnat : (((-mantissa).toNat : ℕ) : ℚ) = |(mantissa : ℚ)| := by
      rw [abs_of_neg (Int.cast_lt_zero.mpr hneg), ← Int.cast_natCast,
        Int.toNat_of_nonneg (by omega), Int.cast_neg]
    rwa [hnat]
  · rw [Int.cast_zero, abs_zero, zero_mul] at hle
    exact hle
  · rw [compare_gt_iff_gt.mpr hpos]
    apply atMost_round hb
    have hnat : ((mantissa.toNat : ℕ) : ℚ) = |(mantissa : ℚ)| := by
      rw [abs_of_pos (Int.cast_pos.mpr hpos), ← Int.cast_natCast, Int.toNat_of_nonneg hpos.le]
    rwa [hnat]

/-- A sign does not change the absolute value. -/
theorem abs_apply (sign : Sign) (m : ℕ) : |((sign.apply m : ℤ) : ℚ)| = m := by
  cases sign <;> simp [Sign.apply]

/-- The magnitude of a mantissa whose exponent has been decreased. -/
theorem abs_apply_decreaseExponent {target : ℤ} (sign : Sign) (hle : target ≤ e) :
    |((sign.apply (decreaseExponent m e target).1 : ℤ) : ℚ)| * 2 ^ target = m * 2 ^ e := by
  rw [abs_apply, ← decreaseExponent_eq m e target, decreaseExponent_snd hle]

/-- Two mantissas with their exponents made equal, and a mantissa made of them. -/
theorem atMost_combine {mantissa : ℤ} {m' : ℕ} {e' : ℤ} (sign sign' : Sign) (hc : Representable c)
    (habs : |(mantissa : ℚ)| ≤
      |((sign.apply (decreaseExponent m e (min e e')).1 : ℤ) : ℚ)| +
        |((sign'.apply (decreaseExponent m' e' (min e e')).1 : ℤ) : ℚ)|)
    (hle : (m : ℚ) * 2 ^ e + m' * 2 ^ e' ≤ c) :
    AtMost c (UnpackedFloat.normalize Format.binary64 mantissa (min e e') .positive) := by
  apply atMost_normalize hc
  have hleft := abs_apply_decreaseExponent (m := m) sign (min_le_left e e')
  have hright := abs_apply_decreaseExponent (m := m') sign' (min_le_right e e')
  refine (mul_le_mul_of_nonneg_right habs (two_zpow_pos _).le).trans ?_
  rwa [add_mul, hleft, hright]

/-- The sum is rounded, but not beyond a representable bound of the exact one. -/
theorem AtMost.add (hf : AtMost a f) (hg : AtMost b g) (hc : Representable c) (hle : a + b ≤ c) :
    AtMost c (UnpackedFloat.add Format.binary64 f g) := by
  have ha := hf.nonneg
  have hb := hg.nonneg
  cases f with
  | infinity => exact hf.elim
  | notANumber => exact hf.elim
  | zero sign =>
    cases g with
    | infinity => exact hg.elim
    | notANumber => exact hg.elim
    | zero sign' =>
      rw [UnpackedFloat.add]
      split <;> exact (add_nonneg ha hb).trans hle
    | finite sign' m e hm => exact AtMost.mono (by linarith) hg
  | finite sign m e hm =>
    cases g with
    | infinity => exact hg.elim
    | notANumber => exact hg.elim
    | zero sign' => exact AtMost.mono (by linarith) hf
    | finite sign' m' e' hm' =>
      rw [UnpackedFloat.add]
      refine atMost_combine sign sign' hc ?_ ((add_le_add hf.2 hg.2).trans hle)
      rw [Int.cast_add]
      exact abs_add_le _ _

/-- The opposite sign negates the value. -/
theorem sign_apply_neg (sign : Sign) (m : ℕ) : (-sign).apply m = -sign.apply m := by
  cases sign with
  | positive => rfl
  | negative => exact (Int.neg_neg _).symm

/-- A difference is the sum with the negated number. -/
theorem sub_eq_add (f g : UnpackedFloat) :
    UnpackedFloat.sub Format.binary64 f g = UnpackedFloat.add Format.binary64 f g.neg := by
  cases f with
  | infinity => cases g <;> rfl
  | notANumber => cases g <;> rfl
  | zero sign => cases g <;> rfl
  | finite sign m e hm =>
    cases g with
    | infinity => rfl
    | notANumber => rfl
    | zero sign' => rfl
    | finite sign' m' e' hm' =>
      rw [UnpackedFloat.neg, UnpackedFloat.add, UnpackedFloat.sub]
      simp only [sign_apply_neg, Int.sub_eq_add_neg]

/-- The bound is one of the absolute value. -/
theorem AtMost.neg (h : AtMost b f) : AtMost b f.neg := by
  cases f with
  | infinity => exact h.elim
  | notANumber => exact h.elim
  | zero sign => exact h
  | finite sign m e hm => exact h

/-- A difference is the sum with the opposite number. -/
theorem AtMost.sub (hf : AtMost a f) (hg : AtMost b g) (hc : Representable c) (hle : a + b ≤ c) :
    AtMost c (UnpackedFloat.sub Format.binary64 f g) := by
  rw [sub_eq_add]
  exact AtMost.add hf hg.neg hc hle

/-- The product is bounded by the product of the bounds. -/
theorem AtMost.mul (hf : AtMost a f) (hg : AtMost b g) (hc : Representable c) (hle : a * b ≤ c) :
    AtMost c (UnpackedFloat.mul Format.binary64 f g) := by
  have ha := hf.nonneg
  have hb := hg.nonneg
  have hzero : 0 ≤ c := (mul_nonneg ha hb).trans hle
  cases f with
  | infinity => exact hf.elim
  | notANumber => exact hf.elim
  | zero sign =>
    cases g with
    | infinity => exact hg.elim
    | notANumber => exact hg.elim
    | zero sign' => exact hzero
    | finite sign' m e hm => exact hzero
  | finite sign m e hm =>
    cases g with
    | infinity => exact hg.elim
    | notANumber => exact hg.elim
    | zero sign' => exact hzero
    | finite sign' m' e' hm' =>
      rw [UnpackedFloat.mul]
      apply atMost_roundWithAccuracy hc
      have hproduct : ((m * m' : ℕ) : ℚ) * 2 ^ (e + e') = m * 2 ^ e * (m' * 2 ^ e') := by
        rw [zpow_add₀ two_ne_zero]
        push_cast
        ring
      refine le_trans (le_of_eq hproduct) (le_trans ?_ hle)
      exact mul_le_mul hf.2 hg.2 (mul_nonneg (Nat.cast_nonneg m') (two_zpow_pos e').le) ha

/-- A finite number of magnitude at least `b`. -/
def AtLeast (b : ℚ) : UnpackedFloat → Prop
  | .finite _ m e _ => b ≤ m * 2 ^ e
  | _ => False

/-- A quotient rounded up is at most a number that is not below it. -/
theorem upper_accuracyOfFraction_le {num den q : ℕ} (hden : 0 < den) (hle : num ≤ den * q) :
    upper (ExtendedMantissa.ofMantissaAndAccuracy (num / den)
      (accuracyOfFraction (num % den) den)) ≤ q := by
  have hsplit := Nat.div_add_mod num den
  by_cases hexact : num % den = 0
  · rw [accuracyOfFraction, if_pos hexact]
    exact Nat.div_le_of_le_mul hle
  · refine upper_le_succ.trans ?_
    rw [mantissa_ofMantissaAndAccuracy]
    exact (Nat.div_lt_iff_lt_mul hden).mpr (by
      rw [Nat.mul_comm]
      refine lt_of_le_of_ne hle ?_
      rintro rfl
      exact hexact (Nat.mul_mod_right den q))

/-- A number of the format as a multiple of a last place. -/
theorem exists_mul_two_zpow {n : ℕ} {k : ℤ} (hle : e ≤ k) :
    ∃ q : ℕ, (n : ℚ) * 2 ^ k = q * 2 ^ e := by
  obtain ⟨j, rfl⟩ := Int.le.dest hle
  refine ⟨n * 2 ^ j, ?_⟩
  rw [two_zpow_add_natCast]
  push_cast
  ring

/-- A number is at least the power of two of its highest bit. -/
theorem two_zpow_log2_le (hm : m ≠ 0) (e : ℤ) : (2 : ℚ) ^ (e + m.log2) ≤ m * 2 ^ e := by
  rw [two_zpow_add_natCast, mul_comm]
  exact mul_le_mul_of_nonneg_right (Nat.cast_le.mpr (Nat.log2_self_le hm)) (two_zpow_pos e).le

/-- It is less than the next one. -/
theorem lt_two_zpow_log2 (m : ℕ) : (m : ℚ) < 2 ^ ((m.log2 : ℤ) + 1) := by
  have hlt : (m : ℚ) < (2 ^ (m.log2 + 1) : ℕ) := Nat.cast_lt.mpr Nat.lt_log2_self
  rw [Nat.cast_pow, Nat.cast_ofNat, ← zpow_natCast] at hlt
  exact_mod_cast hlt

/-- The quotient that is rounded is at most a number of the format that is not below it. -/
theorem upper_divCore_le {m m' n : ℕ} {e e' k : ℤ} (hm : m ≠ 0) (hm' : 0 < m') (hn : n < 2 ^ 53)
    (hk : -1074 ≤ k) (hle : (m : ℚ) * 2 ^ e ≤ m' * 2 ^ e' * (n * 2 ^ k)) :
    (upper (ExtendedMantissa.ofMantissaAndAccuracy (divCore Format.binary64 m e m' e').1
      (divCore Format.binary64 m e m' e').2.2) : ℚ) *
        2 ^ (divCore Format.binary64 m e m' e').2.1 ≤ n * 2 ^ k := by
  simp only [divCore]
  generalize htarget : min (e - e')
    (Format.binary64.targetExponent (totalExponent m e - totalExponent m' e')) = target
  -- the dividend is at most the product of the divisor and the bound
  have hdividend : ((m <<< (e - e' - target).toNat : ℕ) : ℚ) * 2 ^ target ≤ m' * (n * 2 ^ k) := by
    have hexponent : e = target + e' + ((e - e' - target).toNat : ℕ) := by omega
    rw [hexponent, two_zpow_add_natCast, zpow_add₀ two_ne_zero] at hle
    rw [Nat.shiftLeft_eq, Nat.cast_mul, ← mul_le_mul_iff_of_pos_right (two_zpow_pos e')]
    linarith
  rcases le_or_gt target k with hfine | hcoarse
  · obtain ⟨q, hq⟩ := exists_mul_two_zpow (n := n) hfine
    rw [hq, ← mul_assoc, mul_le_mul_iff_of_pos_right (two_zpow_pos target), ← Nat.cast_mul,
      Nat.cast_le] at hdividend
    rw [hq]
    exact mul_le_mul_of_nonneg_right
      (Nat.cast_le.mpr (upper_accuracyOfFraction_le hm' hdividend)) (two_zpow_pos target).le
  · -- the quotient would be larger than the bound
    have hlog : target + 53 + m'.log2 + e' ≤ e + m.log2 := by
      simp only [Format.targetExponent, totalExponent, Format.mantissaBits, Format.minExponent]
        at htarget
      omega
    have hlarge := two_zpow_log2_le hm e
    have hsmall := mul_two_zpow_lt hn hcoarse
    have hdivisor := lt_two_zpow_log2 m'
    have hproduct : (m' : ℚ) * 2 ^ e' * (n * 2 ^ k) < 2 ^ (e + m.log2) := by
      calc (m' : ℚ) * 2 ^ e' * (n * 2 ^ k)
          ≤ m' * 2 ^ e' * 2 ^ (target + 52) := by gcongr
        _ < 2 ^ ((m'.log2 : ℤ) + 1) * 2 ^ e' * 2 ^ (target + 52) := by gcongr
        _ = 2 ^ ((m'.log2 : ℤ) + 1 + e' + (target + 52)) := by
          rw [← zpow_add₀ two_ne_zero, ← zpow_add₀ two_ne_zero]
        _ ≤ 2 ^ (e + m.log2) := zpow_le_zpow_right₀ one_le_two (by omega)
    linarith

/-- The quotient, if the divisor is bounded away from zero. -/
theorem AtMost.div (hf : AtMost a f) (hg : AtLeast b g) (hb : 0 < b) (hc : Representable c)
    (hle : a ≤ b * c) : AtMost c (UnpackedFloat.div Format.binary64 f g) := by
  have hzero : 0 ≤ c := nonneg_of_mul_nonneg_right (hf.nonneg.trans hle) hb
  cases g with
  | infinity => exact hg.elim
  | notANumber => exact hg.elim
  | zero sign' => exact hg.elim
  | finite sign' m' e' hm' =>
    cases f with
    | infinity => exact hf.elim
    | notANumber => exact hf.elim
    | zero sign => exact hzero
    | finite sign m e hm =>
      rw [UnpackedFloat.div]
      refine atMost_roundWithAccuracy hc ?_
      obtain ⟨n, k, hn, hk, rfl⟩ := hc
      refine upper_divCore_le hm.ne' hm' hn hk ((hf.2.trans hle).trans ?_)
      exact mul_le_mul_of_nonneg_right hg hzero

/-- Not a finite number below zero. -/
def Nonneg : UnpackedFloat → Prop
  | .finite sign _ _ _ => sign = .positive
  | _ => True

/-- A root rounded up is at most a number whose square is not below the radicand. -/
theorem upper_sqrt_le {m q : ℕ} (hle : m ≤ q ^ 2) :
    upper (ExtendedMantissa.ofMantissaAndAccuracy (Nat.sqrt m)
      (if m - Nat.sqrt m * Nat.sqrt m = 0 then .exact
        else .inexact (if m - Nat.sqrt m * Nat.sqrt m ≤ Nat.sqrt m then .lt else .gt))) ≤ q := by
  have hroot : Nat.sqrt m * Nat.sqrt m ≤ m := Nat.sqrt_le m
  rw [pow_two] at hle
  split
  · exact Nat.mul_self_le_mul_self_iff.mp (hroot.trans hle)
  · next hinexact =>
    refine upper_le_succ.trans ?_
    rw [mantissa_ofMantissaAndAccuracy]
    exact Nat.mul_self_lt_mul_self_iff.mp (by omega)

/-- The square root that is rounded is at most a number of the format that is not below it. -/
theorem upper_sqrtCore_le {m n : ℕ} {e k : ℤ} (hm : m ≠ 0) (hn : n < 2 ^ 53) (hk : -1074 ≤ k)
    (hle : (m : ℚ) * 2 ^ e ≤ (n * 2 ^ k) ^ 2) :
    (upper (ExtendedMantissa.ofMantissaAndAccuracy (sqrtCore Format.binary64 m e).1
      (sqrtCore Format.binary64 m e).2.2) : ℚ) * 2 ^ (sqrtCore Format.binary64 m e).2.1 ≤
        n * 2 ^ k := by
  simp only [sqrtCore]
  generalize htarget : min (e.ediv 2)
    (Format.binary64.targetExponent ((totalExponent m e + 1).ediv 2)) = target
  -- the shifted mantissa is at most the square of the bound
  have hradicand : ((m <<< (e - 2 * target).toNat : ℕ) : ℚ) * (2 ^ target) ^ 2 ≤
      (n * 2 ^ k) ^ 2 := by
    have hexponent : e = target + target + ((e - 2 * target).toNat : ℕ) := by
      have hle : target ≤ e / 2 := htarget ▸ min_le_left _ _
      omega
    rw [hexponent, two_zpow_add_natCast, zpow_add₀ two_ne_zero] at hle
    rw [Nat.shiftLeft_eq, Nat.cast_mul]
    linarith
  rcases le_or_gt target k with hfine | hcoarse
  · obtain ⟨q, hq⟩ := exists_mul_two_zpow (n := n) hfine
    rw [hq, mul_pow, mul_le_mul_iff_of_pos_right (pow_pos (two_zpow_pos target) 2),
      ← Nat.cast_pow, Nat.cast_le] at hradicand
    rw [hq]
    exact mul_le_mul_of_nonneg_right (Nat.cast_le.mpr (upper_sqrt_le hradicand))
      (two_zpow_pos target).le
  · -- the root would be larger than the bound
    have hlog : target + 52 + (target + 52) ≤ e + m.log2 := by
      have hle : target ≤ Format.binary64.targetExponent ((totalExponent m e + 1) / 2) :=
        htarget ▸ min_le_right _ _
      simp only [Format.targetExponent, totalExponent, Format.mantissaBits, Format.minExponent]
        at hle
      omega
    have hlarge := two_zpow_log2_le hm e
    have hsmall := mul_two_zpow_lt hn hcoarse
    have hsquare : ((n : ℚ) * 2 ^ k) ^ 2 < 2 ^ (e + m.log2) := by
      calc ((n : ℚ) * 2 ^ k) ^ 2 < (2 ^ (target + 52)) ^ 2 := by gcongr
        _ = 2 ^ (target + 52 + (target + 52)) := by rw [pow_two, ← zpow_add₀ two_ne_zero]
        _ ≤ 2 ^ (e + m.log2) := zpow_le_zpow_right₀ one_le_two hlog
    linarith

/-- The square root of a number that is not negative. -/
theorem AtMost.sqrt (hf : AtMost a f) (hsign : Nonneg f) (hc : Representable c) (hzero : 0 ≤ c)
    (hle : a ≤ c ^ 2) : AtMost c (UnpackedFloat.sqrt Format.binary64 f) := by
  cases f with
  | infinity => exact hf.elim
  | notANumber => exact hf.elim
  | zero sign => exact hzero
  | finite sign m e hm =>
    obtain rfl : sign = .positive := hsign
    rw [UnpackedFloat.sqrt]
    refine atMost_roundWithAccuracy hc ?_
    obtain ⟨n, k, hn, hk, rfl⟩ := hc
    exact upper_sqrtCore_le hm.ne' hn hk (hf.2.trans hle)

/-- Rounding keeps the sign. -/
theorem nonneg_roundWithAccuracy {accuracy : Accuracy} :
    Nonneg (roundWithAccuracy Format.binary64 .positive m e accuracy) := by
  rw [roundWithAccuracy_eq]
  unfold ofMantissa
  split_ifs <;> trivial

/-- The square of a number is not negative. -/
theorem nonneg_mul_self (f : UnpackedFloat) : Nonneg (UnpackedFloat.mul Format.binary64 f f) := by
  cases f with
  | infinity => trivial
  | notANumber => trivial
  | zero sign => trivial
  | finite sign m e hm =>
    rw [UnpackedFloat.mul, show sign * sign = .positive by cases sign <;> rfl]
    exact nonneg_roundWithAccuracy

/-- A mantissa that is not negative gives a number that is not. -/
theorem nonneg_normalize {mantissa : ℤ} {zeroSign : Sign} (h : 0 ≤ mantissa) :
    Nonneg (UnpackedFloat.normalize Format.binary64 mantissa e zeroSign) := by
  rw [UnpackedFloat.normalize]
  rcases h.eq_or_lt with rfl | hpos
  · trivial
  · rw [compare_gt_iff_gt.mpr hpos]
    exact nonneg_roundWithAccuracy

/-- Sums of numbers that are not negative are not negative. -/
theorem Nonneg.add (hf : Nonneg f) (hg : Nonneg g) :
    Nonneg (UnpackedFloat.add Format.binary64 f g) := by
  cases f with
  | infinity sign =>
    cases g with
    | infinity sign' =>
      rw [UnpackedFloat.add]
      split <;> trivial
    | notANumber => trivial
    | zero sign' => trivial
    | finite sign' m e hm => trivial
  | notANumber => cases g <;> trivial
  | zero sign =>
    cases g with
    | infinity sign' => trivial
    | notANumber => trivial
    | zero sign' =>
      rw [UnpackedFloat.add]
      split <;> trivial
    | finite sign' m e hm => exact hg
  | finite sign m e hm =>
    cases g with
    | infinity sign' => trivial
    | notANumber => trivial
    | zero sign' => exact hf
    | finite sign' m' e' hm' =>
      obtain rfl : sign = .positive := hf
      obtain rfl : sign' = .positive := hg
      rw [UnpackedFloat.add]
      exact nonneg_normalize (Int.add_nonneg (Int.natCast_nonneg _) (Int.natCast_nonneg _))

/-- Nor are their quotients, unless zero is divided by zero. -/
theorem Nonneg.div (hf : Nonneg f) (hg : Nonneg g) (hlarge : AtLeast b g) :
    Nonneg (UnpackedFloat.div Format.binary64 f g) := by
  cases g with
  | infinity => exact hlarge.elim
  | notANumber => exact hlarge.elim
  | zero sign' => exact hlarge.elim
  | finite sign' m' e' hm' =>
    cases f with
    | infinity sign => trivial
    | notANumber => trivial
    | zero sign => trivial
    | finite sign m e hm =>
      obtain rfl : sign = .positive := hf
      obtain rfl : sign' = .positive := hg
      exact nonneg_roundWithAccuracy

/-- Packing and unpacking keep the sign. -/
theorem nonneg_unpack_pack (hb : b < 2 ^ (972 : ℤ)) (hf : AtMost b f) (h : Nonneg f) :
    Nonneg (unpack Format.binary64 (pack Format.binary64 f)) := by
  cases f with
  | infinity => exact hf.elim
  | notANumber => exact hf.elim
  | zero sign => rwa [unpack_pack_zero]
  | finite sign m e hm =>
    obtain rfl : sign = .positive := h
    rw [unpack_pack_finite hf.1 (hf.exponent_lt hb)]
    unfold ofMantissa
    split_ifs <;> trivial

end Unpacked

/-! ## Operations on `double` -/

/-- The nearest `double` to an integer. -/
def ofInt (z : ℤ) : Float := ⟨Float.Model.ofInt z⟩

/-- The number is neither infinite nor `NaN`, and its magnitude is at most `b`. -/
def Within (b : ℚ) (x : Float) : Prop := AtMost b x.toModel.unpack

/-- The number is not below zero. -/
def IsNonneg (x : Float) : Prop := Nonneg x.toModel.unpack

section Operations

variable {x y : Float} {a b c : ℚ}

/-- What has a bound is a number. -/
theorem Within.isFinite (h : Within b x) : x.isFinite = true := by
  change x.toModel.unpack.isFinite = true
  unfold Within at h
  cases hunpack : x.toModel.unpack with
  | infinity => rw [hunpack] at h; exact h.elim
  | notANumber => rw [hunpack] at h; exact h.elim
  | zero sign => rfl
  | finite sign m e hm => rfl

/-- `NaN` is not one. -/
theorem isFinite_of_isNaN (h : x.isNaN = true) : x.isFinite = false := by
  change x.toModel.unpack.isNaN = true at h
  change x.toModel.unpack.isFinite = false
  cases hunpack : x.toModel.unpack with
  | infinity => rfl
  | notANumber => rfl
  | zero sign => rw [hunpack] at h; cases h
  | finite sign m e hm => rw [hunpack] at h; cases h

/-- A larger bound is a bound, too. -/
theorem Within.mono (hle : b ≤ c) (h : Within b x) : Within c x := AtMost.mono hle h

/-- The rule for `+`; as long as the bound is no larger than `2 ^ 972`, nothing becomes infinite. -/
theorem Within.add (hx : Within a x) (hy : Within b y) (hc : Representable c)
    (hlt : c < 2 ^ (972 : ℤ)) (hle : a + b ≤ c) : Within c (x + y) :=
  atMost_unpack_pack hlt (AtMost.add hx hy hc hle)

/-- The rule for `-`. -/
theorem Within.sub (hx : Within a x) (hy : Within b y) (hc : Representable c)
    (hlt : c < 2 ^ (972 : ℤ)) (hle : a + b ≤ c) : Within c (x - y) :=
  atMost_unpack_pack hlt (AtMost.sub hx hy hc hle)

/-- The rule for `*`. -/
theorem Within.mul (hx : Within a x) (hy : Within b y) (hc : Representable c)
    (hlt : c < 2 ^ (972 : ℤ)) (hle : a * b ≤ c) : Within c (x * y) :=
  atMost_unpack_pack hlt (AtMost.mul hx hy hc hle)

/-- The rule for `/`. -/
theorem Within.div (hx : Within a x) (hy : AtLeast b y.toModel.unpack) (hb : 0 < b)
    (hc : Representable c) (hlt : c < 2 ^ (972 : ℤ)) (hle : a ≤ b * c) : Within c (x / y) :=
  atMost_unpack_pack hlt (AtMost.div hx hy hb hc hle)

/-- The rule for `sqrt`. -/
theorem Within.sqrt (hx : Within a x) (hsign : IsNonneg x) (hc : Representable c) (hzero : 0 ≤ c)
    (hlt : c < 2 ^ (972 : ℤ)) (hle : a ≤ c ^ 2) : Within c x.sqrt :=
  atMost_unpack_pack hlt (AtMost.sqrt hx hsign hc hzero hle)

/-- Squares are not negative. -/
theorem isNonneg_mul_self (hx : Within a x) (hc : Representable c) (hlt : c < 2 ^ (972 : ℤ))
    (hle : a * a ≤ c) : IsNonneg (x * x) :=
  nonneg_unpack_pack hlt (AtMost.mul hx hx hc hle) (nonneg_mul_self _)

/-- Sums of numbers that are not negative are not negative. -/
theorem IsNonneg.add (hx : Within a x) (hy : Within b y) (hc : Representable c)
    (hlt : c < 2 ^ (972 : ℤ)) (hle : a + b ≤ c) (hx' : IsNonneg x) (hy' : IsNonneg y) :
    IsNonneg (x + y) :=
  nonneg_unpack_pack hlt (AtMost.add hx hy hc hle) (Nonneg.add hx' hy')

/-- Nor are their quotients. -/
theorem IsNonneg.div (hx : Within a x) (hy : AtLeast b y.toModel.unpack) (hb : 0 < b)
    (hc : Representable c) (hlt : c < 2 ^ (972 : ℤ)) (hle : a ≤ b * c) (hx' : IsNonneg x)
    (hy' : IsNonneg y) : IsNonneg (x / y) :=
  nonneg_unpack_pack hlt (AtMost.div hx hy hb hc hle) (Nonneg.div hx' hy' hy)

/-- An integer below a representable bound. -/
theorem within_ofInt {z : ℤ} (hb : Representable b) (hlt : b < 2 ^ (972 : ℤ))
    (hle : |(z : ℚ)| ≤ b) : Within b (ofInt z) := by
  apply atMost_unpack_pack hlt
  apply atMost_normalize hb
  rwa [zpow_zero, mul_one]

end Operations

/-! ## Integers -/

section Integers

variable {n : ℕ} {z : ℤ}

/-- A shift moves the highest bit. -/
theorem log2_shiftLeft (hn : n ≠ 0) (k : ℕ) : (n <<< k).log2 = n.log2 + k := by
  have hpos : n <<< k ≠ 0 := by
    rw [Nat.shiftLeft_eq]
    exact Nat.mul_ne_zero hn (Nat.two_pow_pos k).ne'
  obtain ⟨hle, hlt⟩ := (Nat.log2_eq_iff hn).mp rfl
  rw [Nat.log2_eq_iff hpos, Nat.shiftLeft_eq, Nat.add_right_comm, Nat.pow_add, Nat.pow_add]
  exact ⟨Nat.mul_le_mul_right _ hle, Nat.mul_lt_mul_of_pos_right hlt (Nat.two_pow_pos k)⟩

/-- A positive integer is rounded to a number with a mantissa of 53 bits. -/
theorem exists_round (hn : n ≠ 0) :
    ∃ r e hr, (∀ sign, UnpackedFloat.round Format.binary64 sign n 0 = .finite sign r e hr) ∧
      2 ^ 52 ≤ r ∧ r < 2 ^ 53 ∧ n.log2 - 52 ≤ e ∧ e ≤ (n.log2 - 51 : ℤ) := by
  have htarget : Format.binary64.targetExponent (totalExponent n 0) = n.log2 - 52 := by
    simp only [Format.targetExponent, totalExponent, Format.mantissaBits, Format.minExponent]
    omega
  simp only [UnpackedFloat.round, htarget, decreaseExponent]
  have hlog := log2_shiftLeft hn (0 - ((n.log2 : ℤ) - 52)).toNat
  obtain ⟨r, e, hr, hround, hmin, hmax, hle, hge⟩ := exists_roundWithAccuracy .exact
    (m := n <<< (0 - ((n.log2 : ℤ) - 52)).toNat)
    (e := 0 - ((0 - ((n.log2 : ℤ) - 52)).toNat : ℤ)) (by omega) (by omega)
  exact ⟨r, e, hr, hround, hmin, hmax, by omega, by omega⟩

/-- An integer is rounded by its sign and its absolute value. -/
theorem normalize_eq_round (hz : z ≠ 0) (e : ℤ) (zeroSign : Sign) :
    UnpackedFloat.normalize Format.binary64 z e zeroSign =
      UnpackedFloat.round Format.binary64 (if z < 0 then .negative else .positive) z.natAbs e := by
  rw [UnpackedFloat.normalize]
  rcases lt_or_gt_of_ne hz with hneg | hpos
  · rw [compare_lt_iff_lt.mpr hneg, if_pos hneg, ← Int.natAbs_neg]
    simp only
    congr 1
    omega
  · rw [compare_gt_iff_gt.mpr hpos, if_neg (by omega)]
    simp only
    congr 1
    omega

/-- The mantissa and the exponent of an integer of up to 64 bits are those of its negation. -/
theorem exists_ofInt (hz : z ≠ 0) (hlt : z.natAbs < 2 ^ 64) :
    ∃ r e hr,
      ofInt z = ⟨.pack (.finite (if z < 0 then .negative else .positive) r e hr)⟩ ∧
      ofInt (-z) = ⟨.pack (.finite (if -z < 0 then .negative else .positive) r e hr)⟩ ∧
      2 ^ 52 ≤ r ∧ r < 2 ^ 53 ∧ -52 ≤ e ∧ e ≤ 13 := by
  have hlog : z.natAbs.log2 < 64 := (Nat.log2_lt (Int.natAbs_ne_zero.mpr hz)).mpr hlt
  obtain ⟨r, e, hr, hround, hmin, hmax, hle, hge⟩ := exists_round (Int.natAbs_ne_zero.mpr hz)
  have hofInt : ∀ y : ℤ, y ≠ 0 → y.natAbs = z.natAbs →
      ofInt y = ⟨.pack (.finite (if y < 0 then .negative else .positive) r e hr)⟩ := by
    intro y hy habs
    rw [← hround, ← habs, ← normalize_eq_round hy 0 .positive]
    rfl
  exact ⟨r, e, hr, hofInt z hz rfl, hofInt (-z) (Int.neg_ne_zero.mpr hz) (Int.natAbs_neg z),
    hmin, hmax, by omega, by omega⟩

/-- An integer of up to 64 bits, other than zero, as a `double`. -/
theorem unpack_ofInt (hz : z ≠ 0) (hlt : z.natAbs < 2 ^ 64) :
    ∃ r e hr, (ofInt z).toModel.unpack =
        .finite (if z < 0 then .negative else .positive) r e hr ∧
      2 ^ 52 ≤ r ∧ r < 2 ^ 53 ∧ -52 ≤ e ∧ e ≤ 13 := by
  obtain ⟨r, e, hr, hofInt, -, hmin, hmax, hle, hge⟩ := exists_ofInt hz hlt
  refine ⟨r, e, hr, ?_, hmin, hmax, hle, hge⟩
  rw [hofInt]
  exact unpack_pack_of_normal (by omega) (by omega) hmin hmax

/-- The conversion from integers commutes with the sign. -/
theorem ofInt_neg (hz : z ≠ 0) (hlt : z.natAbs < 2 ^ 64) : ofInt (-z) = -ofInt z := by
  obtain ⟨r, e, hr, hofInt, hneg, hmin, hmax, hle, hge⟩ := exists_ofInt hz hlt
  have hsign : (if -z < 0 then Sign.negative else Sign.positive) =
      -(if z < 0 then Sign.negative else Sign.positive) := by
    rcases lt_or_gt_of_ne hz with hlt' | hgt
    · rw [if_neg (by omega), if_pos hlt']
      rfl
    · rw [if_pos (by omega), if_neg (by omega)]
      rfl
  rw [hneg, hsign, hofInt]
  change _ = Float.ofModel (.pack (UnpackedFloat.neg (unpack Format.binary64
    (pack Format.binary64 _))))
  rw [unpack_pack_of_normal (by omega) (by omega) hmin hmax]
  rfl

/-- A number that is divided by at least two is another number. -/
theorem ofInt_div_ne_self {x : Float} (hz : z ≠ 0) (hlt : z.natAbs < 2 ^ 64)
    (hx : AtLeast 2 x.toModel.unpack) : ofInt z / x ≠ ofInt z := by
  obtain ⟨r, e, hr, hunpack, -, hmax, hle, hge⟩ := unpack_ofInt hz hlt
  have hhalf : (r : ℚ) * 2 ^ e = 2 * (r * 2 ^ (e - 1)) := by
    rw [zpow_sub_one₀ two_ne_zero]
    ring
  have hsmall : (r : ℚ) * 2 ^ (e - 1) < 2 ^ (972 : ℤ) :=
    mul_two_zpow_lt (e := 920) hmax (by omega)
  have hwithin : Within (r * 2 ^ e) (ofInt z) := by
    rw [Within, hunpack]
    exact ⟨by omega, le_rfl⟩
  have hquotient : Within (r * 2 ^ (e - 1)) (ofInt z / x) :=
    hwithin.div hx two_pos ⟨r, e - 1, hmax, by omega, rfl⟩ hsmall hhalf.le
  intro hself
  rw [hself, Within, hunpack] at hquotient
  have hpos : (0 : ℚ) < r * 2 ^ (e - 1) := mul_pos (Nat.cast_pos.mpr hr) (two_zpow_pos _)
  linarith [hquotient.2]

/-- Positive integers are not negative. -/
theorem isNonneg_ofInt {z : ℤ} (hz : 0 < z) (hlt : z.natAbs < 2 ^ 64) : IsNonneg (ofInt z) := by
  obtain ⟨r, e, hr, hunpack, -⟩ := unpack_ofInt hz.ne' hlt
  rw [IsNonneg, hunpack, if_neg (by omega)]
  rfl

/-- An integer other than zero is at least one, also when it is rounded. -/
theorem atLeast_one_ofInt {z : ℤ} (hz : z ≠ 0) (hlt : z.natAbs < 2 ^ 64) :
    AtLeast 1 (ofInt z).toModel.unpack := by
  obtain ⟨r, e, hr, hunpack, hmin, -, he, -⟩ := unpack_ofInt hz hlt
  rw [hunpack]
  have hmantissa : ((2 ^ 52 : ℕ) : ℚ) ≤ r := Nat.cast_le.mpr hmin
  have hexponent : (2 : ℚ) ^ (-52 : ℤ) ≤ 2 ^ e := zpow_le_zpow_right₀ one_le_two he
  calc (1 : ℚ) = (2 ^ 52 : ℕ) * 2 ^ (-52 : ℤ) := by norm_num
    _ ≤ r * 2 ^ e := mul_le_mul hmantissa hexponent (two_zpow_pos _).le (Nat.cast_nonneg r)

end Integers

/-! ## Sums -/

section Sums

variable {α : Type} {f : α → Float} {k p : ℕ} {s : Float}

/-- A number of 53 bits times a power of two needs no rounding. -/
theorem representable_mul_two_pow (hk : k < 2 ^ 53) : Representable (k * 2 ^ p) :=
  ⟨k, p, hk, by omega, by rw [zpow_natCast]⟩

/-- So do the powers of two alone. -/
theorem representable_two_pow (p : ℕ) : Representable (2 ^ p) :=
  ⟨1, p, by norm_num, by omega, by rw [Nat.cast_one, one_mul, zpow_natCast]⟩

/-- Powers of two that are small enough for the rules above. -/
theorem two_pow_lt (hp : p ≤ 900) : (2 : ℚ) ^ p < 2 ^ (972 : ℤ) := by
  rw [← zpow_natCast]
  exact zpow_lt_zpow_right₀ one_lt_two (by omega)

/-- The same with a factor of 53 bits. -/
theorem mul_two_pow_lt (hk : k < 2 ^ 53) (hp : p ≤ 900) : (k : ℚ) * 2 ^ p < 2 ^ (972 : ℤ) := by
  have hlt : (k : ℚ) < (2 ^ 53 : ℕ) := Nat.cast_lt.mpr hk
  have hpow : (2 : ℚ) ^ p ≤ 2 ^ 900 := pow_le_pow_right₀ one_le_two hp
  calc (k : ℚ) * 2 ^ p ≤ (2 ^ 53 : ℕ) * 2 ^ 900 :=
        mul_le_mul hlt.le hpow (pow_pos two_pos p).le (Nat.cast_nonneg _)
    _ = 2 ^ ((953 : ℕ) : ℤ) := by rw [zpow_natCast, Nat.cast_pow, Nat.cast_ofNat, ← pow_add]
    _ < 2 ^ (972 : ℤ) := zpow_lt_zpow_right₀ one_lt_two (by omega)

/-- A sum of `k` numbers that are at most `2 ^ p` is at most `k * 2 ^ p`. -/
theorem within_foldl {l : List α} (hp : p ≤ 900) (hf : ∀ x ∈ l, Within (2 ^ p) (f x))
    (hk : k + l.length < 2 ^ 53) (hs : Within (k * 2 ^ p) s) :
    Within ((k + l.length : ℕ) * 2 ^ p) (l.foldl (fun s x => s + f x) s) := by
  induction l generalizing k s with
  | nil => exact hs
  | cons x l ih =>
    rw [List.length_cons, Nat.add_comm l.length, ← Nat.add_assoc] at hk ⊢
    have hlt : k + 1 < 2 ^ 53 := by omega
    apply ih (fun y hy => hf y (List.mem_cons_of_mem x hy)) hk
    refine hs.add (hf x List.mem_cons_self) (representable_mul_two_pow hlt) (mul_two_pow_lt hlt hp)
      (le_of_eq ?_)
    push_cast
    ring

/-- If the numbers are not negative, then the sum is not negative. -/
theorem isNonneg_foldl {l : List α} (hp : p ≤ 900) (hf : ∀ x ∈ l, Within (2 ^ p) (f x))
    (hnonneg : ∀ x ∈ l, IsNonneg (f x)) (hk : k + l.length < 2 ^ 53) (hs : Within (k * 2 ^ p) s)
    (hs' : IsNonneg s) : IsNonneg (l.foldl (fun s x => s + f x) s) := by
  induction l generalizing k s with
  | nil => exact hs'
  | cons x l ih =>
    rw [List.length_cons, Nat.add_comm l.length, ← Nat.add_assoc] at hk
    have hlt : k + 1 < 2 ^ 53 := by omega
    have hle : (k : ℚ) * 2 ^ p + 2 ^ p ≤ (k + 1 : ℕ) * 2 ^ p := by
      refine le_of_eq ?_
      push_cast
      ring
    have hx := hf x List.mem_cons_self
    have hc : Representable ((k + 1 : ℕ) * 2 ^ p) := representable_mul_two_pow hlt
    exact ih (fun y hy => hf y (List.mem_cons_of_mem x hy))
      (fun y hy => hnonneg y (List.mem_cons_of_mem x hy)) hk
      (hs.add hx hc (mul_two_pow_lt hlt hp) hle)
      (IsNonneg.add hs hx hc (mul_two_pow_lt hlt hp) hle hs' (hnonneg x List.mem_cons_self))

end Sums

end Binary64
