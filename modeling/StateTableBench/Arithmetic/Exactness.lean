import StateTableBench.Arithmetic.Binary64

/-!
# Exact results

Each finite number has a rational value. An operation whose exact result is a number of the format
returns it, and packing loses nothing, because what is rounded has as many digits as there is room
for (`Normal`).

* `Rounds q f` — what is known of the result `f` of rounding `q`;
* `rounds_sub` — the difference of two numbers rounds the difference of their values;
* `Rounds.unpack_pack` — packing and unpacking change nothing, up to the largest `double`;
* `HasValue.truncate_eq`, `Nonpos.truncate_nonpos` — the integer that remains without the digits
  after the point.
-/

open Float.Model Float.Model.UnpackedFloat

namespace Binary64

section Values

variable {sign : Sign} {m r : ℕ} {e e' : ℤ} {q a b : ℚ} {f g : UnpackedFloat}

/-- The value of a number, which is neither infinite nor `NaN`. -/
def HasValue (q : ℚ) : UnpackedFloat → Prop
  | .zero _ => q = 0
  | .finite sign m e _ => q = sign.apply m * 2 ^ e
  | .infinity _ => False
  | .notANumber => False

/-- The mantissa has 53 bits, or else the exponent is the least. -/
def Normal : UnpackedFloat → Prop
  | .finite _ m e _ => m < 2 ^ 53 ∧ -1074 ≤ e ∧ (2 ^ 52 ≤ m ∨ e = -1074)
  | _ => True

/-- Not a finite number above zero. -/
def Nonpos : UnpackedFloat → Prop
  | .finite sign _ _ _ => sign = .negative
  | _ => True

/-- Two presentations of one value, with a sign. -/
theorem apply_mul_congr (h : (r : ℚ) * 2 ^ e' = m * 2 ^ e) (sign : Sign) :
    ((sign.apply r : ℤ) : ℚ) * 2 ^ e' = sign.apply m * 2 ^ e := by
  cases sign with
  | positive => exact h
  | negative => simpa [Sign.apply] using h

/-- The value of a mantissa and an exponent. -/
theorem hasValue_ofMantissa (sign : Sign) (m : ℕ) (e : ℤ) :
    HasValue (sign.apply m * 2 ^ e) (ofMantissa sign m e) := by
  unfold ofMantissa
  split
  · next hzero =>
    subst hzero
    cases sign <;> exact zero_mul _
  · rfl

/-- A mantissa with its highest bit set is normal, and so is one with the least exponent. -/
theorem normal_ofMantissa (hm : m < 2 ^ 53) (he : -1074 ≤ e) (h : 2 ^ 52 ≤ m ∨ e = -1074) :
    Normal (ofMantissa sign m e) := by
  unfold ofMantissa
  split
  · trivial
  · exact ⟨hm, he, h⟩

/-- A negative sign gives no positive number. -/
theorem nonpos_ofMantissa : Nonpos (ofMantissa .negative m e) := by
  unfold ofMantissa
  split <;> trivial

/-! ## Rounding -/

/-- Nothing is lost if the mantissa is a multiple of what is shifted out. -/
theorem rounded_eq_of_dvd (h : 2 ^ shift m e ∣ m) : rounded m e .exact = m / 2 ^ shift m e := by
  refine le_antisymm (roundedMantissa_le.trans ?_) le_rounded
  rw [upper_shiftRight_le_iff, Nat.div_mul_cancel h]
  exact Nat.le_refl m

/-- So it is if the number is one of the format. -/
theorem dvd_of_representable (h : Representable (m * 2 ^ e)) : 2 ^ shift m e ∣ m := by
  obtain ⟨n, k, hn, hk, heq⟩ := h
  rcases le_or_gt (e + shift m e) k with hfine | hcoarse
  · obtain ⟨j, hj⟩ := Int.le.dest hfine
    have hvalue : (m : ℚ) * 2 ^ e = (n * 2 ^ j * 2 ^ shift m e : ℕ) * 2 ^ e := by
      rw [heq, ← hj, two_zpow_add_natCast, two_zpow_add_natCast]
      push_cast
      ring
    have hmantissa := mul_right_cancel₀ (two_zpow_pos e).ne' hvalue
    rw [Nat.cast_inj] at hmantissa
    conv_rhs => rw [hmantissa]
    exact Nat.dvd_mul_left _ _
  · rcases Nat.eq_zero_or_pos (shift m e) with hzero | hpos
    · rw [hzero]
      exact Nat.one_dvd m
    · -- the number would be larger than it is
      have hlarge := two_zpow_le_of_shift_pos hpos (hk.trans_lt hcoarse)
      have hsmall := mul_two_zpow_lt hn hcoarse
      linarith

/-- What is representable is not changed by rounding. -/
theorem hasValue_roundWithAccuracy (h : Representable (m * 2 ^ e)) (sign : Sign) :
    HasValue (sign.apply m * 2 ^ e) (roundWithAccuracy Format.binary64 sign m e .exact) := by
  have hdvd := dvd_of_representable h
  have hvalue : ((m / 2 ^ shift m e : ℕ) : ℚ) * 2 ^ (e + shift m e) = m * 2 ^ e := by
    conv_rhs => rw [← Nat.div_mul_cancel hdvd]
    rw [two_zpow_add_natCast]
    push_cast
    ring
  rw [roundWithAccuracy_eq, rounded_eq_of_dvd hdvd, if_pos (div_two_pow_shift_lt m e),
    ← apply_mul_congr hvalue]
  exact hasValue_ofMantissa sign _ _

/-- Rounding keeps a negative sign. -/
theorem nonpos_roundWithAccuracy {accuracy : Accuracy} :
    Nonpos (roundWithAccuracy Format.binary64 .negative m e accuracy) := by
  rw [roundWithAccuracy_eq]
  split <;> exact nonpos_ofMantissa

/-- `round` does not change what is representable. -/
theorem hasValue_round (h : Representable (m * 2 ^ e)) (sign : Sign) :
    HasValue (sign.apply m * 2 ^ e) (UnpackedFloat.round Format.binary64 sign m e) := by
  have hvalue := decreaseExponent_eq m e (Format.binary64.targetExponent (totalExponent m e))
  rw [← hvalue] at h
  rw [← apply_mul_congr hvalue]
  exact hasValue_roundWithAccuracy h sign

/-- A mantissa with enough digits for its exponent is rounded to one that has 53 bits. -/
theorem normal_roundWithAccuracy (hm : m ≠ 0)
    (he : e + shift m e = max (m.log2 + e - 52) (-1074)) (accuracy : Accuracy) :
    Normal (roundWithAccuracy Format.binary64 sign m e accuracy) := by
  have hle := le_add_shift m e
  have hnormal : 2 ^ 52 ≤ rounded m e accuracy ∨ e + shift m e = -1074 := by
    by_cases hmin : e + shift m e = -1074
    · exact .inr hmin
    · exact .inl (two_pow_le_rounded hm (by omega))
  rw [roundWithAccuracy_eq]
  split
  · next hlt => exact normal_ofMantissa hlt hle hnormal
  · exact normal_ofMantissa (by norm_num) (by omega) (.inl le_rfl)

/-- What `round` returns is normal. -/
theorem normal_round (hm : m ≠ 0) (sign : Sign) :
    Normal (UnpackedFloat.round Format.binary64 sign m e) := by
  have htarget : Format.binary64.targetExponent (totalExponent m e) =
      max (m.log2 + e - 52) (-1074) := by
    simp only [Format.targetExponent, totalExponent, Format.mantissaBits, Format.minExponent]
    omega
  -- the exponent is first decreased as far as the mantissa is shifted afterwards
  have hlog := log2_shiftLeft hm (e - max (m.log2 + e - 52) (-1074)).toNat
  rw [UnpackedFloat.round, htarget]
  apply normal_roundWithAccuracy
  · rw [Nat.shiftLeft_eq]
    exact Nat.mul_ne_zero hm (Nat.two_pow_pos _).ne'
  · simp only [shift, hlog]
    omega

/-! ## Packing -/

/-- The largest number of the format. -/
def largest : ℚ := (2 ^ 53 - 1 : ℕ) * 2 ^ (971 : ℤ)

/-- The largest number is representable. -/
theorem representable_largest : Representable largest :=
  ⟨2 ^ 53 - 1, 971, by norm_num, by norm_num, rfl⟩

/-- A normal number survives the format, unless it is too large. -/
theorem Normal.unpack_pack (h : Normal f) (hle : AtMost largest f) :
    unpack Format.binary64 (pack Format.binary64 f) = f := by
  cases f with
  | infinity => exact hle.elim
  | notANumber => exact hle.elim
  | zero sign => exact unpack_pack_zero sign
  | finite sign m e hm =>
    obtain ⟨hmax, he, hnormal⟩ := h
    by_cases hmin : 2 ^ 52 ≤ m
    · refine unpack_pack_of_normal he ?_ hmin hmax
      -- otherwise the number would be larger than the largest one
      have hmantissa : ((2 ^ 52 : ℕ) : ℚ) ≤ m := Nat.cast_le.mpr hmin
      have hlt : (2 : ℚ) ^ (e + (52 : ℕ)) < 2 ^ (971 + (53 : ℕ) : ℤ) := by
        rw [two_zpow_add_natCast, two_zpow_add_natCast]
        calc (2 : ℚ) ^ e * (2 ^ 52 : ℕ) ≤ m * 2 ^ e := by
              rw [mul_comm]
              exact mul_le_mul_of_nonneg_right hmantissa (two_zpow_pos e).le
          _ ≤ largest := hle.2
          _ < 2 ^ (971 : ℤ) * (2 ^ 53 : ℕ) := by
              rw [largest, mul_comm]
              exact mul_lt_mul_of_pos_left (by norm_num) (two_zpow_pos _)
      have hexponent := (zpow_lt_zpow_iff_right₀ one_lt_two).mp hlt
      push_cast at hexponent
      omega
    · obtain rfl : e = -1074 := hnormal.resolve_left hmin
      have hlog : ¬m.log2 + 1 = 53 := by
        have hbits : m.log2 < 52 := (Nat.log2_lt hm.ne').mpr (Nat.not_le.mp hmin)
        omega
      rw [unpack_pack_finite le_rfl (by omega), if_neg hlog, Nat.mod_eq_of_lt (Nat.not_le.mp hmin),
        ofMantissa, dif_neg hm.ne']

/-- The leading bit of a mantissa. -/
theorem toNat_one_append (mantissa : BitVec 52) :
    (1#1 ++ mantissa).toNat = 2 ^ 52 + mantissa.toNat := by
  rw [BitVec.toNat_append, ← Nat.shiftLeft_add_eq_or_of_lt mantissa.isLt, Nat.shiftLeft_eq]
  rfl

/-- What has been unpacked is normal. -/
theorem normal_unpack (x : BitVec 64) : Normal (unpack Format.binary64 x) := by
  have hbias : (Format.binary64.exponentBias : ℤ) = 1023 := rfl
  have hlt := (@unpackMantissa Format.binary64 x).isLt
  unfold UnpackedFloat.unpack
  simp only
  split
  · split <;> trivial
  · split
    · next hzero =>
      split
      · trivial
      · -- the numbers with the least exponent
        have hexponent : ((@unpackExponent Format.binary64 x).toNat : ℤ) -
            (Format.binary64.exponentBias + (52 : ℕ)) + 1 = -1074 := by
          rw [hzero, hbias]
          rfl
        exact ⟨hlt.trans (by norm_num), hexponent.ge, .inr hexponent⟩
    · next hzero =>
      have hpos := BitVec.toNat_pos_of_ne_zero hzero
      have hmantissa := toNat_one_append (@unpackMantissa Format.binary64 x)
      refine ⟨?_, ?_, .inl ?_⟩
      · rw [hmantissa]
        omega
      · rw [hbias]
        omega
      · rw [hmantissa]
        exact Nat.le_add_right _ _

/-! ## The result of rounding -/

/-- The result of rounding `q`. -/
structure Rounds (q : ℚ) (f : UnpackedFloat) : Prop where
  normal : Normal f
  atMost : ∀ b, Representable b → |q| ≤ b → AtMost b f
  exact : Representable |q| → HasValue q f
  nonpos : q ≤ 0 → Nonpos f

/-- So does a rounded one. -/
theorem Rounds.unpack_pack (h : Rounds q f) (hq : |q| ≤ largest) :
    unpack Format.binary64 (pack Format.binary64 f) = f :=
  h.normal.unpack_pack (h.atMost _ representable_largest hq)

/-- A number is its own rounding. -/
theorem HasValue.rounds (h : HasValue q f) (hnormal : Normal f) : Rounds q f where
  normal := hnormal
  atMost := by
    intro b _ hb
    cases f with
    | infinity => exact h.elim
    | notANumber => exact h.elim
    | zero sign => exact (abs_nonneg q).trans hb
    | finite sign m e hm =>
      obtain rfl : q = sign.apply m * 2 ^ e := h
      rw [abs_mul, abs_apply, abs_of_pos (two_zpow_pos e)] at hb
      exact ⟨hnormal.2.1, hb⟩
  exact := fun _ => h
  nonpos := by
    intro hq
    cases f with
    | infinity => trivial
    | notANumber => trivial
    | zero sign => trivial
    | finite sign m e hm =>
      cases sign with
      | negative => rfl
      | positive =>
        have hpos : (0 : ℚ) < m * 2 ^ e := mul_pos (Nat.cast_pos.mpr hm) (two_zpow_pos e)
        obtain rfl : q = m * 2 ^ e := h
        exact absurd hq (not_le.mpr hpos)

/-- An integer is its sign and its absolute value. -/
theorem apply_natAbs (z : ℤ) :
    (if z < 0 then Sign.negative else Sign.positive).apply z.natAbs = z := by
  split
  · change -(z.natAbs : ℤ) = z
    omega
  · change (z.natAbs : ℤ) = z
    omega

/-- `round` keeps a negative sign. -/
theorem nonpos_round : Nonpos (UnpackedFloat.round Format.binary64 .negative m e) :=
  nonpos_roundWithAccuracy

/-- `normalize` rounds the exact value. -/
theorem rounds_normalize (z e : ℤ) (zeroSign : Sign) :
    Rounds (z * 2 ^ e) (UnpackedFloat.normalize Format.binary64 z e zeroSign) := by
  have habs : |(z : ℚ) * 2 ^ e| = |(z : ℚ)| * 2 ^ e := by
    rw [abs_mul, abs_of_pos (two_zpow_pos e)]
  by_cases hz : z = 0
  · subst hz
    have hzero : HasValue (((0 : ℤ) : ℚ) * 2 ^ e) (.zero zeroSign) := by
      rw [Int.cast_zero, zero_mul]
      rfl
    exact hzero.rounds trivial
  · refine ⟨?_, fun b hb hle => atMost_normalize hb (habs ▸ hle), fun hrep => ?_, fun hle => ?_⟩
    · rw [normalize_eq_round hz]
      exact normal_round (Int.natAbs_ne_zero.mpr hz) _
    · have hmantissa : |(z : ℚ)| = (z.natAbs : ℕ) := by
        rw [Nat.cast_natAbs, Int.cast_abs]
      rw [habs, hmantissa] at hrep
      have hvalue := hasValue_round hrep (if z < 0 then .negative else .positive)
      rwa [apply_natAbs, ← normalize_eq_round hz e zeroSign] at hvalue
    · have hneg : z < 0 := by
        have hle' : (z : ℚ) ≤ 0 := by
          by_contra hpos
          exact absurd hle (not_le.mpr (mul_pos (not_le.mp hpos) (two_zpow_pos e)))
        exact lt_of_le_of_ne (Int.cast_nonpos.mp hle') hz
      rw [normalize_eq_round hz, if_pos hneg]
      exact nonpos_round

/-! ## Differences -/

/-- The value of the opposite number. -/
theorem HasValue.neg (h : HasValue q f) : HasValue (-q) f.neg := by
  cases f with
  | infinity => exact h.elim
  | notANumber => exact h.elim
  | zero sign =>
    obtain rfl : q = 0 := h
    exact neg_zero
  | finite sign m e hm =>
    obtain rfl : q = sign.apply m * 2 ^ e := h
    change -(((sign.apply m : ℤ) : ℚ) * 2 ^ e) = ((-sign).apply m : ℤ) * 2 ^ e
    rw [sign_apply_neg, Int.cast_neg, neg_mul]

/-- The opposite of a normal number is normal. -/
theorem Normal.neg (h : Normal f) : Normal f.neg := by
  cases f with
  | infinity => trivial
  | notANumber => trivial
  | zero sign => trivial
  | finite sign m e hm => exact h

/-- The value of a mantissa whose exponent has been decreased. -/
theorem apply_decreaseExponent {target : ℤ} (sign : Sign) (hle : target ≤ e) :
    ((sign.apply (decreaseExponent m e target).1 : ℤ) : ℚ) * 2 ^ target =
      sign.apply m * 2 ^ e := by
  refine apply_mul_congr ?_ sign
  rw [← decreaseExponent_eq m e target, decreaseExponent_snd hle]

/-- Addition rounds the exact sum. -/
theorem rounds_add (hf : HasValue a f) (hg : HasValue b g) (hf' : Normal f) (hg' : Normal g) :
    Rounds (a + b) (UnpackedFloat.add Format.binary64 f g) := by
  cases f with
  | infinity => exact hf.elim
  | notANumber => exact hf.elim
  | zero sign =>
    obtain rfl : a = 0 := hf
    rw [zero_add]
    cases g with
    | infinity => exact hg.elim
    | notANumber => exact hg.elim
    | zero sign' =>
      obtain rfl : b = 0 := hg
      rw [UnpackedFloat.add]
      split <;> exact HasValue.rounds rfl trivial
    | finite sign' m e hm => exact hg.rounds hg'
  | finite sign m e hm =>
    cases g with
    | infinity => exact hg.elim
    | notANumber => exact hg.elim
    | zero sign' =>
      obtain rfl : b = 0 := hg
      rw [add_zero]
      exact hf.rounds hf'
    | finite sign' m' e' hm' =>
      obtain rfl : a = sign.apply m * 2 ^ e := hf
      obtain rfl : b = sign'.apply m' * 2 ^ e' := hg
      -- the mantissas are added after the exponents have been made equal
      rw [← apply_decreaseExponent sign (min_le_left e e'),
        ← apply_decreaseExponent sign' (min_le_right e e'), ← add_mul, ← Int.cast_add]
      exact rounds_normalize _ _ _

/-- Subtraction rounds the exact difference. -/
theorem rounds_sub (hf : HasValue a f) (hg : HasValue b g) (hf' : Normal f) (hg' : Normal g) :
    Rounds (a - b) (UnpackedFloat.sub Format.binary64 f g) := by
  rw [sub_eq_add, sub_eq_add_neg]
  exact rounds_add hf hg.neg hf' hg'.neg

/-! ## Integers -/

/-- The conversion to an integer truncates the mantissa. -/
theorem roundToInt_eq (sign : Sign) (m : ℕ) (e : ℤ) :
    roundToInt sign m e = sign.apply ((decreaseExponent m e 0).1 /
      2 ^ (0 - (decreaseExponent m e 0).2).toNat : ℕ) := by
  rw [roundToInt]
  simp only [shiftToExponent, mantissa_shiftRight, mantissa_ofMantissaAndAccuracy]

/-- An integer is not changed when the digits after the point are cut off. -/
theorem HasValue.toInt_eq {z : ℤ} (h : HasValue z f) (lo hi : ℤ) : f.toInt lo hi = z := by
  cases f with
  | infinity => exact h.elim
  | notANumber => exact h.elim
  | zero sign => exact (Int.cast_eq_zero.mp h).symm
  | finite sign m e hm =>
    have h : (z : ℚ) = sign.apply m * 2 ^ e := h
    have habs : (m : ℚ) * 2 ^ e = (z.natAbs : ℕ) := by
      rw [Nat.cast_natAbs, Int.cast_abs, h, abs_mul, abs_apply, abs_of_pos (two_zpow_pos e)]
    have hsign : sign.apply z.natAbs = z := by
      have hcongr : ((sign.apply z.natAbs : ℤ) : ℚ) * 2 ^ (0 : ℤ) = sign.apply m * 2 ^ e :=
        apply_mul_congr (by rw [zpow_zero, mul_one, habs]) sign
      rw [zpow_zero, mul_one, ← h] at hcongr
      exact Int.cast_inj.mp hcongr
    -- with an exponent that is not positive, the mantissa is a multiple of its denominator
    have hvalue := decreaseExponent_eq m e 0
    have hexponent : (decreaseExponent m e 0).2 =
        -((0 - (decreaseExponent m e 0).2).toNat : ℕ) := by
      rw [decreaseExponent]
      simp only
      omega
    change roundToInt sign m e = z
    rw [roundToInt_eq]
    generalize decreaseExponent m e 0 = p at hvalue hexponent ⊢
    generalize (0 - p.2).toNat = k at hexponent ⊢
    have hmantissa : p.1 = z.natAbs * 2 ^ k := by
      rw [habs, hexponent, zpow_neg, zpow_natCast, ← div_eq_mul_inv,
        div_eq_iff (pow_ne_zero k two_ne_zero)] at hvalue
      exact_mod_cast hvalue
    rw [hmantissa, Nat.mul_div_cancel _ (Nat.two_pow_pos k), hsign]

/-- A number that is not positive is not converted to a positive integer. -/
theorem Nonpos.toInt_nonpos (h : Nonpos f) (hfinite : AtMost b f) (lo hi : ℤ) :
    f.toInt lo hi ≤ 0 := by
  cases f with
  | infinity => exact hfinite.elim
  | notANumber => exact hfinite.elim
  | zero sign => exact Int.le_refl 0
  | finite sign m e hm =>
    obtain rfl : sign = .negative := h
    change roundToInt .negative m e ≤ 0
    rw [roundToInt_eq]
    exact Int.neg_nonpos_of_nonneg (Int.natCast_nonneg _)

end Values

/-! ## Operations on `double` -/

section Operations

variable {x y : Float} {a b q : ℚ}

/-- The `double` has this value. -/
def IsValue (q : ℚ) (x : Float) : Prop := HasValue q x.toModel.unpack

/-- The `double` is the result of rounding `q`. -/
def IsRounded (q : ℚ) (x : Float) : Prop := Rounds q x.toModel.unpack

/-- The difference of two values, rounded. -/
theorem IsValue.sub (hx : IsValue a x) (hy : IsValue b y) (hle : |a - b| ≤ largest) :
    IsRounded (a - b) (x - y) := by
  have hrounds := rounds_sub hx hy (normal_unpack _) (normal_unpack _)
  have hunpack : (x - y).toModel.unpack = _ := hrounds.unpack_pack hle
  rw [IsRounded, hunpack]
  exact hrounds

/-- Integers up to `2 ^ 53` are numbers of the format. -/
theorem representable_abs {z : ℤ} (h : z.natAbs ≤ 2 ^ 53) : Representable |(z : ℚ)| := by
  rw [← Int.cast_abs, ← Nat.cast_natAbs]
  rcases h.lt_or_eq with hlt | heq
  · exact ⟨z.natAbs, 0, hlt, by norm_num, by rw [zpow_zero, mul_one]⟩
  · exact ⟨1, 53, by norm_num, by norm_num, by rw [heq]; norm_num⟩

/-- Integers of 64 bits are not too large. -/
theorem abs_le_largest {z : ℤ} (h : z.natAbs < 2 ^ 64) : |(z : ℚ)| ≤ largest := by
  rw [← Int.cast_abs, ← Nat.cast_natAbs]
  have hpow : (2 : ℚ) ^ (64 : ℕ) ≤ 2 ^ (971 : ℤ) := by
    rw [← zpow_natCast]
    exact zpow_le_zpow_right₀ one_le_two (by norm_num)
  refine (Nat.cast_le.mpr h.le).trans ?_
  rw [largest]
  generalize (2 : ℚ) ^ (971 : ℤ) = x at hpow ⊢
  push_cast
  linarith

/-- The conversion from integers rounds. -/
theorem isRounded_ofInt {z : ℤ} (hle : |(z : ℚ)| ≤ largest) : IsRounded z (ofInt z) := by
  have hrounds := rounds_normalize z 0 .positive
  rw [zpow_zero, mul_one] at hrounds
  have hunpack : (ofInt z).toModel.unpack = _ := hrounds.unpack_pack hle
  rw [IsRounded, hunpack]
  exact hrounds

/-- The `double` that is nearest to an integer of the format. -/
theorem isValue_ofInt {z : ℤ} (h : Representable |(z : ℚ)|) (hle : |(z : ℚ)| ≤ largest) :
    IsValue z (ofInt z) :=
  (isRounded_ofInt hle).exact h

end Operations

end Binary64
