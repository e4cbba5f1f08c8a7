import Mathlib.Algebra.Group.Int.Defs
import Mathlib.Algebra.Group.Nat.Defs
import Mathlib.Tactic.Common

/-!
# Arithmetic on `int`

The operators of a 32-bit `int` wrap around. They agree with the integer operations as long as
the result is the value of an `int` (`FitsInt`), and division and remainder of non-negative
values agree with those of the natural numbers.

`intRange n` lists the values of a loop `for (int i = 0; i < n; i++)`.
-/

/-- The integer is the value of an `int`. -/
def FitsInt (z : ℤ) : Prop := -2 ^ 31 ≤ z ∧ z < 2 ^ 31

instance (z : ℤ) : Decidable (FitsInt z) := by
  unfold FitsInt
  infer_instance

namespace Int32

variable {a b : Int32}

/-- Values in the range of an `int` do not wrap around. -/
theorem bmod_of_fitsInt {z : ℤ} (h : FitsInt z) : z.bmod (2 ^ 32) = z := by
  obtain ⟨hle, hlt⟩ := h
  rw [Int.bmod_def]
  split <;> omega

/-- A sum that fits is exact. -/
theorem toInt_add_of_fitsInt (h : FitsInt (a.toInt + b.toInt)) :
    (a + b).toInt = a.toInt + b.toInt := by
  rw [toInt_add, bmod_of_fitsInt h]

/-- A difference that fits is exact. -/
theorem toInt_sub_of_fitsInt (h : FitsInt (a.toInt - b.toInt)) :
    (a - b).toInt = a.toInt - b.toInt := by
  rw [toInt_sub, bmod_of_fitsInt h]

/-- A product that fits is exact. -/
theorem toInt_mul_of_fitsInt (h : FitsInt (a.toInt * b.toInt)) :
    (a * b).toInt = a.toInt * b.toInt := by
  rw [toInt_mul, bmod_of_fitsInt h]

/-- A sum outside the range of an `int`, but below `2 ^ 32`, becomes negative. -/
theorem toInt_add_neg (hle : 2 ^ 31 ≤ a.toInt + b.toInt) (hlt : a.toInt + b.toInt < 2 ^ 32) :
    (a + b).toInt < 0 := by
  rw [toInt_add, Int.bmod_def]
  split <;> omega

/-- A product outside the range of an `int`, but below `2 ^ 32`, becomes negative. -/
theorem toInt_mul_neg (hle : 2 ^ 31 ≤ a.toInt * b.toInt) (hlt : a.toInt * b.toInt < 2 ^ 32) :
    (a * b).toInt < 0 := by
  rw [toInt_mul, Int.bmod_def]
  split <;> omega

theorem le_one_of_toInt_neg (h : a.toInt < 0) : a ≤ 1 := by
  rw [le_iff_toInt_le, toInt_one]
  omega

section Naturals

variable {m n : ℕ}

/-- Sum of non-negative values. -/
theorem toInt_add_natCast (ha : a.toInt = m) (hb : b.toInt = n) (h : m + n < 2 ^ 31) :
    (a + b).toInt = (m + n : ℕ) := by
  have hfits : FitsInt (a.toInt + b.toInt) := by
    rw [ha, hb]
    exact ⟨by omega, by omega⟩
  rw [toInt_add_of_fitsInt hfits, ha, hb, Int.natCast_add]

/-- Product of non-negative values. -/
theorem toInt_mul_natCast (ha : a.toInt = m) (hb : b.toInt = n) (h : m * n < 2 ^ 31) :
    (a * b).toInt = (m * n : ℕ) := by
  have hfits : FitsInt (a.toInt * b.toInt) := by
    rw [ha, hb, ← Int.natCast_mul]
    exact ⟨by omega, by omega⟩
  rw [toInt_mul_of_fitsInt hfits, ha, hb, Int.natCast_mul]

/-- Difference of non-negative values. -/
theorem toInt_sub_natCast (ha : a.toInt = m) (hb : b.toInt = n) (h : n ≤ m) :
    (a - b).toInt = (m - n : ℕ) := by
  have hlt := a.toInt_lt
  have hfits : FitsInt (a.toInt - b.toInt) := by
    rw [ha, hb]
    exact ⟨by omega, by omega⟩
  rw [toInt_sub_of_fitsInt hfits, ha, hb, Int.natCast_sub h]

/-- Division of non-negative values. -/
theorem toInt_div_natCast (ha : a.toInt = m) (hb : b.toInt = n) :
    (a / b).toInt = (m / n : ℕ) := by
  have hne : b ≠ -1 := by
    rintro rfl
    have hneg : (-1 : Int32).toInt = -1 := rfl
    omega
  rw [toInt_div_of_ne_right a b hne, ha, hb, Int.ofNat_tdiv]

/-- Remainder of non-negative values. -/
theorem toInt_mod_natCast (ha : a.toInt = m) (hb : b.toInt = n) :
    (a % b).toInt = (m % n : ℕ) := by
  rw [toInt_mod, ha, hb, Int.ofNat_tmod]

/-- A non-negative value is a natural number. -/
theorem exists_natCast_of_nonneg (h : 0 ≤ a) : ∃ n : ℕ, n < 2 ^ 31 ∧ a.toInt = n := by
  have hle : 0 ≤ a.toInt := le_iff_toInt_le.mp h
  have hlt := a.toInt_lt
  exact ⟨a.toInt.toNat, by omega, by omega⟩

/-- Non-negative values compare as natural numbers. -/
theorem lt_iff_of_natCast (ha : a.toInt = m) (hb : b.toInt = n) : a < b ↔ m < n := by
  rw [lt_iff_toInt_lt, ha, hb, Int.ofNat_lt]

theorem le_iff_of_natCast (ha : a.toInt = m) (hb : b.toInt = n) : a ≤ b ↔ m ≤ n := by
  rw [le_iff_toInt_le, ha, hb, Int.ofNat_le]

theorem nonneg_of_natCast (ha : a.toInt = m) : 0 ≤ a := by
  rw [le_iff_toInt_le, ha]
  exact Int.natCast_nonneg m

theorem eq_iff_of_natCast (ha : a.toInt = m) (hb : b.toInt = n) : a = b ↔ m = n := by
  rw [← toInt_inj, ha, hb, Int.ofNat_inj]

/-- A non-negative value is the one that its number is converted to. -/
theorem eq_ofNat_of_natCast (ha : a.toInt = m) : a = ofNat m := by
  have hlt := a.toInt_lt
  rw [← toInt_inj, toInt_ofNat_of_lt (by omega), ha]

theorem toNatClampNeg_of_natCast (ha : a.toInt = m) : a.toNatClampNeg = m := by
  rw [← toNat_toInt, ha, Int.toNat_natCast]

theorem toInt_zero_natCast : (0 : Int32).toInt = (0 : ℕ) := rfl

theorem toInt_one_natCast : (1 : Int32).toInt = (1 : ℕ) := rfl

end Naturals

end Int32

/-- The values of `i` in the loop `for (int i = 0; i < n; i++)`. -/
def intRange (n : Int32) : List Int32 := (List.range n.toNatClampNeg).map Int32.ofNat

/-- The loop runs over the values from zero up to the bound. -/
theorem mem_intRange {n i : Int32} : i ∈ intRange n ↔ 0 ≤ i ∧ i < n := by
  rw [intRange, List.mem_map]
  constructor
  · rintro ⟨k, hk, rfl⟩
    rw [List.mem_range, ← Int32.toNat_toInt] at hk
    have hlt := n.toInt_lt
    have htoInt : (Int32.ofNat k).toInt = k := Int32.toInt_ofNat_of_lt (by omega)
    rw [Int32.le_iff_toInt_le, Int32.lt_iff_toInt_lt, htoInt, Int32.toInt_zero]
    omega
  · rintro ⟨hle, hlt⟩
    obtain ⟨k, hk, hi⟩ := Int32.exists_natCast_of_nonneg hle
    rw [Int32.lt_iff_toInt_lt, hi] at hlt
    refine ⟨k, ?_, (Int32.eq_ofNat_of_natCast hi).symm⟩
    rw [List.mem_range, ← Int32.toNat_toInt]
    omega

/-- Loop rule: an invariant `I k` of the state before iteration `k` that no iteration breaks or
throws in holds with `k = n` after the loop, which returns. -/
theorem foldlM_intRange {σ ε : Type} {n : Int32} {m : ℕ} (hn : n.toInt = m)
    (body : σ → Int32 → Except ε σ) (I : ℕ → σ → Prop) {s : σ} (hinit : I 0 s)
    (hstep : ∀ (i : Int32) (k : ℕ), i.toInt = k → k < m → ∀ s, I k s →
      ∃ s', body s i = .ok s' ∧ I (k + 1) s') :
    ∃ s', (intRange n).foldlM body s = .ok s' ∧ I m s' := by
  have hlt := n.toInt_lt
  rw [intRange, Int32.toNatClampNeg_of_natCast hn]
  -- the loop over the first `k` values, for every `k` up to `m`
  have hall : ∀ k ≤ m, ∃ s', ((List.range k).map Int32.ofNat).foldlM body s = .ok s' ∧ I k s' := by
    intro k
    induction k with
    | zero => exact fun _ => ⟨s, rfl, hinit⟩
    | succ k ih =>
      intro hk
      obtain ⟨s', hs', hI⟩ := ih (Nat.le_of_succ_le hk)
      obtain ⟨s'', hs'', hI'⟩ := hstep (Int32.ofNat k) k
        (Int32.toInt_ofNat_of_lt (by omega)) hk s' hI
      refine ⟨s'', ?_, hI'⟩
      rw [List.range_succ, List.map_append, List.foldlM_append, hs']
      simp only [List.map_cons, List.map_nil, List.foldlM_cons, List.foldlM_nil, bind_pure]
      exact hs''
  exact hall m (Nat.le_refl m)
