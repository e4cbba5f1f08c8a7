import Mathlib.Data.Rat.Floor
import Mathlib.Tactic.Linarith

/-!
# Quantiles of a list

A quantile of a list at a fraction `p` is an element that separates it there: at most a fraction `p`
of the elements are smaller, and more than that are smaller or equal. The order is any linear order
in the sense of `Std`.

* `IsQuantile.mono`, `IsQuantile.unique` — quantiles are ordered like their fractions, so that there
  is at most one at each;
* `IsQuantile.perm` — the order of the elements in the list does not matter;
* `isQuantile_getElem` — in a sorted list it is the element at the index `⌊p * n⌋`.
-/

namespace Quantile

variable {α : Type} [LE α] [LT α] [DecidableLE α] [DecidableLT α]

/-- The quantile `r` of a list at `p`. -/
structure IsQuantile (p : ℚ) (l : List α) (r : α) : Prop where
  mem : r ∈ l
  /-- At most `p * n` elements are smaller. -/
  countP_lt_le : (l.countP (· < r) : ℚ) ≤ p * l.length
  /-- More than `p * n` elements are smaller or equal. -/
  lt_countP_le : p * l.length < (l.countP (· ≤ r) : ℚ)

variable {p q : ℚ} {l l' : List α} {r s : α}

/-- The order of the sample is irrelevant to its quantiles. -/
theorem IsQuantile.perm (h : IsQuantile p l r) (hperm : l.Perm l') : IsQuantile p l' r where
  mem := hperm.mem_iff.mp h.mem
  countP_lt_le := by
    rw [← hperm.countP_eq, ← hperm.length_eq]
    exact h.countP_lt_le
  lt_countP_le := by
    rw [← hperm.countP_eq, ← hperm.length_eq]
    exact h.lt_countP_le

/-- The index of a quantile is an index of the list. -/
theorem floor_mul_lt (hp : p < 1) {n : ℕ} (hn : 0 < n) : ⌊p * n⌋₊ < n := by
  have hpos : (0 : ℚ) < n := Nat.cast_pos.mpr hn
  rw [Nat.floor_lt' hn.ne']
  exact mul_lt_of_lt_one_left hpos hp

variable [Std.IsLinearOrder α] [Std.LawfulOrderLT α]

/-- The quantiles of a list are ordered like their fractions. -/
theorem IsQuantile.mono (hr : IsQuantile p l r) (hs : IsQuantile q l s) (hle : p ≤ q) : r ≤ s := by
  rw [← Std.not_lt]
  intro hlt
  -- what is at most `s` is smaller than `r`
  have hcount : l.countP (· ≤ s) ≤ l.countP (· < r) := by
    refine List.countP_mono_left fun x _ hx => ?_
    rw [decide_eq_true_eq] at hx ⊢
    exact Std.lt_of_le_of_lt hx hlt
  have hcount' : (l.countP (· ≤ s) : ℚ) ≤ l.countP (· < r) := Nat.cast_le.mpr hcount
  have hmul : p * (l.length : ℚ) ≤ q * l.length :=
    mul_le_mul_of_nonneg_right hle (Nat.cast_nonneg _)
  have hbelow := hr.countP_lt_le
  have habove := hs.lt_countP_le
  linarith

/-- A sample has one quantile at a fraction. -/
theorem IsQuantile.unique (hr : IsQuantile p l r) (hs : IsQuantile p l s) : r = s :=
  Std.le_antisymm (hr.mono hs le_rfl) (hs.mono hr le_rfl)

/-- The quantiles at increasing fractions do not decrease. -/
theorem pairwise_of_isQuantile {ps : List ℚ} {rs : List α}
    (h : List.Forall₂ (fun p r => IsQuantile p l r) ps rs) (hps : ps.Pairwise (· ≤ ·)) :
    rs.Pairwise (· ≤ ·) := by
  induction h with
  | nil => exact List.Pairwise.nil
  | @cons p r ps rs hr hrest ih =>
    obtain ⟨hle, hps⟩ := List.pairwise_cons.mp hps
    refine List.pairwise_cons.mpr ⟨fun s hs => ?_, ih hps⟩
    obtain ⟨i, hi, rfl⟩ := List.getElem_of_mem hs
    obtain ⟨hlength, hget⟩ := List.forall₂_iff_get.mp hrest
    have hi' : i < ps.length := hlength ▸ hi
    exact hr.mono (hget i hi' hi) (hle _ (List.getElem_mem hi'))

section Sorted

variable (hsorted : l.Pairwise (· ≤ ·)) {i : ℕ} (hi : i < l.length)
include hsorted

omit [DecidableLE α] in
/-- In a sorted list only elements before an index are smaller than the element there. -/
theorem countP_lt_getElem_le : l.countP (· < l[i]) ≤ i := by
  have hafter : (l.drop i).countP (· < l[i]) = 0 := by
    refine List.countP_eq_zero.mpr fun x hx => ?_
    obtain ⟨j, hj, rfl⟩ := List.getElem_of_mem hx
    rw [decide_eq_true_eq, Std.not_lt, List.getElem_drop]
    rcases Nat.eq_zero_or_pos j with rfl | hpos
    · exact Std.le_refl _
    · exact List.pairwise_iff_getElem.mp hsorted _ _ _ _ (by omega)
  calc l.countP (· < l[i]) = (l.take i).countP (· < l[i]) + (l.drop i).countP (· < l[i]) := by
        rw [← List.countP_append, List.take_append_drop]
    _ = (l.take i).countP (· < l[i]) := by rw [hafter, Nat.add_zero]
    _ ≤ (l.take i).length := List.countP_le_length
    _ ≤ i := List.length_take_le _ _

omit [LT α] [DecidableLT α] [Std.LawfulOrderLT α] in
/-- In a sorted list all elements up to an index are at most the element there. -/
theorem lt_countP_le_getElem : i < l.countP (· ≤ l[i]) := by
  have hbefore : (l.take (i + 1)).countP (· ≤ l[i]) = i + 1 := by
    refine (List.countP_eq_length.mpr fun x hx => ?_).trans (List.length_take_of_le hi)
    obtain ⟨j, hj, rfl⟩ := List.getElem_of_mem hx
    rw [List.length_take_of_le hi] at hj
    rw [decide_eq_true_eq, List.getElem_take]
    rcases Nat.lt_succ_iff_lt_or_eq.mp hj with hlt | rfl
    · exact List.pairwise_iff_getElem.mp hsorted _ _ _ _ hlt
    · exact Std.le_refl _
  have hle : (l.take (i + 1)).countP (· ≤ l[i]) ≤ l.countP (· ≤ l[i]) :=
    (List.take_sublist _ _).countP_le
  omega

/-- The quantile of a sorted list. -/
theorem isQuantile_getElem (hp : 0 ≤ p) (hi : ⌊p * l.length⌋₊ < l.length) :
    IsQuantile p l l[⌊p * l.length⌋₊] where
  mem := List.getElem_mem hi
  countP_lt_le := by
    have hcount := countP_lt_getElem_le hsorted hi
    have hfloor : (⌊p * l.length⌋₊ : ℚ) ≤ p * l.length :=
      Nat.floor_le (mul_nonneg hp (Nat.cast_nonneg _))
    exact (Nat.cast_le.mpr hcount).trans hfloor
  lt_countP_le := by
    have hcount := lt_countP_le_getElem hsorted hi
    have hsucc : ((⌊p * l.length⌋₊ + 1 : ℕ) : ℚ) ≤ l.countP (· ≤ l[⌊p * l.length⌋₊]) :=
      Nat.cast_le.mpr hcount
    have hfloor := Nat.lt_floor_add_one (p * (l.length : ℚ))
    push_cast at hsucc
    linarith

end Sorted

end Quantile
