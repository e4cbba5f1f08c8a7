import StateTableBench.Collections.Quantile
import StateTableBench.LatencyNodes.ReaderResults

/-!
# Percentiles of latencies

`percentile` sorts its list in place, so that the calls for one summary share the list that the
first of them leaves. The index of the element that it returns depends on the number of values only:
`percentileBy` has it as a parameter. `percentile` computes it with `double`s, `exactPercentile`
without rounding.

`exactPercentile_isQuantile`, `exactPercentiles_eq_ok`: the exact results are the quantiles.
-/

open Binary64 Quantile

namespace LatencyNodes.StatUtils

/-- `percentile` with the index for a list of the given size, and the list that it leaves. -/
def percentileBy (indexOf : ℕ → Int32) (values : List (Option Int64)) :
    Except JavaException (Int64 × List (Option Int64)) := do
  let values ← values.mapM fun
    | some nb => .ok nb
    | none => .error .nullPointer
  let sorted := values.mergeSort fun a b => decide (a ≤ b)
  let index := indexOf values.length
  return (if index.toInt < values.length then sorted.getD index.toInt.toNat 0 else 0,
    sorted.map some)

/-- `percentile`, whose product is one of `double`s. -/
theorem percentile_eq (values : List (Option Int64)) (p : Float) :
    percentile values p =
      (percentileBy (fun n => (ofInt n * p).toModel.toInt32) values).map Prod.fst := by
  rw [percentile, percentileBy]
  cases values.mapM fun
    | some nb => (.ok nb : Except JavaException Int64)
    | none => .error .nullPointer with
  | error e => rfl
  | ok values => rfl

/-- `percentile` with the exact product and its exact floor. -/
def exactPercentile (values : List (Option Int64)) (p : ℚ) :
    Except JavaException (Int64 × List (Option Int64)) :=
  percentileBy (fun n => Int32.ofIntClamp ⌊n * p⌋) values

/-- Calls of `percentile` for one list after another. -/
def exactPercentiles : List ℚ → List (Option Int64) →
    Except JavaException (List Int64 × List (Option Int64))
  | [], values => .ok ([], values)
  | p :: ps, values => do
    let (r, values) ← exactPercentile values p
    let (rs, values) ← exactPercentiles ps values
    return (r :: rs, values)

/-- The list in ascending order. -/
def sorted (values : List Int64) : List Int64 := values.mergeSort fun a b => decide (a ≤ b)

variable {values values' : List Int64} {p : ℚ}

theorem sorted_perm (values : List Int64) : (sorted values).Perm values :=
  List.mergeSort_perm values _

theorem pairwise_sorted (values : List Int64) : (sorted values).Pairwise (· ≤ ·) := by
  have hpairwise : (sorted values).Pairwise fun a b => decide (a ≤ b) = true := by
    refine List.pairwise_mergeSort (fun a b c hab hbc => ?_) (fun a b => ?_) values
    · rw [decide_eq_true_eq] at hab hbc ⊢
      exact Std.le_trans hab hbc
    · rw [Bool.or_eq_true, decide_eq_true_eq, decide_eq_true_eq]
      exact Std.le_total
  exact hpairwise.imp of_decide_eq_true

/-- The order in which the values are given is forgotten. -/
theorem sorted_eq_of_perm (h : values.Perm values') : sorted values = sorted values' :=
  ((sorted_perm values).trans (h.trans (sorted_perm values').symm)).eq_of_pairwise
    (fun _ _ _ _ => Std.le_antisymm) (pairwise_sorted values) (pairwise_sorted values')

/-- An index within the list selects an element of the sorted list. -/
theorem percentileBy_eq_ok {indexOf : ℕ → Int32} {i : ℕ}
    (hindex : (indexOf values.length).toInt = i) (hi : i < values.length) :
    percentileBy indexOf (values.map some) =
      .ok ((sorted values).getD i 0, (sorted values).map some) := by
  have hlt : (indexOf values.length).toInt < values.length := by omega
  rw [percentileBy, mapM_unbox fun _ => rfl]
  change Except.ok (if (indexOf values.length).toInt < values.length then _ else _, _) = _
  rw [if_pos hlt, hindex, Int.toNat_natCast]
  rfl

/-- The exact index is within the list. -/
theorem toInt_ofIntClamp_floor (hp : 0 ≤ p) (hp' : p < 1) {n : ℕ} (hn : 0 < n) (hlt : n < 2 ^ 31) :
    (Int32.ofIntClamp ⌊(n : ℚ) * p⌋).toInt = (⌊p * n⌋₊ : ℕ) := by
  have hfloor : ⌊(n : ℚ) * p⌋ = (⌊p * n⌋₊ : ℕ) := by
    rw [mul_comm, Int.natCast_floor_eq_floor (mul_nonneg hp (Nat.cast_nonneg n))]
  have hindex := floor_mul_lt hp' hn
  rw [hfloor]
  apply Int32.toInt_ofIntClamp
  · rw [Int32.toInt_minValue]
    omega
  · rw [Int32.toInt_maxValue]
    omega

/-- `percentile` returns the quantile, and leaves the list sorted. -/
theorem exactPercentile_eq_ok (hpos : 0 < values.length) (hlt : values.length < 2 ^ 31)
    (hp : 0 ≤ p) (hp' : p < 1) :
    ∃ r, IsQuantile p values r ∧
      exactPercentile (values.map some) p = .ok (r, (sorted values).map some) := by
  have hfloor := floor_mul_lt hp' hpos
  have hlength : (sorted values).length = values.length := (sorted_perm values).length_eq
  have hfloor' : ⌊p * (sorted values).length⌋₊ < (sorted values).length := by rwa [hlength]
  refine ⟨_, (isQuantile_getElem (pairwise_sorted values) hp hfloor').perm (sorted_perm values), ?_⟩
  have hresult := @percentileBy_eq_ok values (fun n => Int32.ofIntClamp ⌊(n : ℚ) * p⌋) _
    (toInt_ofIntClamp_floor hp hp' hpos hlt) hfloor
  rw [exactPercentile, hresult]
  simp only [hlength]
  rw [List.getD_eq_getElem]

/-- With a product of `double`s, too, if its floor is the exact one for the size of the list. -/
theorem percentile_isQuantile {x : Float} (hpos : 0 < values.length)
    (hlt : values.length < 2 ^ 31) (hp : 0 ≤ p) (hp' : p < 1)
    (hindex : (ofInt values.length * x).toModel.toInt32 =
      Int32.ofIntClamp ⌊(values.length : ℚ) * p⌋) :
    ∃ r, IsQuantile p values r ∧ percentile (values.map some) x = .ok r := by
  obtain ⟨r, hr, hexact⟩ := exactPercentile_eq_ok hpos hlt hp hp'
  have hsame : percentileBy (fun n => (ofInt n * x).toModel.toInt32) (values.map some) =
      exactPercentile (values.map some) p := by
    have hresult := @percentileBy_eq_ok values (fun n => Int32.ofIntClamp ⌊(n : ℚ) * p⌋) _
      (toInt_ofIntClamp_floor hp hp' hpos hlt) (floor_mul_lt hp' hpos)
    rw [exactPercentile, hresult]
    refine @percentileBy_eq_ok values (fun n => (ofInt n * x).toModel.toInt32) _ ?_
      (floor_mul_lt hp' hpos)
    rw [hindex]
    exact toInt_ofIntClamp_floor hp hp' hpos hlt
  exact ⟨r, hr, by rw [percentile_eq, hsame, hexact]; rfl⟩

/-- The calls for one list after another return its quantiles, and leave it a permutation. -/
theorem exactPercentiles_eq_ok (hpos : 0 < values.length) (hlt : values.length < 2 ^ 31)
    {ps : List ℚ} (hps : ∀ p ∈ ps, 0 ≤ p ∧ p < 1) :
    ∃ rs left : List Int64, exactPercentiles ps (values.map some) = .ok (rs, left.map some) ∧
      List.Forall₂ (fun p r => IsQuantile p values r) ps rs ∧ left.Perm values := by
  -- each call finds the list as the call before has left it
  induction ps generalizing values with
  | nil => exact ⟨[], values, rfl, .nil, .rfl⟩
  | cons p ps ih =>
    obtain ⟨hp, hps⟩ := List.forall_mem_cons.mp hps
    have hperm := sorted_perm values
    have hpos' : 0 < (sorted values).length := hperm.length_eq.symm ▸ hpos
    have hlt' : (sorted values).length < 2 ^ 31 := hperm.length_eq.symm ▸ hlt
    obtain ⟨r, hr, hfirst⟩ := exactPercentile_eq_ok hpos hlt hp.1 hp.2
    obtain ⟨rs, left, hrest, hquantiles, hleft⟩ := ih hpos' hlt' hps
    refine ⟨r :: rs, left, ?_, .cons hr (hquantiles.imp fun _ _ h => h.perm hperm),
      hleft.trans hperm⟩
    rw [exactPercentiles, hfirst]
    change (exactPercentiles ps ((sorted values).map some) >>= _) = _
    rw [hrest]
    rfl

/-- `percentile` returns the quantile of its list in whatever order the values are given, and the
calls with increasing fractions for one list do not decrease. -/
theorem exactPercentile_isQuantile (hpos : 0 < values.length) (hlt : values.length < 2 ^ 31) :
    (∀ p, 0 ≤ p → p < 1 → ∃ (r : Int64) (left : List Int64), IsQuantile p values r ∧
      left.Perm values ∧ ∀ values' : List Int64, values'.Perm values →
        exactPercentile (values'.map some) p = .ok (r, left.map some)) ∧
    ∀ ps : List ℚ, (∀ p ∈ ps, 0 ≤ p ∧ p < 1) → ps.Pairwise (· ≤ ·) →
      ∃ rs left : List Int64, exactPercentiles ps (values.map some) = .ok (rs, left.map some) ∧
        List.Forall₂ (fun p r => IsQuantile p values r) ps rs ∧ rs.Pairwise (· ≤ ·) ∧
        left.Perm values := by
  constructor
  · intro p hp hp'
    obtain ⟨r, hr, -⟩ := exactPercentile_eq_ok hpos hlt hp hp'
    refine ⟨r, sorted values, hr, sorted_perm values, fun values' hperm => ?_⟩
    have hpos' : 0 < values'.length := hperm.length_eq.symm ▸ hpos
    have hlt' : values'.length < 2 ^ 31 := hperm.length_eq.symm ▸ hlt
    obtain ⟨r', hr', hresult⟩ := exactPercentile_eq_ok hpos' hlt' hp hp'
    -- both results are the quantile of the same values
    rw [hresult, (hr'.perm hperm).unique hr, sorted_eq_of_perm hperm]
  · intro ps hps hincreasing
    obtain ⟨rs, left, hresult, hquantiles, hleft⟩ := exactPercentiles_eq_ok hpos hlt hps
    exact ⟨rs, left, hresult, hquantiles, pairwise_of_isQuantile hquantiles hincreasing, hleft⟩

/-- Three latencies in two orders, and the three fractions of a summary. -/
theorem exactPercentile_three :
    (∃ (r : Int64) (left : List Int64),
      exactPercentile ([30, 10, 20].map some) (1 / 2) = .ok (r, left.map some) ∧
      exactPercentile ([10, 20, 30].map some) (1 / 2) = .ok (r, left.map some)) ∧
    ∃ rs left : List Int64, rs.Pairwise (· ≤ ·) ∧
      exactPercentiles [95 / 100, 99 / 100, 9999 / 10000] ([30, 10, 20].map some) =
        .ok (rs, left.map some) := by
  obtain ⟨hone, hmany⟩ := @exactPercentile_isQuantile [30, 10, 20] (by decide) (by decide)
  obtain ⟨r, left, -, -, hresult⟩ := hone (1 / 2) (by norm_num) (by norm_num)
  obtain ⟨rs, left', hresults, -, hpairwise, -⟩ :=
    hmany [95 / 100, 99 / 100, 9999 / 10000] (by norm_num) (by norm_num)
  exact ⟨⟨r, left, hresult _ .rfl, hresult [10, 20, 30] (by decide)⟩, rs, left', hpairwise,
    hresults⟩

end LatencyNodes.StatUtils
