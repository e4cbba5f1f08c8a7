import StateTableBench.LatencyNodes.Nodes
import Mathlib.Algebra.Order.Round
import Mathlib.Data.Rat.Floor
import Mathlib.Tactic.Linarith
import Mathlib.Tactic.FieldSimp

/-!
# The loop of a paced writer

`WriterNode.run` writes in intervals: it computes how many entries belong to an interval, and in
each round of its loop it writes as many and sleeps. The loop ends when at least `numberOfWrites`
entries are written.

`WriterNode.writesAll_iff`: the loop ends with `numberOfWrites` writes exactly if the number of
writes per interval is a divisor of it. It does not end if there is something to write and the
number of writes per interval is rounded to zero, and if there is a remainder then the last
interval writes too much.
-/

namespace LatencyNodes.WriterNode

variable {κ : Type} {map : String} {draw : ℕ → κ}

/-- `Math.round(((this.writesPerSecond / 1000000.0) * this.writeInterval))`, where the product is
computed exactly. Halves are rounded up. -/
def writesPerInterval (writesPerSecond writeInterval : ℤ) : ℤ :=
  round ((writesPerSecond / 1000000 : ℚ) * writeInterval)

/-- The loop of `WriterNode.run`: the calls of `writeEntry` of the rounds that are left, or `none`
if there are more than `fuel` of them. The sleep after a round only takes time, and `written` stays
far below the bounds of a `long`. -/
def runLoop (map : String) (draw : ℕ → κ) (numberOfWrites writesPerInterval : ℤ) :
    ℕ → ℕ → ℤ → Option (List (NodeOp κ))
  | 0, _, _ => none
  | fuel + 1, next, written =>
    if written < numberOfWrites then do
      let rest ← runLoop map draw numberOfWrites writesPerInterval fuel
        (next + writesPerInterval.toNat) (written + writesPerInterval)
      return writeEntries .run map draw next writesPerInterval.toNat ++ rest
    else return []

/-! ## Rounds -/

/-- The entries are written one after the other. -/
theorem writeEntries_append (callback : Callback) (first count count' : ℕ) :
    writeEntries callback map draw first count ++
        writeEntries callback map draw (first + count) count' =
      writeEntries callback map draw first (count + count') := by
  simp [writeEntries, List.range_add, Function.comp_def, Nat.add_assoc]

theorem length_writeEntries (callback : Callback) (first count : ℕ) :
    (writeEntries callback map draw first count).length = count := by
  simp [writeEntries]

section Rounds

variable {n q : ℤ}

/-- With nothing to write no interval begins. -/
theorem intervals_of_nonpos (h : n ≤ 0) : intervals n q = 0 := by
  unfold intervals
  split
  · next hq =>
    have hlt : (n + q - 1) / q < 1 := Int.ediv_lt_of_lt_mul hq (by omega)
    omega
  · rfl

/-- One interval is left less after a round. -/
theorem intervals_of_pos (hn : 0 < n) (hq : 0 < q) : intervals n q = intervals (n - q) q + 1 := by
  unfold intervals
  rw [if_pos hq, if_pos hq]
  have hsplit : n + q - 1 = (n - q + q - 1) + 1 * q := by ring
  have hnonneg : 0 ≤ (n - q + q - 1) / q := Int.ediv_nonneg (by omega) (by omega)
  rw [hsplit, Int.add_mul_ediv_right _ _ (by omega)]
  omega

/-- What is written in all intervals is what is asked for if nothing is left over. -/
theorem intervals_mul_eq_iff (hn : 0 < n) (hq : 0 < q) :
    ((intervals n q * q.toNat : ℕ) : ℤ) = n ↔ q ∣ n := by
  have hnonneg : 0 ≤ (n + q - 1) / q := Int.ediv_nonneg (by omega) (by omega)
  have hcast : ((intervals n q * q.toNat : ℕ) : ℤ) = (n + q - 1) / q * q := by
    rw [Nat.cast_mul, intervals, if_pos hq, Int.toNat_of_nonneg hnonneg,
      Int.toNat_of_nonneg hq.le]
  rw [hcast]
  constructor
  · intro heq
    exact ⟨(n + q - 1) / q, by rw [Int.mul_comm, heq]⟩
  · rintro ⟨k, rfl⟩
    have hsmall : (q - 1) / q = 0 := Int.ediv_eq_zero_of_lt (by omega) (by omega)
    have hdiv : (q * k + q - 1) / q = k := by
      rw [show q * k + q - 1 = q - 1 + k * q by ring, Int.add_mul_ediv_right _ _ (by omega),
        hsmall, Int.zero_add]
    rw [hdiv, Int.mul_comm]

end Rounds

/-! ## The loop -/

section Loop

variable {numberOfWrites q : ℤ}

/-- What the loop writes, if it ends. -/
theorem eq_of_runLoop {fuel next : ℕ} {written : ℤ} {ops : List (NodeOp κ)}
    (h : runLoop map draw numberOfWrites q fuel next written = some ops) :
    ops = writeEntries .run map draw next
      (intervals (numberOfWrites - written) q * q.toNat) := by
  induction fuel generalizing next written ops with
  | zero => cases h
  | succ fuel ih =>
    rw [runLoop] at h
    split at h
    · next hlt =>
      obtain ⟨rest, hrest, hops⟩ := Option.bind_eq_some_iff.mp h
      rw [← Option.some.inj hops, ih hrest, writeEntries_append, ← Int.sub_sub]
      by_cases hq : 0 < q
      · have hleft : 0 < numberOfWrites - written := by omega
        rw [intervals_of_pos hleft hq, Nat.add_mul, Nat.one_mul, Nat.add_comm]
      · rw [Int.toNat_of_nonpos (by omega), Nat.mul_zero, Nat.mul_zero]
    · rw [← Option.some.inj h, intervals_of_nonpos (by omega), Nat.zero_mul]
      rfl

/-- The loop does not end if it does not advance. -/
theorem runLoop_eq_none (hq : q ≤ 0) {written : ℤ} (hlt : written < numberOfWrites)
    (fuel next : ℕ) : runLoop map draw numberOfWrites q fuel next written = none := by
  induction fuel generalizing next written with
  | zero => rfl
  | succ fuel ih =>
    rw [runLoop, if_pos hlt, ih (by omega)]
    rfl

variable (map draw numberOfWrites) in
/-- Otherwise it ends. -/
theorem exists_runLoop (hq : 0 < q) (next : ℕ) (written : ℤ) :
    ∃ fuel ops, runLoop map draw numberOfWrites q fuel next written = some ops := by
  -- induction on what is left to be written
  induction hleft : (numberOfWrites - written).toNat using Nat.strong_induction_on
    generalizing next written with
  | _ left ih =>
    by_cases hlt : written < numberOfWrites
    · obtain ⟨fuel, rest, hrest⟩ := ih _ (by omega) (next + q.toNat) (written + q) rfl
      exact ⟨fuel + 1, _, by rw [runLoop, if_pos hlt, hrest]; rfl⟩
    · exact ⟨1, [], by rw [runLoop, if_neg hlt]; rfl⟩

/-- The number of writes of `WriterNode.run`. -/
theorem length_run (numberOfWarmupWrites numberOfWrites q : ℤ) :
    (run map draw numberOfWarmupWrites numberOfWrites q).length =
      intervals numberOfWrites q * q.toNat :=
  length_writeEntries _ _ _

/-- The loop of a node that has done its warmup writes what `WriterNode.run` says. -/
theorem run_eq_of_runLoop {fuel : ℕ} {numberOfWarmupWrites : ℤ} {ops : List (NodeOp κ)}
    (h : runLoop map draw numberOfWrites q fuel numberOfWarmupWrites.toNat 0 = some ops) :
    ops = run map draw numberOfWarmupWrites numberOfWrites q := by
  rw [eq_of_runLoop h, run, Int.sub_zero]

end Loop

/-! ## All writes -/

/-- The number of writes per interval, if the interval is given in milliseconds. -/
theorem writesPerInterval_milliseconds (writesPerSecond milliseconds : ℤ) :
    writesPerInterval writesPerSecond (milliseconds * 1000) =
      (writesPerSecond * milliseconds + 500) / 1000 := by
  have hexact : ((writesPerSecond / 1000000 : ℚ) * (milliseconds * 1000 : ℤ)) + 1 / 2 =
      ((writesPerSecond * milliseconds + 500 : ℤ) : ℚ) / ((1000 : ℕ) : ℚ) := by
    push_cast
    field_simp
    ring
  rw [writesPerInterval, round_eq, hexact, Rat.floor_intCast_div_natCast]
  rfl

/-- The loop ends, and `writeEntry` is called `numberOfWrites` times. -/
def WritesAll (map : String) (draw : ℕ → κ)
    (writesPerSecond writeInterval numberOfWarmupWrites numberOfWrites : ℤ) : Prop :=
  ∃ fuel ops, runLoop map draw numberOfWrites (writesPerInterval writesPerSecond writeInterval)
    fuel numberOfWarmupWrites.toNat 0 = some ops ∧ (ops.length : ℤ) = numberOfWrites

/-- All writes are done exactly if there are none, or the number of writes per interval is not
rounded to zero and divides the number of writes. -/
theorem writesAll_iff (map : String) (draw : ℕ → κ)
    (writesPerSecond milliseconds numberOfWarmupWrites numberOfWrites : ℤ)
    (hrate : 1 ≤ writesPerSecond) (hinterval : 1 ≤ milliseconds) (hwrites : 0 ≤ numberOfWrites) :
    WritesAll map draw writesPerSecond (milliseconds * 1000) numberOfWarmupWrites numberOfWrites ↔
      numberOfWrites = 0 ∨
        500 ≤ writesPerSecond * milliseconds ∧
          (writesPerSecond * milliseconds + 500) / 1000 ∣ numberOfWrites := by
  have hpos : 0 < writesPerSecond * milliseconds := Int.mul_pos (by omega) (by omega)
  rw [WritesAll, writesPerInterval_milliseconds]
  generalize writesPerSecond * milliseconds = product at hpos ⊢
  generalize hq : (product + 500) / 1000 = q
  have hrounds : 500 ≤ product ↔ 0 < q := by omega
  rw [hrounds]
  constructor
  · rintro ⟨fuel, ops, hloop, hlength⟩
    rw [run_eq_of_runLoop hloop, length_run] at hlength
    rcases hwrites.eq_or_lt with hzero | hsome
    · exact .inl hzero.symm
    · -- the loop has ended, hence it has advanced
      have hadvance : 0 < q := by
        by_contra hstuck
        rw [runLoop_eq_none (by omega) hsome] at hloop
        cases hloop
      exact .inr ⟨hadvance, (intervals_mul_eq_iff hsome hadvance).mp hlength⟩
  · rintro (hzero | ⟨hadvance, hdvd⟩)
    · exact ⟨1, [], by rw [runLoop, if_neg (by omega)]; rfl, by simp [hzero]⟩
    · obtain ⟨fuel, ops, hloop⟩ := exists_runLoop map draw numberOfWrites hadvance
        numberOfWarmupWrites.toNat 0
      refine ⟨fuel, ops, hloop, ?_⟩
      rw [run_eq_of_runLoop hloop, length_run]
      rcases hwrites.eq_or_lt with hzero | hsome
      · rw [← hzero, intervals_of_nonpos le_rfl, Nat.zero_mul]
        rfl
      · exact (intervals_mul_eq_iff hsome hadvance).mpr hdvd

/-- Ten writes a second in intervals of 200 milliseconds: two writes in each of three rounds. -/
theorem writesAll_six :
    WritesAll "map" (fun i => i) 10 (200 * 1000) 0 6 :=
  (writesAll_iff "map" (fun i => i) 10 200 0 6 (by decide) (by decide) (by decide)).mpr
    (.inr ⟨by decide, by decide⟩)

/-- At one write a second in intervals of a millisecond, a single write is never done. At 1000
writes a second in intervals of three milliseconds, ten writes become twelve. -/
theorem not_writesAll_slow_and_remainder :
    (∀ fuel, runLoop "map" (fun i => i) 1 (writesPerInterval 1 (1 * 1000)) fuel 0 0 = none) ∧
    (∃ fuel ops, runLoop "map" (fun i => i) 10 (writesPerInterval 1000 (3 * 1000)) fuel 0 0 =
      some ops ∧ ops.length = 12) ∧
    ¬WritesAll "map" (fun i => i) 1 (1 * 1000) 0 1 ∧
    ¬WritesAll "map" (fun i => i) 1000 (3 * 1000) 0 10 := by
  have hnever : ∀ fuel,
      runLoop "map" (fun i => i) 1 (writesPerInterval 1 (1 * 1000)) fuel 0 0 = none := by
    intro fuel
    rw [writesPerInterval_milliseconds]
    exact runLoop_eq_none (by decide) (by decide) fuel 0
  refine ⟨hnever, ⟨5, writeEntries .run "map" (fun i => i) 0 12, ?_, rfl⟩, ?_, ?_⟩
  · rw [writesPerInterval_milliseconds]
    decide
  · rintro ⟨fuel, ops, hloop, -⟩
    have hnone := hnever fuel
    rw [Int.toNat_zero, hnone] at hloop
    cases hloop
  · rintro ⟨fuel, ops, hloop, hlength⟩
    rw [eq_of_runLoop hloop, length_writeEntries, writesPerInterval_milliseconds] at hlength
    exact absurd hlength (by decide)

end LatencyNodes.WriterNode
