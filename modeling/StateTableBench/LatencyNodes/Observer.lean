import StateTableBench.ArpMergedMap.Formats
import StateTableBench.Mpi.Arrays

/-!
# The observer of a map

`ArpMergedMapObserver` counts the events of one map. The first `totalWarmup` events only warm up;
each later one is a benchmark write, whose latency goes to the next cell of `latencies`. The two
latches belong to the reader: the observer counts each of them down once.

An event carries no number, so all depends on the counting. `Observes` is what it amounts to: if
`totalExpected` is the value of an `int`, the row holds the latencies of all events after the
warmup.
-/

open ArpMergedMap

namespace LatencyNodes

variable {MAC : Type}

/-- `ArpMergedMapTest.createEntry`. -/
def createEntry (mac : MAC) (currentTime : Int64) : ArpCacheEntry MAC := ⟨mac, 0, currentTime, 0⟩

/-- `ArpMergedMapTest.getTimeFromEntry`. -/
def getTimeFromEntry (entry : ArpCacheEntry MAC) : Int64 := entry.stale

/-- The counts of the latches that the observers of a reader share. -/
structure Latches where
  warmupLatch : ℕ
  finishedLatch : ℕ
deriving DecidableEq

/-- The count of a latch after `countDown()`, if it is called. -/
def countDown (called : Bool) (count : ℕ) : ℕ := if called then count - 1 else count

/-- The fields of an observer, without the latches. -/
structure ArpMergedMapObserver where
  offset : Int32
  totalWarmup : Int32
  totalExpected : Int32
  done : Bool
  warmedUp : Bool
  latencies : List Int64
deriving DecidableEq

namespace ArpMergedMapObserver

/-- The observer as its constructor leaves it. -/
def init (latencies : List Int64) (totalWarmup totalExpected : Int32) : ArpMergedMapObserver where
  offset := 0
  totalWarmup := totalWarmup
  totalExpected := totalExpected
  done := false
  warmedUp := false
  latencies := latencies

/-- The row after the first statement of `onNext`. There is none if it throws: for the value
`null`, or if it indexes outside the row. -/
def record (observer : ArpMergedMapObserver) (value : Option (ArpCacheEntry MAC)) (time : Int64) :
    Option (List Int64) :=
  if observer.totalWarmup ≤ observer.offset then do
    let sent := getTimeFromEntry (← value)
    (Mpi.write observer.latencies (observer.offset - observer.totalWarmup) (time - sent)).toOption
  else some observer.latencies

/-- `onNext`; `time` is what `MPIBenchApp.getTime()` returns. -/
def onNext (value : Option (ArpCacheEntry MAC)) (time : Int64)
    (s : ArpMergedMapObserver × Latches) : Option (ArpMergedMapObserver × Latches) := do
  let (observer, latches) := s
  let latencies ← observer.record value time
  let offset := observer.offset + 1
  let finishes := decide (observer.totalExpected ≤ offset) && !observer.done
  let warmsUp := decide (observer.totalWarmup ≤ offset) && !observer.warmedUp
  let observer' := { observer with
    offset := offset
    done := observer.done || finishes
    warmedUp := observer.warmedUp || warmsUp
    latencies := latencies }
  return (observer', {
    warmupLatch := countDown warmsUp latches.warmupLatch
    finishedLatch := countDown finishes latches.finishedLatch })

/-- The first event counts down the latches whose totals are at most one. -/
theorem latches_onNext_init {row : List Int64} {totalWarmup totalExpected : Int32}
    {value : Option (ArpCacheEntry MAC)} {time : Int64} {latches latches' : Latches}
    {observer : ArpMergedMapObserver}
    (h : onNext value time (init row totalWarmup totalExpected, latches) =
      some (observer, latches')) :
    latches' = {
      warmupLatch := countDown (decide (totalWarmup ≤ 1)) latches.warmupLatch
      finishedLatch := countDown (decide (totalExpected ≤ 1)) latches.finishedLatch } := by
  obtain ⟨latencies, -, hreturn⟩ := Option.bind_eq_some_iff.mp h
  obtain ⟨-, rfl⟩ := Prod.mk.inj (Option.some.inj hreturn)
  simp [init]

end ArpMergedMapObserver

/-! ## Counting -/

/-- The state of an observer that expects `W` events before and `B` events after the warmup, when
it has seen events with the given latencies. -/
structure Observes (W B : ℕ) (seen : List Int64) (observer : ArpMergedMapObserver) : Prop where
  totalWarmup : observer.totalWarmup.toInt = W
  totalExpected : observer.totalExpected.toInt = (W + B : ℕ)
  offset : observer.offset.toInt = seen.length
  warmedUp : observer.warmedUp = decide (W ≤ seen.length)
  done : observer.done = decide (W + B ≤ seen.length)
  /-- The row starts with the latencies after the warmup. -/
  latencies : observer.latencies = seen.drop W ++ List.replicate (B - (seen.length - W)) 0

section Counting

variable {W B : ℕ} {seen : List Int64} {observer : ArpMergedMapObserver}

/-- A threshold is passed with one event. -/
theorem passes_eq (k m : ℕ) : (decide (k ≤ m + 1) && !decide (k ≤ m)) = decide (m + 1 = k) := by
  rw [Bool.eq_iff_iff]
  simp
  omega

/-- A threshold that is passed stays so. -/
theorem passed_or_passes (k m : ℕ) :
    (decide (k ≤ m) || decide (m + 1 = k)) = decide (k ≤ m + 1) := by
  rw [Bool.eq_iff_iff]
  simp
  omega

/-- Before the first event. -/
theorem observes_init (hW : 0 < W) {totalWarmup totalExpected : Int32}
    (hwarmup : totalWarmup.toInt = W) (hexpected : totalExpected.toInt = (W + B : ℕ)) :
    Observes W B [] (.init (List.replicate B 0) totalWarmup totalExpected) where
  totalWarmup := hwarmup
  totalExpected := hexpected
  offset := rfl
  warmedUp := (decide_eq_false (by simp; omega)).symm
  done := (decide_eq_false (by simp; omega)).symm
  latencies := by simp [ArpMergedMapObserver.init]

/-- A further event fills the next cell. -/
theorem Observes.record (h : Observes W B seen observer) (hlt : seen.length < W + B)
    (entry : ArpCacheEntry MAC) (time : Int64) :
    observer.record (some entry) time =
      some ((seen ++ [time - getTimeFromEntry entry]).drop W ++
        List.replicate (B - (seen.length + 1 - W)) 0) := by
  rw [ArpMergedMapObserver.record]
  by_cases hwarm : W ≤ seen.length
  · -- the row has one more cell to be filled
    have hcell : B - (seen.length - W) = B - (seen.length + 1 - W) + 1 := by omega
    have hindex : (observer.offset - observer.totalWarmup).toInt = (seen.length - W : ℕ) :=
      Int32.toInt_sub_natCast h.offset h.totalWarmup hwarm
    rw [if_pos ((Int32.le_iff_of_natCast h.totalWarmup h.offset).mpr hwarm), h.latencies, hcell,
      List.replicate_succ, List.drop_append_of_le_length hwarm]
    change (Mpi.write _ _ (time - getTimeFromEntry entry)).toOption = _
    rw [Mpi.write_append hindex (List.length_drop ..)]
    simp [Except.toOption]
  · -- during the warmup the row stays as it is
    rw [if_neg fun hle => hwarm ((Int32.le_iff_of_natCast h.totalWarmup h.offset).mp hle),
      h.latencies, List.drop_eq_nil_of_le (by omega), List.drop_eq_nil_of_le (by simp; omega)]
    congr 3
    omega

/-- An event of a map that has not delivered all of them. -/
theorem Observes.onNext (h : Observes W B seen observer) (hlt : seen.length < W + B)
    (hfits : W + B < 2 ^ 31) (entry : ArpCacheEntry MAC) (time : Int64) (latches : Latches) :
    ∃ observer', ArpMergedMapObserver.onNext (some entry) time (observer, latches) =
        some (observer', {
          warmupLatch := countDown (decide (seen.length + 1 = W)) latches.warmupLatch
          finishedLatch := countDown (decide (seen.length + 1 = W + B)) latches.finishedLatch }) ∧
      Observes W B (seen ++ [time - getTimeFromEntry entry]) observer' := by
  -- the counter and the totals do not overflow, so they compare as numbers
  have hoffset : (observer.offset + 1).toInt = (seen.length + 1 : ℕ) :=
    Int32.toInt_add_natCast h.offset Int32.toInt_one_natCast (by omega)
  have hwarmup : decide (observer.totalWarmup ≤ observer.offset + 1) =
      decide (W ≤ seen.length + 1) :=
    decide_eq_decide.mpr (Int32.le_iff_of_natCast h.totalWarmup hoffset)
  have hexpected : decide (observer.totalExpected ≤ observer.offset + 1) =
      decide (W + B ≤ seen.length + 1) :=
    decide_eq_decide.mpr (Int32.le_iff_of_natCast h.totalExpected hoffset)
  refine ⟨{ observer with
    offset := observer.offset + 1
    done := decide (W + B ≤ seen.length + 1)
    warmedUp := decide (W ≤ seen.length + 1)
    latencies := (seen ++ [time - getTimeFromEntry entry]).drop W ++
      List.replicate (B - (seen.length + 1 - W)) 0 }, ?_, ?_⟩
  · rw [ArpMergedMapObserver.onNext]
    -- each latch is counted down by the event with which its total is reached
    simp only [h.record hlt, hwarmup, hexpected, h.warmedUp, h.done, passes_eq, passed_or_passes]
    rfl
  · refine ⟨h.totalWarmup, h.totalExpected, ?_, ?_, ?_, ?_⟩
    · rw [hoffset, List.length_append, List.length_singleton]
    · rw [List.length_append, List.length_singleton]
    · rw [List.length_append, List.length_singleton]
    · rw [List.length_append, List.length_singleton]

end Counting

end LatencyNodes
