import StateTableBench.LatencyNodes.Observer

/-!
# More events than expected

Nothing stops the events of a map once its observer has seen all it expects: the map may have been
written by another test, and then its log holds events of that test too. The observer guards its
latches against such surplus events with two flags, but not its row.

* `CountsEvents` — each call assigns the cell and counts down the latches that its number in the
  run stands for, and none leaves the bounds of the row;
* `CountsEvents.within`, `Within.counted` — this holds exactly as long as the calls with a value
  fit between the warmup and the end of the row.
-/

open ArpMergedMap

namespace LatencyNodes

variable {MAC : Type}

/-- A call of `onNext`: the value of its tuple, and what `MPIBenchApp.getTime()` returns in it. -/
abbrev Call (MAC : Type) := Option (ArpCacheEntry MAC) × Int64

namespace ArpMergedMapObserver

/-- The index at which `onNext` accesses `latencies`, if it does. For the value `null`
`getTimeFromEntry` throws before. -/
def accessed (observer : ArpMergedMapObserver) (value : Option (ArpCacheEntry MAC)) :
    Option Int32 :=
  if observer.totalWarmup ≤ observer.offset then
    value.map fun _ => observer.offset - observer.totalWarmup
  else none

/-- The state after a call of `onNext`. Only its first statement throws, and then no field has been
assigned. -/
def afterCall (s : ArpMergedMapObserver × Latches) (call : Call MAC) :
    ArpMergedMapObserver × Latches :=
  (onNext call.1 call.2 s).getD s

/-- The state after some calls of `onNext`. -/
def afterCalls (s : ArpMergedMapObserver × Latches) (calls : List (Call MAC)) :
    ArpMergedMapObserver × Latches :=
  calls.foldl afterCall s

variable {observer : ArpMergedMapObserver}

/-- The last call is made last. -/
theorem afterCalls_concat (s : ArpMergedMapObserver × Latches) (calls : List (Call MAC))
    (call : Call MAC) : afterCalls s (calls ++ [call]) = afterCall (afterCalls s calls) call := by
  simp [afterCalls]

/-- A call that accesses no cell leaves the row as it is, or throws for the value `null`. -/
theorem record_of_accessed_eq_none {value : Option (ArpCacheEntry MAC)}
    (h : observer.accessed value = none) (time : Int64) :
    observer.record value time =
      if observer.totalWarmup ≤ observer.offset then none else some observer.latencies := by
  unfold accessed at h
  unfold record
  split at h
  next hwarm =>
    rw [Option.map_eq_none_iff] at h
    subst h
    rw [if_pos hwarm, if_pos hwarm]
    rfl
  next hwarm => rw [if_neg hwarm, if_neg hwarm]

/-- A call that accesses a cell assigns its latency to it, or throws if there is no such cell. -/
theorem record_of_accessed_eq_some {entry : ArpCacheEntry MAC} {i : Int32}
    (h : observer.accessed (some entry) = some i) (time : Int64) :
    observer.record (some entry) time =
      (Mpi.write observer.latencies i (time - getTimeFromEntry entry)).toOption := by
  unfold accessed at h
  split at h
  next hwarm =>
    obtain rfl := Option.some.inj h
    rw [record, if_pos hwarm]
    rfl
  next hwarm => cases h

end ArpMergedMapObserver

open ArpMergedMapObserver

section Counting

variable {row : List Int64} {totalWarmup totalExpected : Int32} {W : ℕ}

/-- What the numbers of the calls on an observer for `row` stand for, after a warmup of `W`
events. -/
structure CountsEvents (row : List Int64) (totalWarmup totalExpected : Int32) (W : ℕ)
    (calls : List (Call MAC)) : Prop where
  /-- No call accesses `latencies` outside its bounds. -/
  inBounds : ∀ before call latches i, before ++ [call] <+: calls →
    (afterCalls (init row totalWarmup totalExpected, latches) before).1.accessed call.1 = some i →
      0 ≤ i.toInt ∧ i.toInt < row.length
  /-- A call assigns `latencies[i]` exactly if it has number `W + i + 1`. -/
  assigns : ∀ before call latches, ∀ i < row.length, before ++ [call] <+: calls →
    (((afterCalls (init row totalWarmup totalExpected, latches) before).1.accessed call.1).map
        Int32.toInt = some (i : ℤ) ↔ before.length + 1 = W + i + 1)
  /-- Each latch is counted down by the call with its number only. -/
  latches : ∀ before call latches, before ++ [call] <+: calls →
    (afterCalls (init row totalWarmup totalExpected, latches) (before ++ [call])).2 =
      let latches' := (afterCalls (init row totalWarmup totalExpected, latches) before).2
      { warmupLatch := countDown (decide (before.length + 1 = max 1 W)) latches'.warmupLatch
        finishedLatch := countDown (decide (before.length + 1 = max 1 (W + row.length)))
          latches'.finishedLatch }

/-- After the warmup exactly the calls up to the end of the row have a value. -/
def Within (W L : ℕ) (calls : List (Call MAC)) : Prop :=
  ∀ k call, calls[k]? = some call → W ≤ k → (call.1.isSome ↔ k < W + L)

/-- The state of an observer for a row of length `L` after `k` calls that were expected. -/
structure Counted (W L k : ℕ) (observer : ArpMergedMapObserver) : Prop where
  totalWarmup : observer.totalWarmup.toInt = W
  totalExpected : observer.totalExpected.toInt = (W + L : ℕ)
  offset : observer.offset.toInt = k
  warmedUp : observer.warmedUp = decide (max 1 W ≤ k)
  done : observer.done = decide (max 1 (W + L) ≤ k)
  latencies : observer.latencies.length = L

variable {L k : ℕ} {observer : ArpMergedMapObserver}

/-- A new observer has counted nothing. -/
theorem counted_init (hwarmup : totalWarmup.toInt = W)
    (hexpected : totalExpected.toInt = (W + row.length : ℕ)) :
    Counted W row.length 0 (init row totalWarmup totalExpected) where
  totalWarmup := hwarmup
  totalExpected := hexpected
  offset := rfl
  warmedUp := (decide_eq_false (by omega)).symm
  done := (decide_eq_false (by omega)).symm
  latencies := rfl

/-- A total of `n` is reached with the first call if it is zero. -/
theorem reaches_eq (n k : ℕ) :
    (decide (n ≤ k + 1) && !decide (max 1 n ≤ k)) = decide (k + 1 = max 1 n) := by
  rw [Bool.eq_iff_iff]
  simp
  omega

theorem reached_or_reaches (n k : ℕ) :
    (decide (max 1 n ≤ k) || decide (k + 1 = max 1 n)) = decide (max 1 n ≤ k + 1) := by
  rw [Bool.eq_iff_iff]
  simp
  omega

namespace Counted

theorem accessed_eq (h : Counted W L k observer) (value : Option (ArpCacheEntry MAC)) :
    observer.accessed value =
      if W ≤ k then value.map fun _ => observer.offset - observer.totalWarmup else none := by
  simp only [accessed, Int32.le_iff_of_natCast h.totalWarmup h.offset]

/-- During the warmup no cell is accessed. -/
theorem accessed_of_lt (h : Counted W L k observer) (hk : k < W)
    (value : Option (ArpCacheEntry MAC)) : observer.accessed value = none := by
  rw [h.accessed_eq, if_neg (Nat.not_le.mpr hk)]

/-- After the warmup the cell `k - W` is accessed. -/
theorem accessed_of_le (h : Counted W L k observer) (hk : W ≤ k)
    (value : Option (ArpCacheEntry MAC)) :
    (observer.accessed value).map Int32.toInt = value.map fun _ => ((k - W : ℕ) : ℤ) := by
  rw [h.accessed_eq, if_pos hk, Option.map_map]
  congr 1
  funext entry
  exact Int32.toInt_sub_natCast h.offset h.totalWarmup hk

/-- An expected call does not throw. -/
theorem record_eq_some (h : Counted W L k observer) (hlt : k < W + L)
    {value : Option (ArpCacheEntry MAC)} (hvalue : W ≤ k → value.isSome) (time : Int64) :
    ∃ latencies, observer.record value time = some latencies ∧ latencies.length = L := by
  by_cases hk : W ≤ k
  · obtain ⟨entry, rfl⟩ := Option.isSome_iff_exists.mp (hvalue hk)
    have hindex : observer.accessed (some entry) =
        some (observer.offset - observer.totalWarmup) := by
      rw [h.accessed_eq, if_pos hk, Option.map_some]
    have hcell : k - W < observer.latencies.length := by
      rw [h.latencies]
      omega
    have hwrite := Mpi.write_eq_ok (Int32.toInt_sub_natCast h.offset h.totalWarmup hk) hcell
      (time - getTimeFromEntry entry)
    refine ⟨observer.latencies.set (k - W) (time - getTimeFromEntry entry), ?_,
      List.length_set.trans h.latencies⟩
    rw [record_of_accessed_eq_some hindex, hwrite]
    rfl
  · have hwarm : ¬observer.totalWarmup ≤ observer.offset :=
      fun hle => hk ((Int32.le_iff_of_natCast h.totalWarmup h.offset).mp hle)
    refine ⟨observer.latencies, ?_, h.latencies⟩
    rw [record_of_accessed_eq_none (h.accessed_of_lt (Nat.not_le.mp hk) value), if_neg hwarm]

/-- A call that is expected is counted. -/
theorem afterCall (h : Counted W L k observer) (hlt : k < W + L) (hfits : W + L < 2 ^ 31)
    {call : Call MAC} (hvalue : W ≤ k → call.1.isSome) (latches : Latches) :
    ∃ observer', ArpMergedMapObserver.afterCall (observer, latches) call = (observer', {
        warmupLatch := countDown (decide (k + 1 = max 1 W)) latches.warmupLatch
        finishedLatch := countDown (decide (k + 1 = max 1 (W + L))) latches.finishedLatch }) ∧
      Counted W L (k + 1) observer' := by
  obtain ⟨latencies, hrecord, hlength⟩ := h.record_eq_some hlt hvalue call.2
  -- the counter and the totals do not overflow, so they compare as numbers
  have hoffset : (observer.offset + 1).toInt = (k + 1 : ℕ) :=
    Int32.toInt_add_natCast h.offset Int32.toInt_one_natCast (by omega)
  have hwarmup : decide (observer.totalWarmup ≤ observer.offset + 1) = decide (W ≤ k + 1) :=
    decide_eq_decide.mpr (Int32.le_iff_of_natCast h.totalWarmup hoffset)
  have hexpected : decide (observer.totalExpected ≤ observer.offset + 1) =
      decide (W + L ≤ k + 1) :=
    decide_eq_decide.mpr (Int32.le_iff_of_natCast h.totalExpected hoffset)
  refine ⟨{ observer with
    offset := observer.offset + 1
    done := decide (max 1 (W + L) ≤ k + 1)
    warmedUp := decide (max 1 W ≤ k + 1)
    latencies := latencies }, ?_, ?_⟩
  · rw [ArpMergedMapObserver.afterCall, ArpMergedMapObserver.onNext]
    simp only [hrecord, hwarmup, hexpected, h.warmedUp, h.done, reaches_eq, reached_or_reaches]
    rfl
  · exact ⟨h.totalWarmup, h.totalExpected, hoffset, rfl, rfl, hlength⟩

/-- A surplus call without a value throws, and so changes nothing. -/
theorem afterCall_surplus (h : Counted W L k observer) (hk : W ≤ k) (time : Int64)
    (latches : Latches) :
    ArpMergedMapObserver.afterCall (observer, latches) ((none : Option (ArpCacheEntry MAC)), time) =
      (observer, latches) := by
  have hwarm : observer.totalWarmup ≤ observer.offset :=
    (Int32.le_iff_of_natCast h.totalWarmup h.offset).mpr hk
  have hrecord : observer.record (none : Option (ArpCacheEntry MAC)) time = none := by
    rw [record, if_pos hwarm]
    rfl
  rw [ArpMergedMapObserver.afterCall, ArpMergedMapObserver.onNext]
  simp only [hrecord]
  rfl

end Counted

/-! ## Runs -/

section Call

variable {n : ℕ} {call : Call MAC} (h : Counted W L (min n (W + L)) observer)
  (hvalue : W ≤ n → (call.1.isSome ↔ n < W + L))
include h hvalue

/-- The cell of call number `n + 1`, if it has a value exactly as long as it is expected. -/
theorem Counted.accessed_at : (observer.accessed call.1).map Int32.toInt =
    if W ≤ n ∧ n < W + L then some ((n - W : ℕ) : ℤ) else none := by
  rcases Nat.lt_or_ge n W with hlt | hge
  · rw [h.accessed_of_lt (by omega), if_neg (by omega)]
    rfl
  · rw [h.accessed_of_le (by omega)]
    by_cases hexpected : n < W + L
    · obtain ⟨entry, hentry⟩ := Option.isSome_iff_exists.mp ((hvalue hge).mpr hexpected)
      rw [hentry, if_pos ⟨hge, hexpected⟩, Option.map_some, Nat.min_eq_left hexpected.le]
    · have hnull : call.1 = none := by
        rw [← Option.not_isSome_iff_eq_none, hvalue hge]
        exact hexpected
      rw [hnull, if_neg (by omega)]
      rfl

/-- The latches and the counters after call number `n + 1`. -/
theorem Counted.afterCall_at (hpos : 0 < W + L) (hfits : W + L < 2 ^ 31) (latches : Latches) :
    ∃ observer', ArpMergedMapObserver.afterCall (observer, latches) call = (observer', {
        warmupLatch := countDown (decide (n + 1 = max 1 W)) latches.warmupLatch
        finishedLatch := countDown (decide (n + 1 = max 1 (W + L))) latches.finishedLatch }) ∧
      Counted W L (min (n + 1) (W + L)) observer' := by
  by_cases hexpected : n < W + L
  · rw [Nat.min_eq_left hexpected.le] at h
    rw [Nat.min_eq_left hexpected]
    exact h.afterCall hexpected hfits (fun hk => (hvalue hk).mpr hexpected) latches
  · -- a surplus call has no value, and so it throws
    obtain ⟨value, time⟩ := call
    obtain rfl : value = none := by
      rw [← Option.not_isSome_iff_eq_none, hvalue (by omega)]
      exact hexpected
    have hbefore : min n (W + L) = W + L := Nat.min_eq_right (by omega)
    have hafter : min (n + 1) (W + L) = W + L := Nat.min_eq_right (by omega)
    rw [hbefore] at h
    rw [hafter]
    refine ⟨observer, ?_, h⟩
    rw [h.afterCall_surplus (by omega), decide_eq_false (by omega), decide_eq_false (by omega)]
    rfl

end Call

/-- When one more call stays within the row. -/
theorem within_concat_iff {calls : List (Call MAC)} {call : Call MAC} :
    Within W L (calls ++ [call]) ↔ Within W L calls ∧
      (W ≤ calls.length → (call.1.isSome ↔ calls.length < W + L)) := by
  constructor
  · intro h
    refine ⟨fun k call' hcall hk => ?_, fun hk => ?_⟩
    · have hlt : k < calls.length := (List.getElem?_eq_some_iff.mp hcall).1
      exact h k call' (by rw [List.getElem?_append_left hlt, hcall]) hk
    · exact h calls.length call (by simp) hk
  · rintro ⟨hbefore, hlast⟩ k call' hcall hk
    rcases Nat.lt_trichotomy k calls.length with hlt | rfl | hgt
    · rw [List.getElem?_append_left hlt] at hcall
      exact hbefore k call' hcall hk
    · obtain rfl : call = call' := by simpa using hcall
      exact hlast hk
    · rw [List.getElem?_eq_none (by simp; omega)] at hcall
      cases hcall

/-- Earlier calls stayed within the row too. -/
theorem Within.of_prefix {before calls : List (Call MAC)} (h : Within W L calls)
    (hpre : before <+: calls) : Within W L before := by
  intro k call hcall hk
  refine h k call ?_ hk
  obtain ⟨after, rfl⟩ := hpre
  rw [List.getElem?_append_left (List.getElem?_eq_some_iff.mp hcall).1, hcall]

section Runs

variable {calls : List (Call MAC)}
  (hwarmup : totalWarmup.toInt = W) (hpos : 0 < W + row.length)
  (hfits : W + row.length < 2 ^ 31) (hexpected : totalExpected.toInt = (W + row.length : ℕ))
include hwarmup hpos hfits hexpected

/-- The calls are counted until all that are expected have been made. -/
theorem Within.counted (h : Within W row.length calls) (latches : Latches) :
    Counted W row.length (min calls.length (W + row.length))
      (afterCalls (init row totalWarmup totalExpected, latches) calls).1 := by
  induction calls using List.reverseRecOn with
  | nil =>
    rw [List.length_nil, Nat.zero_min]
    exact counted_init hwarmup hexpected
  | append_singleton calls call ih =>
    obtain ⟨hbefore, hlast⟩ := within_concat_iff.mp h
    obtain ⟨observer', hafter, hcounted⟩ := (ih hbefore).afterCall_at hlast hpos hfits
      (afterCalls (init row totalWarmup totalExpected, latches) calls).2
    rw [afterCalls_concat, hafter, List.length_append, List.length_singleton]
    exact hcounted

/-- What is known when a call of such a run is made. -/
theorem Within.at_call (h : Within W row.length calls) {before : List (Call MAC)} {call : Call MAC}
    (hpre : before ++ [call] <+: calls) (latches : Latches) :
    (W ≤ before.length → (call.1.isSome ↔ before.length < W + row.length)) ∧
      Counted W row.length (min before.length (W + row.length))
        (afterCalls (init row totalWarmup totalExpected, latches) before).1 := by
  obtain ⟨hbefore, hlast⟩ := within_concat_iff.mp (h.of_prefix hpre)
  exact ⟨hlast, hbefore.counted hwarmup hpos hfits hexpected latches⟩

/-- If the calls with a value end with the row, then each call does what its number stands for. -/
theorem Within.countsEvents (h : Within W row.length calls) :
    CountsEvents row totalWarmup totalExpected W calls where
  inBounds := by
    intro before call latches i hpre haccess
    obtain ⟨hlast, hcounted⟩ := h.at_call hwarmup hpos hfits hexpected hpre latches
    have hindex := hcounted.accessed_at hlast
    rw [haccess, Option.map_some] at hindex
    split at hindex
    · have htoInt := Option.some.inj hindex
      omega
    · cases hindex
  assigns := by
    intro before call latches i hi hpre
    obtain ⟨hlast, hcounted⟩ := h.at_call hwarmup hpos hfits hexpected hpre latches
    rw [hcounted.accessed_at hlast]
    split
    · rw [Option.some.injEq]
      omega
    · simp only [reduceCtorEq, false_iff]
      omega
  latches := by
    intro before call latches hpre
    obtain ⟨hlast, hcounted⟩ := h.at_call hwarmup hpos hfits hexpected hpre latches
    obtain ⟨observer', hafter, -⟩ := hcounted.afterCall_at hlast hpos hfits
      (afterCalls (init row totalWarmup totalExpected, latches) before).2
    rw [afterCalls_concat, hafter]

/-- Conversely, a call with a value behind the end of the row leaves its bounds, and without a
value a cell of the row stays unassigned. -/
theorem CountsEvents.within (h : CountsEvents row totalWarmup totalExpected W calls) :
    Within W row.length calls := by
  -- by induction on the prefixes of the run
  suffices hall : ∀ before, before <+: calls → Within W row.length before from
    hall calls List.prefix_rfl
  intro before
  induction before using List.reverseRecOn with
  | nil =>
    intro _ k call hcall
    cases hcall
  | append_singleton before call ih =>
    intro hpre
    have hbefore := ih ((List.prefix_append before [call]).trans hpre)
    refine within_concat_iff.mpr ⟨hbefore, fun hk => ?_⟩
    have hcounted := hbefore.counted hwarmup hpos hfits hexpected ⟨0, 0⟩
    have hwarm : W ≤ min before.length (W + row.length) := by omega
    have hindex := hcounted.accessed_of_le hwarm call.1
    constructor
    · intro hsome
      obtain ⟨entry, hvalue⟩ := Option.isSome_iff_exists.mp hsome
      rw [hvalue, Option.map_some] at hindex
      obtain ⟨i, haccess, htoInt⟩ := Option.map_eq_some_iff.mp hindex
      have hbound := h.inBounds before call ⟨0, 0⟩ i hpre (by rw [hvalue, haccess])
      omega
    · intro hlt
      have hassigned := (h.assigns before call ⟨0, 0⟩ (before.length - W) (by omega) hpre).mpr
        (by omega)
      rw [hindex] at hassigned
      obtain ⟨entry, hvalue, -⟩ := Option.map_eq_some_iff.mp hassigned
      rw [hvalue]
      rfl

end Runs

section First

variable {call : Call MAC} {calls : List (Call MAC)}
  (h : CountsEvents row totalWarmup totalExpected W (call :: calls))
  (hwarmup : totalWarmup.toInt = W)
include h

theorem CountsEvents.latches_first :
    (afterCall (init row totalWarmup totalExpected, ⟨1, 1⟩) call).2 = {
      warmupLatch := countDown (decide (1 = max 1 W)) 1
      finishedLatch := countDown (decide (1 = max 1 (W + row.length))) 1 } :=
  h.latches [] call ⟨1, 1⟩ ⟨calls, rfl⟩

include hwarmup

/-- If the sum is not the value of an `int`, the first call counts down the latch of the end. -/
theorem CountsEvents.fits (hrow : row.length < 2 ^ 31)
    (hexpected : totalExpected = totalWarmup + Mpi.length row) : W + row.length < 2 ^ 31 := by
  by_contra hoverflow
  have hlt := totalWarmup.toInt_lt
  have hlength : (Mpi.length row).toInt = row.length := Mpi.toInt_length hrow
  have hneg : totalExpected ≤ 1 := by
    rw [hexpected]
    exact Int32.le_one_of_toInt_neg (Int32.toInt_add_neg (by omega) (by omega))
  -- the warmup is not over, so the call does not throw
  have hwarm : ¬totalWarmup ≤ 0 := by
    rw [Int32.le_iff_of_natCast hwarmup Int32.toInt_zero_natCast]
    omega
  have hrecord : (init row totalWarmup totalExpected).record call.1 call.2 = some row :=
    if_neg hwarm
  obtain ⟨⟨observer, latches'⟩, hfirst⟩ : ∃ s,
      onNext call.1 call.2 (init row totalWarmup totalExpected, ⟨1, 1⟩) = some s := by
    rw [onNext]
    simp only [hrecord]
    exact ⟨_, rfl⟩
  have hlatches := h.latches_first
  rw [afterCall, hfirst, Option.getD_some, latches_onNext_init hfirst, decide_eq_true hneg,
    decide_eq_false (p := 1 = max 1 (W + row.length)) (by omega)] at hlatches
  have hcount : countDown true 1 = countDown false 1 := congrArg Latches.finishedLatch hlatches
  exact absurd hcount (by decide)

/-- An observer that expects no event does not survive the first one. -/
theorem CountsEvents.pos : 0 < W + row.length := by
  by_contra hnone
  obtain ⟨rfl, hL⟩ : W = 0 ∧ row.length = 0 := by omega
  have hzero : totalWarmup ≤ 0 := by
    rw [Int32.le_iff_of_natCast hwarmup Int32.toInt_zero_natCast]
  cases hvalue : call.1 with
  | none =>
    -- the call throws instead of counting down
    have hrecord : (init row totalWarmup totalExpected).record call.1 call.2 = none := by
      rw [record, hvalue]
      exact if_pos hzero
    have hthrows : onNext call.1 call.2 (init row totalWarmup totalExpected, ⟨1, 1⟩) = none := by
      rw [onNext]
      simp only [hrecord]
      rfl
    have hlatches := h.latches_first
    rw [afterCall, hthrows, Option.getD_none] at hlatches
    have hcount : 1 = countDown (decide (1 = max 1 0)) 1 := congrArg Latches.warmupLatch hlatches
    exact absurd hcount (by decide)
  | some entry =>
    have haccess : (init row totalWarmup totalExpected).accessed call.1 =
        some (0 - totalWarmup) := by
      rw [accessed, hvalue]
      exact if_pos hzero
    have hbound := h.inBounds [] call ⟨1, 1⟩ _ ⟨calls, rfl⟩ haccess
    omega

end First

end Counting

end LatencyNodes
