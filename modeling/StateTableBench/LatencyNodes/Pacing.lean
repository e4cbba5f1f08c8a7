import StateTableBench.LatencyNodes.Nodes
import StateTableBench.Arithmetic.Int32
import StateTableBench.Transition.Run
import Mathlib.Tactic.Ring

/-!
# The pace of a writer for several maps

`MultiMapWriterNode.timestampedRun` writes to all its maps in each round and then waits until the
interval that belongs to the round is over. It reads the clock when it checks whether to sleep,
when it computes how long, and, if it has not slept, when the round ends.

A run is a list of readings of the clock, one for each thing the writer does. Between two of them
any time may pass, so a write may take long and a park may return early or late.

`paced_run`: the writer never exceeds its rate. A round starts no earlier than all the intervals of
the rounds before it allow, since `wokeUpAt` grows by an interval in each round and never gets ahead
of the clock.
-/

namespace LatencyNodes.MultiMapWriterNode

/-- What the writer does next. -/
inductive Position
  /-- Test whether all is written, and otherwise write to each of the maps. -/
  | puts
  /-- Test whether the interval is over. -/
  | check
  /-- Compute how much of the interval is left and park. -/
  | park
  /-- Set `wokeUpAt` and count the round. -/
  | wake
  /-- Nothing, the loop has ended. -/
  | done
deriving DecidableEq

/-- The variables of `timestampedRun`, and the field `noSleepCounter`. -/
structure Writer where
  position : Position
  noSleep : Bool
  wokeUpAt : Int64
  noSleepCounter : Int32
  written : Int32
deriving DecidableEq

/-- `(long)(1000000000 / writeRate)` -/
def intervalDurationNanos (writeRate : Int32) : Int64 := (1000000000 / writeRate).toInt64

/-- The writer when the loop starts. -/
def Writer.init (now : Int64) : Writer where
  position := .puts
  noSleep := false
  wokeUpAt := now
  noSleepCounter := 0
  written := 0

/-- The writer does what comes next when the clock shows `now`. -/
def Writer.tick (writeRate benchmarkWrites : Int32) (writer : Writer) (now : Int64) : Writer :=
  match writer.position with
  | .puts =>
    if writer.written < benchmarkWrites then { writer with position := .check, noSleep := true }
    else { writer with position := .done }
  | .check =>
    if now - writer.wokeUpAt < intervalDurationNanos writeRate then
      { writer with position := .park }
    else { writer with position := .wake }
  -- how long it is asked to park does not matter: it may return early or late
  | .park => { writer with position := .check, noSleep := false }
  | .wake =>
    if writer.noSleep then
      { writer with
        position := .puts
        wokeUpAt := now
        noSleepCounter := writer.noSleepCounter + 1
        written := writer.written + 1 }
    else
      { writer with
        position := .puts
        wokeUpAt := writer.wokeUpAt + intervalDurationNanos writeRate
        written := writer.written + 1 }
  | .done => writer

/-! ## Rounds -/

/-- A round that has ended. -/
structure Round where
  /-- The first reading with which the round checks whether to sleep. -/
  firstCheck : Int64
  /-- `wokeUpAt` during the round. -/
  wokeBefore : Int64
  /-- `wokeUpAt` at the end of the round. -/
  wokeAfter : Int64
  /-- The clock at the end of the round. -/
  finish : Int64
deriving DecidableEq

/-- A writer with what has happened so far. The history has no influence on the writer. -/
structure Recorded where
  writer : Writer
  /-- The clock at the start of each round, the current one included. -/
  starts : List Int64
  /-- The first check of the current round. -/
  firstCheck : Option Int64
  rounds : List Round
deriving DecidableEq

/-- The start of a run: the reading that `wokeUpAt` is set to. -/
def Recorded.init (now : Int64) : Recorded := ⟨.init now, [], none, []⟩

/-- What the writer does is recorded. -/
def Recorded.tick (writeRate benchmarkWrites : Int32) (r : Recorded) (now : Int64) : Recorded :=
  let writer := r.writer.tick writeRate benchmarkWrites now
  match r.writer.position with
  | .puts =>
    if writer.position = .check then
      { r with writer := writer, starts := r.starts ++ [now], firstCheck := none }
    else { r with writer := writer }
  | .check => { r with writer := writer, firstCheck := r.firstCheck.or (some now) }
  | .park => { r with writer := writer }
  | .wake =>
    { r with
      writer := writer
      rounds := r.rounds ++
        [⟨r.firstCheck.getD now, r.writer.wokeUpAt, writer.wokeUpAt, now⟩] }
  | .done => r

/-- The run with the given readings of the clock, the first of which is the initial `wokeUpAt`. -/
def Recorded.run (writeRate benchmarkWrites : Int32) (initial : Int64) (clock : List Int64) :
    Recorded :=
  clock.foldl (Recorded.tick writeRate benchmarkWrites) (.init initial)

/-! ## The clock -/

/-- The check shows that at least an interval is over. -/
def Elapsed (writeRate : Int32) (wokeUpAt now : Int64) : Prop :=
  intervalDurationNanos writeRate ≤ now - wokeUpAt

instance (writeRate : Int32) (wokeUpAt now : Int64) : Decidable (Elapsed writeRate wokeUpAt now) :=
  inferInstanceAs (Decidable (_ ≤ _))

section Clock

variable {writeRate : Int32} {wokeUpAt now : Int64}

/-- A positive rate gives its interval in nanoseconds. -/
theorem toInt_intervalDurationNanos (hrate : 1 ≤ writeRate) :
    (intervalDurationNanos writeRate).toInt = 1000000000 / writeRate.toInt := by
  have hpos : 1 ≤ writeRate.toInt := Int32.le_iff_toInt_le.mp hrate
  obtain ⟨rate, -, hrate⟩ := Int32.exists_natCast_of_nonneg (a := writeRate)
    (Int32.le_iff_toInt_le.mpr (by rw [Int32.toInt_zero]; omega))
  have hdividend : (1000000000 : Int32).toInt = (1000000000 : ℕ) := rfl
  rw [intervalDurationNanos, Int32.toInt_toInt64, Int32.toInt_div_natCast hdividend hrate, hrate]
  rfl

/-- The interval is not negative. -/
theorem intervalDurationNanos_nonneg (hrate : 1 ≤ writeRate) :
    0 ≤ (intervalDurationNanos writeRate).toInt := by
  have hpos : 1 ≤ writeRate.toInt := Int32.le_iff_toInt_le.mp hrate
  rw [toInt_intervalDurationNanos hrate]
  exact Int.ediv_nonneg (by omega) (by omega)

/-- The difference to an earlier reading is the time between them, or negative. -/
theorem toInt_sub_of_le (hle : wokeUpAt ≤ now) :
    (now - wokeUpAt).toInt = now.toInt - wokeUpAt.toInt ∨
      2 ^ 63 ≤ now.toInt - wokeUpAt.toInt ∧ (now - wokeUpAt).toInt < 0 := by
  have hle' := Int64.le_iff_toInt_le.mp hle
  have hnow := now.toInt_lt
  have hwoke := wokeUpAt.le_toInt
  rw [Int64.toInt_sub, Int.bmod_def]
  split
  · left; omega
  · right; omega

/-- When the check shows that an interval is over, it is. -/
theorem Elapsed.le (hrate : 1 ≤ writeRate) (hle : wokeUpAt ≤ now)
    (h : Elapsed writeRate wokeUpAt now) :
    wokeUpAt.toInt + 1000000000 / writeRate.toInt ≤ now.toInt := by
  have hshown := Int64.le_iff_toInt_le.mp h
  have hnonneg := intervalDurationNanos_nonneg hrate
  rw [← toInt_intervalDurationNanos hrate]
  rcases toInt_sub_of_le hle with hexact | ⟨-, hneg⟩
  · omega
  · omega

/-- The check is right about it unless the clock has advanced by 2^63 nanoseconds. -/
theorem elapsed_iff (hrate : 1 ≤ writeRate) (hle : wokeUpAt ≤ now)
    (hlt : now.toInt - wokeUpAt.toInt < 2 ^ 63) :
    Elapsed writeRate wokeUpAt now ↔
      1000000000 / writeRate.toInt ≤ now.toInt - wokeUpAt.toInt := by
  rw [← toInt_intervalDurationNanos hrate, Elapsed, Int64.le_iff_toInt_le]
  rcases toInt_sub_of_le hle with hexact | ⟨hlarge, -⟩
  · rw [hexact]
  · omega

/-- `wokeUpAt` advances by an interval as long as the clock is ahead of the sum. -/
theorem toInt_wokeUpAt_add (hrate : 1 ≤ writeRate)
    (h : wokeUpAt.toInt + 1000000000 / writeRate.toInt ≤ now.toInt) :
    (wokeUpAt + intervalDurationNanos writeRate).toInt =
      wokeUpAt.toInt + 1000000000 / writeRate.toInt := by
  have hnow := now.toInt_lt
  have hwoke := wokeUpAt.le_toInt
  have hnonneg := intervalDurationNanos_nonneg hrate
  rw [toInt_intervalDurationNanos hrate] at hnonneg
  rw [Int64.toInt_add, toInt_intervalDurationNanos hrate, Int.bmod_def]
  split <;> omega

end Clock

/-! ## The invariant -/

section Invariant

variable (writeRate benchmarkWrites : Int32) (initial : Int64)

/-- What holds of a round that has ended. -/
structure Round.Paced (round : Round) : Prop where
  wokeBefore_le : round.wokeBefore ≤ round.firstCheck
  /-- `wokeUpAt` has grown by at least an interval. -/
  grows : round.wokeBefore.toInt + 1000000000 / writeRate.toInt ≤ round.wokeAfter.toInt
  /-- It is not ahead of the clock. -/
  wokeAfter_le : round.wokeAfter ≤ round.finish

/-- The first check of the round has shown that at least an interval is over. -/
def Round.late (round : Round) : Bool :=
  decide (Elapsed writeRate round.wokeBefore round.firstCheck)

/-- The current round has had its first check, which has shown that the interval is over if and
only if `late` holds. -/
def Recorded.Checked (r : Recorded) (late : Prop) : Prop :=
  ∃ first, r.firstCheck = some first ∧ r.writer.wokeUpAt ≤ first ∧
    (Elapsed writeRate r.writer.wokeUpAt first ↔ late)

/-- What holds at each position, if `now` is the last reading of the clock. -/
def Recorded.Phase (now : Int64) (r : Recorded) : Prop :=
  match r.writer.position with
  | .puts => True
  | .check => if r.writer.noSleep then r.firstCheck = none else r.Checked writeRate False
  | .park => r.Checked writeRate False
  | .wake => r.Checked writeRate (r.writer.noSleep = true) ∧
      r.writer.wokeUpAt.toInt + 1000000000 / writeRate.toInt ≤ now.toInt
  | .done => benchmarkWrites ≤ r.writer.written

/-- A round has started that has not ended. -/
def Position.InRound : Position → Prop
  | .check | .park | .wake => True
  | .puts | .done => False

/-- The number of rounds that have started. -/
structure Recorded.Started (r : Recorded) : Prop where
  written : r.writer.written.toInt = r.rounds.length
  rounds_le : r.rounds.length ≤ benchmarkWrites.toInt.toNat
  inRound : r.writer.position.InRound →
    r.starts.length = r.rounds.length + 1 ∧ r.writer.written < benchmarkWrites
  notInRound : ¬r.writer.position.InRound → r.starts.length = r.rounds.length

/-- While not all is written, there is room for another round. -/
theorem Recorded.Started.length_lt {benchmarkWrites : Int32} {r : Recorded}
    (h : r.Started benchmarkWrites) (hlt : r.writer.written < benchmarkWrites) :
    r.rounds.length + 1 ≤ benchmarkWrites.toInt.toNat ∧ r.rounds.length + 1 < 2 ^ 31 := by
  have hwritten := h.written
  have hlt' := Int32.lt_iff_toInt_lt.mp hlt
  have hbound := benchmarkWrites.toInt_lt
  exact ⟨by omega, by omega⟩

/-- No more writes start than there are. -/
theorem Recorded.Started.length_starts_le {benchmarkWrites : Int32} {r : Recorded}
    (h : r.Started benchmarkWrites) : r.starts.length ≤ benchmarkWrites.toInt.toNat := by
  by_cases hin : r.writer.position.InRound
  · obtain ⟨hlength, hlt⟩ := h.inRound hin
    rw [hlength]
    exact (h.length_lt hlt).1
  · rw [h.notInRound hin]
    exact h.rounds_le

/-- The invariant of a run, if `now` is the last reading of the clock. -/
structure Recorded.Inv (now : Int64) (r : Recorded) : Prop where
  phase : r.Phase writeRate benchmarkWrites now
  started : r.Started benchmarkWrites
  wokeUpAt_le : r.writer.wokeUpAt ≤ now
  /-- `wokeUpAt` has grown by an interval in each round. -/
  le_wokeUpAt : initial.toInt + r.rounds.length * (1000000000 / writeRate.toInt) ≤
    r.writer.wokeUpAt.toInt
  rounds : ∀ round ∈ r.rounds, round.Paced writeRate
  starts : ∀ (n : ℕ) (start : Int64), r.starts[n]? = some start →
    initial.toInt + n * (1000000000 / writeRate.toInt) ≤ start.toInt
  counts : r.writer.noSleepCounter.toInt = r.rounds.countP (Round.late writeRate)

/-- The invariant holds before the first write. -/
theorem Recorded.inv_init :
    (init initial).Inv writeRate benchmarkWrites initial initial where
  phase := trivial
  started := ⟨rfl, Nat.zero_le _, False.elim, fun _ => rfl⟩
  wokeUpAt_le := Int64.le_refl initial
  le_wokeUpAt := by simp [init, Writer.init]
  rounds := by simp [init]
  starts := by simp [init]
  counts := rfl

variable {writeRate benchmarkWrites initial}

variable {now now' : Int64} {r : Recorded}

/-- The writes of a round start no earlier than `wokeUpAt`. -/
theorem Recorded.Inv.starts_concat (hwoke : r.writer.wokeUpAt ≤ now)
    (hlength : r.starts.length = r.rounds.length)
    (h : r.Inv writeRate benchmarkWrites initial now') (n : ℕ) (start : Int64)
    (hstart : (r.starts ++ [now])[n]? = some start) :
    initial.toInt + n * (1000000000 / writeRate.toInt) ≤ start.toInt := by
  rw [List.getElem?_append] at hstart
  split at hstart
  · exact h.starts n start hstart
  · have hlt : n - r.starts.length < 1 := (List.getElem?_eq_some_iff.mp hstart).1
    have hn : n = r.rounds.length := by omega
    have hnow : now = start := by simpa [hn, hlength] using hstart
    rw [hn, ← hnow]
    exact h.le_wokeUpAt.trans (Int64.le_iff_toInt_le.mp hwoke)

/-- A round starts, or the loop ends. -/
theorem Recorded.Inv.puts (hle : now ≤ now') (hposition : r.writer.position = .puts)
    (h : r.Inv writeRate benchmarkWrites initial now) :
    (r.tick writeRate benchmarkWrites now').Inv writeRate benchmarkWrites initial now' := by
  have hlength : r.starts.length = r.rounds.length :=
    h.started.notInRound (by rw [hposition]; exact id)
  have hwoke := Int64.le_trans h.wokeUpAt_le hle
  by_cases hlt : r.writer.written < benchmarkWrites
  · have htick : r.tick writeRate benchmarkWrites now' =
        ⟨{ r.writer with position := .check, noSleep := true }, r.starts ++ [now'], none,
          r.rounds⟩ := by
      simp [tick, Writer.tick, hposition, hlt]
    rw [htick]
    exact {
      phase := rfl
      started :=
        ⟨h.started.written, h.started.rounds_le, fun _ => ⟨by simp [hlength], hlt⟩,
          fun hout => (hout trivial).elim⟩
      wokeUpAt_le := hwoke
      le_wokeUpAt := h.le_wokeUpAt
      rounds := h.rounds
      starts := h.starts_concat hwoke hlength
      counts := h.counts }
  · have htick : r.tick writeRate benchmarkWrites now' =
        { r with writer := { r.writer with position := .done } } := by
      simp [tick, Writer.tick, hposition, hlt]
    rw [htick]
    exact {
      phase := Int32.not_lt.mp hlt
      started := ⟨h.started.written, h.started.rounds_le, False.elim, fun _ => hlength⟩
      wokeUpAt_le := hwoke
      le_wokeUpAt := h.le_wokeUpAt
      rounds := h.rounds
      starts := h.starts
      counts := h.counts }

/-- The current round goes on. -/
theorem Recorded.Inv.of_inRound {writer : Writer} {firstCheck : Option Int64} (hle : now ≤ now')
    (hin : r.writer.position.InRound) (hin' : writer.position.InRound)
    (hwriter : writer = { r.writer with position := writer.position, noSleep := writer.noSleep })
    (h : r.Inv writeRate benchmarkWrites initial now)
    (hphase : ({ r with writer := writer, firstCheck := firstCheck } : Recorded).Phase writeRate
      benchmarkWrites now') :
    ({ r with writer := writer, firstCheck := firstCheck } : Recorded).Inv writeRate benchmarkWrites
      initial now' := by
  obtain ⟨position, noSleep, wokeUpAt, noSleepCounter, written⟩ := writer
  obtain ⟨-, -, rfl, rfl, rfl⟩ := Writer.mk.inj hwriter
  exact {
    phase := hphase
    started := ⟨h.started.written, h.started.rounds_le, fun _ => h.started.inRound hin,
      fun hout => (hout hin').elim⟩
    wokeUpAt_le := Int64.le_trans h.wokeUpAt_le hle
    le_wokeUpAt := h.le_wokeUpAt
    rounds := h.rounds
    starts := h.starts
    counts := h.counts }

/-- The writer checks whether the interval is over. -/
theorem Recorded.Inv.check (hrate : 1 ≤ writeRate) (hle : now ≤ now')
    (hposition : r.writer.position = .check)
    (h : r.Inv writeRate benchmarkWrites initial now) :
    (r.tick writeRate benchmarkWrites now').Inv writeRate benchmarkWrites initial now' := by
  have hin : r.writer.position.InRound := by rw [hposition]; trivial
  have hwoke := Int64.le_trans h.wokeUpAt_le hle
  -- the first check is now, or it was earlier and the round has slept since
  have hchecked : ∃ first, r.firstCheck.or (some now') = some first ∧ r.writer.wokeUpAt ≤ first ∧
      (Elapsed writeRate r.writer.wokeUpAt first ↔
        r.writer.noSleep = true ∧ Elapsed writeRate r.writer.wokeUpAt now') := by
    have hphase := h.phase
    simp only [Phase, hposition] at hphase
    split at hphase
    · next hfirst => exact ⟨now', by rw [hphase]; rfl, hwoke, by simp [hfirst]⟩
    · next hslept =>
      obtain ⟨first, hfirst, hfirst_le, hearly⟩ := hphase
      exact ⟨first, by rw [hfirst]; rfl, hfirst_le, by simp [hearly, hslept]⟩
  have htick : r.tick writeRate benchmarkWrites now' =
      { r with
        writer := r.writer.tick writeRate benchmarkWrites now'
        firstCheck := r.firstCheck.or (some now') } := by
    simp [tick, hposition]
  rw [htick, Writer.tick, hposition]
  dsimp only
  obtain ⟨first, hfirst, hfirst_le, hlate⟩ := hchecked
  split
  · next hearly =>
    have hnot : ¬Elapsed writeRate r.writer.wokeUpAt now' := Int64.not_le.mpr hearly
    exact h.of_inRound hle hin trivial rfl ⟨first, hfirst, hfirst_le, by simp [hlate, hnot]⟩
  · next hover =>
    have helapsed : Elapsed writeRate r.writer.wokeUpAt now' := Int64.not_lt.mp hover
    exact h.of_inRound hle hin trivial rfl
      ⟨⟨first, hfirst, hfirst_le, by simp [hlate, helapsed]⟩, helapsed.le hrate hwoke⟩

/-- The writer parks. -/
theorem Recorded.Inv.park (hle : now ≤ now') (hposition : r.writer.position = .park)
    (h : r.Inv writeRate benchmarkWrites initial now) :
    (r.tick writeRate benchmarkWrites now').Inv writeRate benchmarkWrites initial now' := by
  have hin : r.writer.position.InRound := by rw [hposition]; trivial
  have hphase := h.phase
  simp only [Phase, hposition] at hphase
  have htick : r.tick writeRate benchmarkWrites now' =
      { r with writer := { r.writer with position := .check, noSleep := false } } := by
    simp [tick, Writer.tick, hposition]
  rw [htick]
  exact h.of_inRound hle hin trivial rfl hphase

/-- A round ends. -/
theorem Recorded.Inv.of_wake {wokeAfter : Int64} {noSleepCounter : Int32} {round : Round}
    (hposition : r.writer.position = .wake)
    (h : r.Inv writeRate benchmarkWrites initial now)
    (hpaced : round.Paced writeRate) (hbefore : round.wokeBefore = r.writer.wokeUpAt)
    (hafter : round.wokeAfter = wokeAfter) (hfinish : round.finish = now')
    (hcounter : noSleepCounter.toInt =
      r.writer.noSleepCounter.toInt + if round.late writeRate then 1 else 0) :
    ({ r with
      writer := ⟨.puts, r.writer.noSleep, wokeAfter, noSleepCounter, r.writer.written + 1⟩
      rounds := r.rounds ++ [round] } : Recorded).Inv writeRate benchmarkWrites initial now' := by
  have hin : r.writer.position.InRound := by rw [hposition]; trivial
  obtain ⟨hlength, hlt⟩ := h.started.inRound hin
  have hsucc := h.started.length_lt hlt
  have hwritten : (r.writer.written + 1).toInt = (r.rounds.length + 1 : ℕ) :=
    Int32.toInt_add_natCast h.started.written Int32.toInt_one_natCast hsucc.2
  have hgrows := hpaced.grows
  rw [hbefore, hafter] at hgrows
  have hle := hpaced.wokeAfter_le
  rw [hafter, hfinish] at hle
  exact {
    phase := trivial
    started := ⟨by simp [hwritten], by simpa using hsucc.1, False.elim, fun _ => by simp [hlength]⟩
    wokeUpAt_le := hle
    le_wokeUpAt := by
      have hold := h.le_wokeUpAt
      simp only [List.length_append, List.length_singleton, Nat.cast_add, Nat.cast_one, Int.add_mul,
        Int.one_mul]
      omega
    rounds := by
      intro round' hround
      rcases List.mem_append.mp hround with hold | hnew
      · exact h.rounds round' hold
      · rw [List.mem_singleton.mp hnew]
        exact hpaced
    starts := h.starts
    counts := by
      rw [List.countP_append, List.countP_singleton, hcounter, h.counts]
      split <;> rfl }

/-- The writer sets `wokeUpAt`: to the current time if it has not slept, which is late enough, and
otherwise to the end of the interval. -/
theorem Recorded.Inv.wake (hrate : 1 ≤ writeRate) (hle : now ≤ now')
    (hposition : r.writer.position = .wake)
    (h : r.Inv writeRate benchmarkWrites initial now) :
    (r.tick writeRate benchmarkWrites now').Inv writeRate benchmarkWrites initial now' := by
  have hphase := h.phase
  simp only [Phase, hposition] at hphase
  obtain ⟨⟨first, hfirst, hfirst_le, hlate⟩, hover⟩ := hphase
  have hover' := hover.trans (Int64.le_iff_toInt_le.mp hle)
  by_cases hnoSleep : r.writer.noSleep = true
  · have htick : r.tick writeRate benchmarkWrites now' =
        { r with
          writer := ⟨.puts, r.writer.noSleep, now', r.writer.noSleepCounter + 1,
            r.writer.written + 1⟩
          rounds := r.rounds ++ [⟨first, r.writer.wokeUpAt, now', now'⟩] } := by
      simp [tick, Writer.tick, hposition, hnoSleep, hfirst]
    rw [htick]
    refine h.of_wake hposition ⟨hfirst_le, hover', Int64.le_refl now'⟩ rfl rfl rfl ?_
    -- the counter is at most the number of rounds, so it does not overflow
    have hcount := List.countP_le_length (p := Round.late writeRate) (l := r.rounds)
    have hin : r.writer.position.InRound := by rw [hposition]; trivial
    have hbound := (h.started.length_lt (h.started.inRound hin).2).2
    rw [Int32.toInt_add_natCast h.counts Int32.toInt_one_natCast (by omega), h.counts]
    simp [Round.late, hlate, hnoSleep]
  · have htick : r.tick writeRate benchmarkWrites now' =
        { r with
          writer := ⟨.puts, r.writer.noSleep, r.writer.wokeUpAt + intervalDurationNanos writeRate,
            r.writer.noSleepCounter, r.writer.written + 1⟩
          rounds := r.rounds ++ [⟨first, r.writer.wokeUpAt,
            r.writer.wokeUpAt + intervalDurationNanos writeRate, now'⟩] } := by
      simp [tick, Writer.tick, hposition, hnoSleep, hfirst]
    rw [htick]
    have hsum := toInt_wokeUpAt_add hrate hover'
    refine h.of_wake hposition ⟨hfirst_le, hsum.ge, ?_⟩ rfl rfl rfl ?_
    · exact Int64.le_iff_toInt_le.mpr (hsum.le.trans hover')
    · simp [Round.late, hlate, hnoSleep]

/-- Every step keeps the invariant. -/
theorem Recorded.Inv.tick (hrate : 1 ≤ writeRate) (hle : now ≤ now')
    (h : r.Inv writeRate benchmarkWrites initial now) :
    (r.tick writeRate benchmarkWrites now').Inv writeRate benchmarkWrites initial now' := by
  cases hposition : r.writer.position with
  | puts => exact h.puts hle hposition
  | check => exact h.check hrate hle hposition
  | park => exact h.park hle hposition
  | wake => exact h.wake hrate hle hposition
  | done =>
    have htick : r.tick writeRate benchmarkWrites now' = r := by
      simp [Recorded.tick, hposition]
    have hphase := h.phase
    simp only [Phase, hposition] at hphase
    rw [htick]
    exact { h with
      phase := by simpa only [Phase, hposition] using hphase
      wokeUpAt_le := Int64.le_trans h.wokeUpAt_le hle }

/-- Hence it holds after every run, as long as the clock does not go back. -/
theorem Recorded.Inv.foldl (hrate : 1 ≤ writeRate) {clock : List Int64}
    (hclock : (now :: clock).IsChain (· ≤ ·)) (h : r.Inv writeRate benchmarkWrites initial now) :
    ∃ last, (clock.foldl (Recorded.tick writeRate benchmarkWrites) r).Inv writeRate benchmarkWrites
      initial last := by
  induction clock generalizing r now with
  | nil => exact ⟨now, h⟩
  | cons now' clock ih =>
    obtain ⟨hle, hclock⟩ := List.isChain_cons_cons.mp hclock
    exact ih hclock (h.tick hrate hle)

/-- At the end every write has started. -/
theorem Recorded.Inv.length_starts_of_done (h : r.Inv writeRate benchmarkWrites initial now)
    (hdone : r.writer.position = .done) : r.starts.length = benchmarkWrites.toInt.toNat := by
  have hlength := h.started.notInRound (by rw [hdone]; exact id)
  have hphase := h.phase
  simp only [Recorded.Phase, hdone] at hphase
  have hge := Int32.le_iff_toInt_le.mp hphase
  have hle := h.started.rounds_le
  have hwritten := h.started.written
  omega

end Invariant

/-! ## The rate -/

/-- A writer that has never exceeded its rate, where `interval` is the time between two rounds. -/
structure Paced (writeRate benchmarkWrites : Int32) (initial : Int64) (interval : ℤ)
    (r : Recorded) : Prop where
  /-- In each round `wokeUpAt` grows by at least an interval, and it does not exceed the clock. -/
  rounds : ∀ round ∈ r.rounds, round.wokeBefore.toInt + interval ≤ round.wokeAfter.toInt ∧
    round.wokeAfter ≤ round.finish
  /-- The round after `n` others starts at least `n` intervals after the initial `wokeUpAt`. -/
  starts : ∀ (n : ℕ) (start : Int64), r.starts[n]? = some start →
    initial.toInt + n * interval ≤ start.toInt
  length_starts_le : r.starts.length ≤ benchmarkWrites.toInt.toNat
  /-- When the loop has ended, there have been as many rounds as there are writes for a map. -/
  length_starts_of_done : r.writer.position = .done →
    r.starts.length = benchmarkWrites.toInt.toNat
  /-- The counter has the number of rounds whose first check shows that the interval is over. -/
  counts : r.writer.noSleepCounter.toInt = r.rounds.countP fun round =>
    decide (Elapsed writeRate round.wokeBefore round.firstCheck)
  /-- What it shows is the time that has passed, unless the clock has advanced by 2^63 since. -/
  elapsed : ∀ round ∈ r.rounds, round.firstCheck.toInt - round.wokeBefore.toInt < 2 ^ 63 →
    (Elapsed writeRate round.wokeBefore round.firstCheck ↔
      interval ≤ round.firstCheck.toInt - round.wokeBefore.toInt)

/-- Whatever the clock shows, if it does not go back then the writer does not exceed its rate. -/
theorem paced_run (writeRate benchmarkWrites : Int32) (hrate : 1 ≤ writeRate) (initial : Int64)
    (clock : List Int64) (hclock : (initial :: clock).IsChain (· ≤ ·)) :
    Paced writeRate benchmarkWrites initial (1000000000 / writeRate.toInt)
      (Recorded.run writeRate benchmarkWrites initial clock) := by
  obtain ⟨last, h⟩ := Recorded.Inv.foldl hrate hclock
    (Recorded.inv_init writeRate benchmarkWrites initial)
  exact {
    rounds := fun round hround =>
      ⟨(h.rounds round hround).grows, (h.rounds round hround).wokeAfter_le⟩
    starts := h.starts
    length_starts_le := h.started.length_starts_le
    length_starts_of_done := h.length_starts_of_done
    counts := h.counts
    elapsed := fun round hround hlt => elapsed_iff hrate (h.rounds round hround).wokeBefore_le hlt }

/-- At 10 writes a second, a round that sleeps too long and one whose writes take too long. -/
theorem paced_run_two :
    (Recorded.run 10 2 0 [0, 5, 6, 120000000, 120000001, 120000002, 300000000, 300000001]).rounds =
      [⟨5, 0, 100000000, 120000001⟩, ⟨300000000, 100000000, 300000001, 300000001⟩] ∧
    Paced 10 2 0 (1000000000 / (10 : Int32).toInt)
      (Recorded.run 10 2 0 [0, 5, 6, 120000000, 120000001, 120000002, 300000000, 300000001]) :=
  ⟨by decide, paced_run 10 2 (by decide) 0
    [0, 5, 6, 120000000, 120000001, 120000002, 300000000, 300000001] (by decide)⟩

end LatencyNodes.MultiMapWriterNode
