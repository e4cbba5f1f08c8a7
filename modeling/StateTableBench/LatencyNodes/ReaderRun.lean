import StateTableBench.LatencyNodes.Nodes
import Mathlib.Order.Monotone.Basic

/-!
# The reads of a reader

A `ReaderNode` reads the events of its map one after the other with `readEntry`, which increments
`readOffset`, waits until as many events have arrived and takes the last of them. What the wait
returns is ignored: if it has timed out, then the access to the list throws. `ReaderNode.run`
catches the exception and tries again, but it gives up after more than 20 exceptions.

`readsAll_iff`: since `readOffset` has been incremented when the access throws, a read that times
out skips its event. The run reads the events that it should only if no read times out.
-/

namespace LatencyNodes

variable {κ : Type}

/-- The arrivals of events at the observer of a reader, and the clocks that the reader uses. The
time of a call of `readEntry` is the number of calls before it. -/
structure Arrivals where
  /-- The field `stale` of each event, in the order in which they are sent. -/
  events : List Int64
  /-- How many events have arrived when a call of `readEntry` accesses the list of events. -/
  arrived : ℕ → ℕ
  monotone : Monotone arrived
  arrived_le : ∀ call, arrived call ≤ events.length
  /-- All events arrive in the end. -/
  eventually : ∃ call, arrived call = events.length
  /-- `getCurrentTime()` in a call of `readEntry`. -/
  getCurrentTime : ℕ → Int64
  /-- `System.currentTimeMillis()` after a call of `readEntry` that has returned. -/
  currentTimeMillis : ℕ → Int64
  /-- The same at the start and at the end of `setup` and `run`. -/
  startWarmupTime : Int64
  endWarmupTime : Int64
  startBenchmark : Int64
  endBenchmark : Int64

/-- The field `readOffset` of `ArpMergedMapTest`, which is less than the maximum of an `int` since
the list of events is not longer. The number of calls of `readEntry` is the time. -/
structure Reader where
  readOffset : ℕ
  calls : ℕ
deriving DecidableEq

/-- What `readEntry` returns, and the number of the event it is computed from. -/
structure Reading where
  event : ℕ
  latency : Int64
deriving DecidableEq

namespace Arrivals

variable (a : Arrivals)

/-- The events that have arrived. -/
def getOnNextEvents (call : ℕ) : List Int64 := a.events.take (a.arrived call)

/-- `ArpMergedMapTest.readEntry`; there is no reading if it throws. -/
def readEntry (reader : Reader) : Option Reading × Reader :=
  let readOffset := reader.readOffset + 1
  -- `awaitForObserverEvents` only takes time
  let notif := (a.getOnNextEvents reader.calls)[readOffset - 1]?
  (notif.map fun stale => ⟨readOffset - 1, a.getCurrentTime reader.calls - stale⟩,
    ⟨readOffset, reader.calls + 1⟩)

/-- A read returns if its event has arrived. -/
theorem readEntry_of_lt (reader : Reader) (h : reader.readOffset < a.arrived reader.calls) :
    ∃ stale, a.events[reader.readOffset]? = some stale ∧
      a.readEntry reader =
        (some ⟨reader.readOffset, a.getCurrentTime reader.calls - stale⟩,
          ⟨reader.readOffset + 1, reader.calls + 1⟩) := by
  have hlt : reader.readOffset < a.events.length := h.trans_le (a.arrived_le reader.calls)
  refine ⟨a.events[reader.readOffset], List.getElem?_eq_getElem hlt, ?_⟩
  simp [readEntry, getOnNextEvents, h, hlt]

/-- Otherwise it throws, and it has incremented `readOffset`. -/
theorem readEntry_of_le {reader : Reader} (h : a.arrived reader.calls ≤ reader.readOffset) :
    a.readEntry reader = (none, ⟨reader.readOffset + 1, reader.calls + 1⟩) := by
  have hnone : (a.getOnNextEvents reader.calls)[reader.readOffset]? = none :=
    List.getElem?_eq_none ((List.length_take_le _ _).trans h)
  simp [readEntry, hnone]

/-- Calls of `readEntry` that must not throw. -/
def readEntries : ℕ → Reader → Option Reader
  | 0, reader => some reader
  | count + 1, reader =>
    match a.readEntry reader with
    | (some _, reader) => readEntries count reader
    | (none, _) => none

/-- Reading entries moves the offset by their number. -/
theorem eq_of_readEntries {count : ℕ} {reader reader' : Reader}
    (h : a.readEntries count reader = some reader') :
    reader' = ⟨reader.readOffset + count, reader.calls + count⟩ := by
  induction count generalizing reader with
  | zero => exact (Option.some.inj h).symm
  | succ count ih =>
    rw [readEntries] at h
    rcases Nat.lt_or_ge reader.readOffset (a.arrived reader.calls) with hlt | hle
    · obtain ⟨stale, -, heq⟩ := a.readEntry_of_lt reader hlt
      rw [heq] at h
      rw [ih h]
      simp only [Nat.add_assoc, Nat.add_comm 1]
    · rw [a.readEntry_of_le hle] at h
      cases h

end Arrivals

/-- The first `totalRead` cells of the array are not `null`. -/
def Filled (totalRead : ℕ) (latencies : List (Option Reading)) : Prop :=
  ∀ i < totalRead, ∃ reading, latencies[i]? = some (some reading)

/-- A reading fills the next cell. -/
theorem Filled.set {totalRead : ℕ} {latencies : List (Option Reading)} {reading : Reading}
    (hlt : totalRead < latencies.length) (h : Filled totalRead latencies) :
    Filled (totalRead + 1) (latencies.set totalRead (some reading)) := by
  intro i hi
  rw [List.getElem?_set]
  split
  · exact ⟨reading, rfl⟩
  · next hne => exact h i (by omega)

/-- The fields of `ReaderNode`. -/
structure ReaderNode where
  numberOfReads : ℕ
  totalRead : ℕ
  latencies : List (Option Reading)
  timestamps : List Int64
  startWarmupTime : Int64
  endWarmupTime : Int64
  startBenchmark : Int64
  endBenchmark : Int64
  numberOfReads_lt : numberOfReads < 2 ^ 31
  totalRead_le : totalRead ≤ numberOfReads
  length_latencies : latencies.length = numberOfReads
  length_timestamps : timestamps.length = numberOfReads
  filled : Filled totalRead latencies

namespace ReaderNode

/-- The constructor. -/
def init (numberOfReads : ℕ) (h : numberOfReads < 2 ^ 31) : ReaderNode where
  numberOfReads := numberOfReads
  totalRead := 0
  latencies := List.replicate numberOfReads none
  timestamps := List.replicate numberOfReads 0
  startWarmupTime := 0
  endWarmupTime := 0
  startBenchmark := 0
  endBenchmark := 0
  numberOfReads_lt := h
  totalRead_le := Nat.zero_le numberOfReads
  length_latencies := List.length_replicate
  length_timestamps := List.length_replicate
  filled := fun i hi => absurd hi (Nat.not_lt_zero i)

/-- A reading and its time are stored. -/
def store (node : ReaderNode) (hlt : node.totalRead < node.numberOfReads) (reading : Reading)
    (timestamp : Int64) : ReaderNode :=
  { node with
    latencies := node.latencies.set node.totalRead (some reading)
    timestamps := node.timestamps.set node.totalRead timestamp
    totalRead := node.totalRead + 1
    totalRead_le := hlt
    length_latencies := by rw [List.length_set, node.length_latencies]
    length_timestamps := by rw [List.length_set, node.length_timestamps]
    filled := node.filled.set (by rw [node.length_latencies]; exact hlt) }

/-- `ReaderNode.setup`, where `readWarmup` is first; `none` if it throws. -/
def timedSetup (a : Arrivals) (ipSet : List κ) (numberOfWarmupReads : ℤ) (node : ReaderNode) :
    Option (Reader × ReaderNode) := do
  let reader ← a.readEntries ipSet.length ⟨0, 0⟩
  let reader ← a.readEntries numberOfWarmupReads.toNat reader
  return (reader,
    { node with startWarmupTime := a.startWarmupTime, endWarmupTime := a.endWarmupTime })

/-- After the setup as many events are read as calls are made. -/
theorem eq_of_timedSetup {a : Arrivals} {ipSet : List κ} {numberOfWarmupReads : ℤ}
    {node node' : ReaderNode} {reader : Reader}
    (h : timedSetup a ipSet numberOfWarmupReads node = some (reader, node')) :
    reader = ⟨warmups ipSet numberOfWarmupReads, warmups ipSet numberOfWarmupReads⟩ ∧
      node' = { node with startWarmupTime := a.startWarmupTime, endWarmupTime := a.endWarmupTime }
      := by
  obtain ⟨reader', hwarmup, hrest⟩ := Option.bind_eq_some_iff.mp h
  obtain ⟨reader'', hreads, hpair⟩ := Option.bind_eq_some_iff.mp hrest
  obtain ⟨rfl, rfl⟩ := Prod.mk.inj (Option.some.inj hpair)
  refine ⟨?_, rfl⟩
  rw [a.eq_of_readEntries hreads, a.eq_of_readEntries hwarmup, warmups]
  simp only [Nat.zero_add]

/-- How `ReaderNode.run` ends. -/
structure Result where
  /-- The exception that `run` catches last is thrown again. -/
  threw : Bool
  reader : Reader
  node : ReaderNode

/-- The loop of `ReaderNode.run`, or `none` if it is executed `fuel` times without an end. -/
def runLoop (a : Arrivals) : ℕ → ℕ → Reader → ReaderNode → Option Result
  | 0, _, _, _ => none
  | fuel + 1, numberOfExceptions, reader, node =>
    if hlt : node.totalRead < node.numberOfReads then
      match a.readEntry reader with
      | (some latency, reader) =>
        runLoop a fuel numberOfExceptions reader
          (node.store hlt latency (a.currentTimeMillis reader.calls))
      | (none, reader) =>
        let numberOfExceptions := numberOfExceptions + 1
        if 20 < numberOfExceptions then
          some ⟨true, reader, { node with endBenchmark := a.endBenchmark }⟩
        else runLoop a fuel numberOfExceptions reader node
    else some ⟨false, reader, { node with endBenchmark := a.endBenchmark }⟩

/-- `ReaderNode.run` -/
def timedRun (a : Arrivals) (fuel : ℕ) (reader : Reader) (node : ReaderNode) : Option Result :=
  runLoop a fuel 0 reader { node with startBenchmark := a.startBenchmark }

/-! ## Late reads -/

section Late

variable {a : Arrivals}

/-- The loop keeps what is stored, and reads on from `readOffset`. -/
theorem latencies_runLoop {fuel numberOfExceptions : ℕ} {reader : Reader} {node : ReaderNode}
    {result : Result} (h : runLoop a fuel numberOfExceptions reader node = some result) :
    (∀ i < node.totalRead, result.node.latencies[i]? = node.latencies[i]?) ∧
    (result.threw = false → ∀ i, node.totalRead ≤ i → i < node.numberOfReads →
      ∃ reading, result.node.latencies[i]? = some (some reading) ∧
        reader.readOffset + (i - node.totalRead) ≤ reading.event ∧
        reading.event < a.events.length) := by
  induction fuel generalizing numberOfExceptions reader node with
  | zero => cases h
  | succ fuel ih =>
    rw [runLoop] at h
    split at h
    · next hlt =>
      rcases Nat.lt_or_ge reader.readOffset (a.arrived reader.calls) with harrived | hlate
      · -- the reading is stored and stays there
        obtain ⟨stale, hstale, hread⟩ := a.readEntry_of_lt reader harrived
        rw [hread] at h
        obtain ⟨hkeep, hnext⟩ := ih h
        have hlength := node.length_latencies
        refine ⟨fun i hi => ?_, fun hreturned i hle hi => ?_⟩
        · rw [hkeep i (Nat.lt_succ_of_lt hi)]
          exact List.getElem?_set_ne (by omega)
        · rcases hle.eq_or_lt with rfl | hlater
          · refine ⟨⟨reader.readOffset, a.getCurrentTime reader.calls - stale⟩, ?_, ?_,
              (List.getElem?_eq_some_iff.mp hstale).1⟩
            · rw [hkeep _ (Nat.lt_succ_self _)]
              exact List.getElem?_set_self (by omega)
            · simp
          · obtain ⟨reading, hreading, hge, hevent⟩ := hnext hreturned i hlater hi
            exact ⟨reading, hreading, by simp only [store] at hge; omega, hevent⟩
      · -- the event is skipped
        rw [a.readEntry_of_le hlate] at h
        dsimp only at h
        split at h
        · obtain rfl := Option.some.inj h
          exact ⟨fun i _ => rfl, fun hreturned => nomatch hreturned⟩
        · obtain ⟨hkeep, hnext⟩ := ih h
          refine ⟨hkeep, fun hreturned i hle hi => ?_⟩
          obtain ⟨reading, hreading, hge, hevent⟩ := hnext hreturned i hle hi
          exact ⟨reading, hreading, by simp only at hge; omega, hevent⟩
    · obtain rfl := Option.some.inj h
      exact ⟨fun i _ => rfl, fun _ i hle hi => by omega⟩

end Late

/-! ## Reads in time -/

/-- The cells have the latencies of consecutive events. -/
def Consecutive (a : Arrivals) (first count : ℕ) (latencies : List (Option Reading)) : Prop :=
  ∀ i < count, ∃ call stale, a.events[first + i]? = some stale ∧
    latencies[i]? = some (some ⟨first + i, a.getCurrentTime call - stale⟩)

/-- The run returns, and it has read the events that follow those of the setup. -/
def ReadsAll (a : Arrivals) (first : ℕ) (reader : Reader) (node : ReaderNode) : Prop :=
  ∃ fuel result, timedRun a fuel reader node = some result ∧ result.threw = false ∧
    result.node.totalRead = node.numberOfReads ∧
    Consecutive a first node.numberOfReads result.node.latencies ∧
    result.reader.readOffset = first + node.numberOfReads

section InTime

variable {a : Arrivals} {first : ℕ}

/-- The next reading is the next event. -/
theorem Consecutive.set {count call : ℕ} {stale : Int64} {latencies : List (Option Reading)}
    (hlt : count < latencies.length) (hstale : a.events[first + count]? = some stale)
    (h : Consecutive a first count latencies) :
    Consecutive a first (count + 1)
      (latencies.set count (some ⟨first + count, a.getCurrentTime call - stale⟩)) := by
  intro i hi
  rcases Nat.lt_succ_iff_lt_or_eq.mp hi with hold | rfl
  · obtain ⟨call', stale', hstale', hcell⟩ := h i hold
    exact ⟨call', stale', hstale', by rw [List.getElem?_set_ne (by omega), hcell]⟩
  · exact ⟨call, stale, hstale, List.getElem?_set_self hlt⟩

/-- As long as no read times out, the loop reads one event after the other. -/
theorem exists_of_inTime {fuel numberOfExceptions : ℕ} {reader : Reader} {node : ReaderNode}
    (hfuel : node.numberOfReads - node.totalRead < fuel)
    (hreader : reader = ⟨first + node.totalRead, first + node.totalRead⟩)
    (hread : Consecutive a first node.totalRead node.latencies)
    (hinTime : ∀ i < node.numberOfReads, first + i < a.arrived (first + i)) :
    ∃ result, runLoop a fuel numberOfExceptions reader node = some result ∧
      result.threw = false ∧ result.node.totalRead = node.numberOfReads ∧
      Consecutive a first node.numberOfReads result.node.latencies ∧
      result.reader.readOffset = first + node.numberOfReads := by
  induction fuel generalizing reader node with
  | zero => omega
  | succ fuel ih =>
    rw [runLoop]
    split
    · next hlt =>
      subst hreader
      obtain ⟨stale, hstale, hentry⟩ := a.readEntry_of_lt
        ⟨first + node.totalRead, first + node.totalRead⟩ (hinTime _ hlt)
      rw [hentry]
      have hlength := node.length_latencies
      have hleft : node.numberOfReads - (node.totalRead + 1) < fuel := by omega
      exact ih hleft rfl (hread.set (by omega) hstale) hinTime
    · next hge =>
      have hall : node.totalRead = node.numberOfReads := by
        have hle := node.totalRead_le
        omega
      refine ⟨_, rfl, rfl, hall, fun i hi => hread i (by omega), ?_⟩
      show reader.readOffset = first + node.numberOfReads
      rw [hreader, ← hall]

/-- If a run returns, then its reads were in time, or from some cell on all cells have the latencies
of later events than they should. -/
theorem inTime_or_skips {fuel numberOfExceptions : ℕ} {reader : Reader} {node : ReaderNode}
    {result : Result} (h : runLoop a fuel numberOfExceptions reader node = some result)
    (hreader : reader = ⟨first + node.totalRead, first + node.totalRead⟩)
    (hreturned : result.threw = false) :
    (∀ i, node.totalRead ≤ i → i < node.numberOfReads → first + i < a.arrived (first + i)) ∨
    ∃ late < node.numberOfReads, ∀ i, late ≤ i → i < node.numberOfReads →
      ∃ reading, result.node.latencies[i]? = some (some reading) ∧
        first + i < reading.event ∧ reading.event < a.events.length := by
  induction fuel generalizing reader node with
  | zero => cases h
  | succ fuel ih =>
    by_cases hlt : node.totalRead < node.numberOfReads
    · subst hreader
      rw [runLoop, dif_pos hlt] at h
      rcases Nat.lt_or_ge (first + node.totalRead) (a.arrived (first + node.totalRead)) with
        harrived | hlate
      · obtain ⟨stale, -, hentry⟩ := a.readEntry_of_lt
          ⟨first + node.totalRead, first + node.totalRead⟩ harrived
        rw [hentry] at h
        rcases ih h rfl with hrest | hskips
        · left
          intro i hle hi
          rcases hle.eq_or_lt with rfl | hlater
          · exact harrived
          · exact hrest i hlater hi
        · exact .inr hskips
      · -- this read has skipped its event, and the next ones continue after it
        right
        rw [a.readEntry_of_le hlate] at h
        dsimp only at h
        split at h
        · obtain rfl := Option.some.inj h
          cases hreturned
        · refine ⟨node.totalRead, hlt, fun i hle hi => ?_⟩
          obtain ⟨reading, hreading, hge, hevent⟩ := (latencies_runLoop h).2 hreturned i hle hi
          exact ⟨reading, hreading, by simp only at hge; omega, hevent⟩
    · exact .inl fun i hle hi => absurd (hle.trans_lt hi) hlt

/-- Hence if the cells have the latencies that they should, then the reads were in time. -/
theorem inTime_of_consecutive {fuel numberOfExceptions : ℕ} {reader : Reader} {node : ReaderNode}
    {result : Result} (h : runLoop a fuel numberOfExceptions reader node = some result)
    (hreader : reader = ⟨first + node.totalRead, first + node.totalRead⟩)
    (hreturned : result.threw = false)
    (hread : Consecutive a first node.numberOfReads result.node.latencies) (i : ℕ)
    (hle : node.totalRead ≤ i) (hi : i < node.numberOfReads) :
    first + i < a.arrived (first + i) := by
  rcases inTime_or_skips h hreader hreturned with hinTime | ⟨late, hlate, hskips⟩
  · exact hinTime i hle hi
  · obtain ⟨reading, hreading, hevent, -⟩ := hskips late le_rfl hlate
    obtain ⟨call, stale, -, hcell⟩ := hread late hlate
    rw [hreading] at hcell
    have hsame := congrArg Reading.event (Option.some.inj (Option.some.inj hcell))
    exact absurd hsame hevent.ne'

/-- After a successful setup the run reads the events that it should exactly if none of its reads
times out. -/
theorem readsAll_iff (a : Arrivals) (ipSet : List κ) (numberOfWarmupReads : ℤ) (numberOfReads : ℕ)
    (hlt : numberOfReads < 2 ^ 31) (reader : Reader) (node : ReaderNode)
    (hsetup : timedSetup a ipSet numberOfWarmupReads (.init numberOfReads hlt) =
      some (reader, node)) :
    ReadsAll a (warmups ipSet numberOfWarmupReads) reader node ↔
      ∀ i < numberOfReads, warmups ipSet numberOfWarmupReads + i <
        a.arrived (warmups ipSet numberOfWarmupReads + i) := by
  obtain ⟨rfl, rfl⟩ := eq_of_timedSetup hsetup
  constructor
  · rintro ⟨fuel, result, hrun, hreturned, -, hread, -⟩ i hi
    exact inTime_of_consecutive hrun rfl hreturned hread i (Nat.zero_le i) hi
  · intro hinTime
    refine ⟨numberOfReads + 1, exists_of_inTime (Nat.lt_succ_of_le (Nat.sub_le _ _)) rfl ?_ hinTime⟩
    exact fun i hi => absurd hi (Nat.not_lt_zero i)

/-- Three events that have all arrived before the setup. -/
def allArrived : Arrivals where
  events := [10, 20, 30]
  arrived := fun _ => 3
  monotone := monotone_const
  arrived_le := fun _ => le_rfl
  eventually := ⟨0, rfl⟩
  getCurrentTime := fun _ => 100
  currentTimeMillis := fun _ => 5
  startWarmupTime := 1
  endWarmupTime := 2
  startBenchmark := 3
  endBenchmark := 6

/-- A warmup event and two reads. -/
theorem readsAll_two : ∃ reader node,
    timedSetup allArrived [()] 0 (.init 2 (by decide)) = some (reader, node) ∧
      ReadsAll allArrived 1 reader node :=
  ⟨_, _, rfl, (readsAll_iff allArrived [()] 0 2 (by decide) _ _ rfl).mpr (by decide)⟩

/-- The same events, of which only the first arrives before the second read. -/
def lateArrivals : Arrivals :=
  { allArrived with
    arrived := fun call => if call < 2 then 1 else 3
    monotone := by
      intro call call' hle
      show (if call < 2 then 1 else 3) ≤ if call' < 2 then 1 else 3
      split_ifs <;> omega
    arrived_le := by
      intro call
      show (if call < 2 then 1 else 3) ≤ 3
      split_ifs <;> omega
    eventually := ⟨2, rfl⟩ }

/-- One read times out, and the only cell gets the latency of the third event and not of the second.
If two cells are to be filled then the run waits for a fourth event, and throws. -/
theorem not_readsAll_late :
    (∃ reader node result, timedSetup lateArrivals [()] 0 (.init 1 (by decide)) =
        some (reader, node) ∧
      timedRun lateArrivals 3 reader node = some result ∧ result.threw = false ∧
      result.node.latencies = [some ⟨2, 70⟩] ∧ result.reader.readOffset = 3 ∧
      ¬ReadsAll lateArrivals 1 reader node) ∧
    (∃ reader node result, timedSetup lateArrivals [()] 0 (.init 2 (by decide)) =
        some (reader, node) ∧
      timedRun lateArrivals 30 reader node = some result ∧ result.threw = true ∧
      result.node.totalRead = 1) := by
  refine ⟨⟨_, _, _, rfl, rfl, rfl, rfl, rfl, ?_⟩, ⟨_, _, _, rfl, rfl, rfl, rfl⟩⟩
  rintro ⟨fuel, result, hrun, hreturned, -, hread, -⟩
  have hinTime := inTime_of_consecutive hrun rfl hreturned hread 0 le_rfl Nat.one_pos
  exact absurd hinTime (by decide)

end InTime

end ReaderNode

end LatencyNodes
