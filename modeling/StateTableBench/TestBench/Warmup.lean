import StateTableBench.LatencyNodes.Nodes
import StateTableBench.TestBench.Callbacks
import StateTableBench.TestBench.Writers

/-!
# The warmup of the readers

In its `setup()` a reader waits for the warmup writes of its maps. It would wait forever if the
writer had not done them, or if it expected more of them than the writer does.

`Exact.Bench.warmup_written` says that neither happens: a writer has a lower rank than the readers
of its maps, so the rounds of `throttledSetup` let it finish before them, and the loops of the
writer and of the reader count to the same number. The benchmark writes come later, so that the
reader does not take one of them for a warmup write.
-/

open Spmd LatencyNodes

namespace TestBench

namespace Exact.Bench

variable {κ : Type}

/-- The `tableSize` of the configuration. -/
def tableSize : Bench → ℤ
  | .mergedMap b => b.tableSize
  | .multiMergedMap b => b.tableSize

/-- The `warmupWrites` of the configuration. -/
def warmupWrites : Bench → ℤ
  | .mergedMap b => b.warmupWrites
  | .multiMergedMap b => b.warmupWrites

/-- `setup()` of the node that a rank creates for its role. -/
def setup (bench : Bench) (address : ℕ → κ) (draw : String → ℕ → κ) (role : Role) :
    List (NodeOp κ) :=
  let ipSet := distributeRandomIPSet bench.tableSize address
  match bench, role with
  -- in `MergedMapTestBench` a rank has one map
  | .mergedMap b, .writer maps =>
    maps.flatMap fun map => WriterNode.setup map ipSet (draw map) b.warmupWrites
  | .mergedMap b, .reader maps => maps.flatMap fun map => ReaderNode.setup map ipSet b.warmupWrites
  | .multiMergedMap b, .writer maps =>
    MultiMapWriterNode.timestampedSetup maps ipSet draw b.warmupWrites
  | .multiMergedMap b, .reader maps =>
    MultiMapReaderNode.timestampedSetup maps b.warmupWrites b.tableSize
  | _, .dummy => []

/-- `run()` of the node that a rank creates for its role. -/
def run (bench : Bench) (address : ℕ → κ) (draw : String → ℕ → κ) (writesPerInterval : ℤ)
    (role : Role) : List (NodeOp κ) :=
  let ipSet := distributeRandomIPSet bench.tableSize address
  match bench, role with
  | .mergedMap b, .writer maps =>
    maps.flatMap fun map =>
      WriterNode.run map (draw map) b.warmupWrites b.benchmarkWrites writesPerInterval
  | .mergedMap b, .reader maps =>
    maps.flatMap fun map => ReaderNode.run map ipSet b.warmupWrites b.benchmarkWrites
  | .multiMergedMap b, .writer maps =>
    MultiMapWriterNode.timestampedRun maps draw b.warmupWrites b.benchmarkWrites
  | .multiMergedMap b, .reader maps =>
    MultiMapReaderNode.timestampedRun maps b.warmupWrites b.tableSize b.benchmarkWrites
  | _, .dummy => []

section Setup

variable {bench : Bench} {address : ℕ → κ} {draw : String → ℕ → κ} {role : Role} {t : String}

/-- The number of warmup writes of each map. -/
theorem warmups_eq (htable : 1 ≤ bench.tableSize) (hwarmup : 0 ≤ bench.warmupWrites) :
    (warmups (distributeRandomIPSet bench.tableSize address) bench.warmupWrites : ℤ) =
      bench.tableSize + bench.warmupWrites := by
  rw [warmups, distributeRandomIPSet, List.length_map, List.length_range]
  omega

/-- The warmup writes of a rank. -/
theorem puts_setup :
    puts t (bench.setup address draw role) = role.writes.count t *
      warmups (distributeRandomIPSet bench.tableSize address) bench.warmupWrites := by
  cases role with
  | writer maps =>
    cases bench with
    | mergedMap b => exact puts_flatMap (fun map => WriterNode.puts_setup map (draw map) _) maps
    | multiMergedMap b => exact MultiMapWriterNode.puts_timestampedSetup maps draw _
  | reader maps =>
    -- a reader does not write
    have hputs : puts t (bench.setup address draw (.reader maps)) = 0 := by
      refine List.countP_eq_zero.mpr fun op hop => ?_
      cases bench with
      | mergedMap b =>
        obtain ⟨map, -, hmem⟩ := List.mem_flatMap.mp hop
        simp only [ReaderNode.setup, readEntries, List.mem_append, List.mem_map] at hmem
        obtain ⟨_, -, rfl⟩ | ⟨_, -, rfl⟩ := hmem
        · simp [NodeOp.putsTo]
        · simp [NodeOp.putsTo]
      | multiMergedMap b =>
        obtain ⟨map, -, rfl⟩ := List.mem_map.mp hop
        simp [NodeOp.putsTo]
    simp [hputs, Role.writes]
  | dummy => cases bench <;> simp [setup, Role.writes]

/-- A reader waits for the warmup writes of its maps. -/
theorem awaited_setup (htable : 1 ≤ bench.tableSize) (hwarmup : 0 ≤ bench.warmupWrites)
    (ht : t ∈ role.reads) :
    awaited t (bench.setup address draw role) =
      warmups (distributeRandomIPSet bench.tableSize address) bench.warmupWrites := by
  cases role with
  | writer maps => cases ht
  | dummy => cases ht
  | reader maps =>
    have hmem : t ∈ maps := ht
    cases bench with
    | mergedMap b =>
      refine (awaited_flatMap (fun map => ReaderNode.awaited_setup map _) maps).trans ?_
      rw [if_pos hmem]
      rfl
    | multiMergedMap b =>
      -- the latch counts to the sum of both numbers
      have heq := @warmups_eq κ (.multiMergedMap b) address htable hwarmup
      refine (MultiMapReaderNode.awaited_timestampedSetup maps _ _).trans ?_
      rw [if_pos hmem]
      simp only [tableSize, warmupWrites, totalWarmup] at heq ⊢
      omega

/-- There are no benchmark writes in `setup()`. -/
theorem not_mem_setup (map : String) (ip : κ) :
    .putOpinion .run map ip ∉ bench.setup address draw role := by
  intro hmem
  cases role with
  | writer maps =>
    cases bench with
    | mergedMap b =>
      obtain ⟨map', -, hmem⟩ := List.mem_flatMap.mp hmem
      simp [WriterNode.setup, writeWarmup, writeEntries] at hmem
    | multiMergedMap b =>
      obtain ⟨map', -, hmem⟩ := List.mem_flatMap.mp hmem
      simp at hmem
  | reader maps =>
    cases bench with
    | mergedMap b =>
      obtain ⟨map', -, hmem⟩ := List.mem_flatMap.mp hmem
      simp [ReaderNode.setup, readEntries] at hmem
    | multiMergedMap b =>
      obtain ⟨map', -, hmem⟩ := List.mem_map.mp hmem
      cases hmem
  | dummy => cases bench <;> cases hmem

end Setup

end Exact.Bench

section Run

variable {κ : Type} {mpiSize : ℕ} [NeZero mpiSize]

/-- The configurations that a bench may reach, if every rank gets to the test cycle. `address` are
the addresses that are distributed, `draw` those that the writers pick from them, and a `run()`
that throws has done its first `cut` operations. -/
def ReachesWithNodes (bench : Exact.Bench) (role : Fin mpiSize → Role)
    (node : Fin mpiSize → Callbacks) (address : ℕ → κ) (draw : Fin mpiSize → String → ℕ → κ)
    (writesPerInterval : ℤ) (cut : Fin mpiSize → ℕ)
    (c : Config mpiSize (Cycle × List (NodeOp κ)) Payload (Event ⊕ NodeOp κ)) : Prop :=
  ReachesWithCallbacks node (fun r => bench.setup address (draw r) (role r))
    (fun r =>
      let ops := bench.run address (draw r) writesPerInterval (role r)
      if (node r).runThrows then ops.take (cut r) else ops) c

/-- The map `t`, with the writer `w`, is ready for the `setup()` of a reader that does `waits`. -/
structure WarmedUp (bench : Exact.Bench) (t : String) (w : Fin mpiSize) (waits : List (NodeOp κ))
    (c : Config mpiSize (Cycle × List (NodeOp κ)) Payload (Event ⊕ NodeOp κ)) : Prop where
  /-- The writer has returned from its `setup()`. -/
  setup_returned : (c.loc w).1.setupReturned w
  /-- It has done as many writes to the map as the reader waits for. -/
  puts_eq_awaited : puts t (c.ops w) = awaited t waits
  puts_eq : (puts t (c.ops w) : ℤ) = bench.tableSize + bench.warmupWrites
  /-- Nobody else has written to the map. -/
  puts_of_ne : ∀ q, q ≠ w → puts t (c.ops q) = 0
  /-- There has not been a benchmark write to any map. -/
  no_benchmark : ∀ q map ip, .putOpinion .run map ip ∉ c.ops q

end Run

/-- While a reader is in its `setup()`, the writer of each of its maps has returned from its own
`setup()` and has done exactly the writes that the reader waits for, and there has been no benchmark
write. -/
theorem Exact.Bench.warmup_written (bench : Exact.Bench) (hvalid : bench.Valid)
    (htable : 1 ≤ bench.tableSize) (hwarmup : 0 ≤ bench.warmupWrites) {mpiSize : ℕ}
    [NeZero mpiSize] (henough : bench.checkNodes mpiSize ≠ .error .notEnoughNodesAvailable) :
    ∃ role : Fin mpiSize → Role, (∀ r, bench.role mpiSize r.val = .ok (role r)) ∧
      ∀ (κ : Type) (node : Fin mpiSize → Callbacks) (address : ℕ → κ)
        (draw : Fin mpiSize → String → ℕ → κ) (writesPerInterval : ℤ) (cut : Fin mpiSize → ℕ) c,
        (∀ r, (node r).setupThrows = false) →
        ReachesWithNodes bench role node address draw writesPerInterval cut c →
        ∀ r, InSetup c r → ∀ t ∈ (role r).reads,
          ∃ w, t ∈ (role w).writes ∧
            WarmedUp bench t w (bench.setup address (draw r) (role r)) c := by
  obtain ⟨L, hrole⟩ := bench.exists_layout hvalid henough
  refine ⟨L.role, hrole, ?_⟩
  intro κ node address draw writesPerInterval cut c hsetup hc r hr t ht
  obtain ⟨w, hw⟩ := L.exists_writer t (L.mem_names t r (.inr ht))
  -- the writer has the lower rank, so its round comes first
  have hlt := L.writer_lt t w r hw ht
  have hops := hr.ops_eq hc hsetup hlt
  have hputs : puts t (c.ops w) =
      warmups (distributeRandomIPSet bench.tableSize address) bench.warmupWrites := by
    rw [hops, puts_setup, List.count_eq_one_of_mem (L.nodup w).1 hw, Nat.one_mul]
  refine ⟨w, hw, ?_⟩
  constructor
  case setup_returned => exact hr.setupReturned_of_lt hc hsetup hlt
  case puts_eq_awaited => rw [hputs, awaited_setup htable hwarmup ht]
  case puts_eq =>
    rw [hputs]
    exact warmups_eq htable hwarmup
  case puts_of_ne =>
    intro q hq
    -- nobody has done more than its `setup()`, and only `w` writes to the map there
    have hnot : t ∉ (L.role q).writes := fun hmem => hq (L.writer_unique t q w hmem hw)
    have hle := (hr.ops_isPrefix hc hsetup q).sublist.countP_le (p := NodeOp.putsTo t)
    have hzero : puts t (bench.setup address (draw q) (L.role q)) = 0 := by
      rw [puts_setup, List.count_eq_zero_of_not_mem hnot, Nat.zero_mul]
    exact Nat.le_zero.mp (hle.trans_eq hzero)
  case no_benchmark =>
    intro q map ip hmem
    exact not_mem_setup map ip ((hr.ops_isPrefix hc hsetup q).subset hmem)

/-- Three maps with two warmup writes after the table of four, on five ranks. -/
theorem Exact.Bench.warmup_written_five :
    ∃ role : Fin 5 → Role,
      (∀ r : Fin 5, (Exact.Bench.multiMergedMap ⟨3, 2, 2, "arp", 4, 2, 10⟩).role 5 r.val =
        .ok (role r)) ∧
      ∀ (κ : Type) (node : Fin 5 → Callbacks) (address : ℕ → κ)
        (draw : Fin 5 → String → ℕ → κ) (writesPerInterval : ℤ) (cut : Fin 5 → ℕ) c,
        (∀ r, (node r).setupThrows = false) →
        ReachesWithNodes (.multiMergedMap ⟨3, 2, 2, "arp", 4, 2, 10⟩) role node address draw
          writesPerInterval cut c →
        ∀ r, InSetup c r → ∀ t ∈ (role r).reads,
          ∃ w, t ∈ (role w).writes ∧
            WarmedUp (.multiMergedMap ⟨3, 2, 2, "arp", 4, 2, 10⟩) t w
              (Exact.Bench.setup (.multiMergedMap ⟨3, 2, 2, "arp", 4, 2, 10⟩) address (draw r)
                (role r)) c :=
  Exact.Bench.warmup_written (.multiMergedMap ⟨3, 2, 2, "arp", 4, 2, 10⟩)
    ⟨by decide, by decide, by decide⟩ (by decide) (by decide) (by decide)

end TestBench
