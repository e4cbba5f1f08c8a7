import StateTableBench.TestBench.LeftAlone

/-!
# The roles of the benches

`MergedMapTestBench.run` and `MultiMergedMapTestBench.run` check that there are enough ranks,
distribute a set of IP addresses, and make each rank a writer, a reader or a dummy. Each role goes
through the init barrier and hands its `TestNode` to `nodeTestCycle`. `reach` follows this code
with the `int` arithmetic of Java and says how far it gets on a rank; the connections to ZooKeeper
and Kafka are assumed to succeed.

`Bench.noRankLeftAlone_iff_reach` is the result for both benches.
-/

open Spmd

namespace TestBench

/-- `distributeRandomIPSet(size, …)` returns: `new int[size]` throws for a negative size, and the
log message reads `ips[0]`. -/
def distributesRandomIPSet (size : Int32) : Bool := 0 < size

/-- The configuration of `MergedMapTestBench`, as far as the roles depend on it. -/
structure MergedMapTestBench where
  numberOfMaps : Int32
  readersPerMap : Int32
  tableSize : Int32
  benchmarkWrites : Int32

/-- How far `MergedMapTestBench.run` gets. -/
def MergedMapTestBench.reach (b : MergedMapTestBench) (worldSize worldRank : Int32) : Reach :=
  let writersPerMap : Int32 := 1
  let numberOfReaderNodesNeeded := b.numberOfMaps * b.readersPerMap
  let numberOfWriterNodesNeeded := b.numberOfMaps * writersPerMap
  -- `NotEnoughNodesAvailableException`
  if worldSize < numberOfReaderNodesNeeded + numberOfWriterNodesNeeded then .beforeInit
  else if ¬distributesRandomIPSet b.tableSize then .beforeInit
  else if worldRank < numberOfReaderNodesNeeded + numberOfWriterNodesNeeded then
    -- the division for `myMapId`
    if writersPerMap + b.readersPerMap = 0 then .beforeInit
    else
      let mapRank := worldRank % (writersPerMap + b.readersPerMap)
      let imTheWriter := mapRank = 0
      -- the constructor of `ReaderNode` allocates `new Long[numberOfReads]`
      if ¬imTheWriter ∧ b.benchmarkWrites < 0 then .beforeCycle else .cycle
  else .cycle

/-- The configuration of `MultiMergedMapTestBench`, as far as the roles depend on it. -/
structure MultiMergedMapTestBench where
  numberOfMaps : Int32
  maxNumberOfMapsPerWriter : Int32
  maxNumberOfMapsPerReader : Int32
  tableSize : Int32
  benchmarkWrites : Int32

/-- The number of nodes for `numberOfMaps` maps; the division throws for `mapsPerNode = 0`. -/
def nodesNeeded (numberOfMaps mapsPerNode : Int32) : Option Int32 :=
  if mapsPerNode = 0 then none
  else some (numberOfMaps / mapsPerNode + if 0 < numberOfMaps % mapsPerNode then 1 else 0)

/-- The length of the array in `calculateMapNames`. -/
def mapNamesAmount (nodeId maxNumberOfMaps mapsPerNode : Int32) : Int32 :=
  min ((nodeId + 1) * mapsPerNode) maxNumberOfMaps - nodeId * mapsPerNode

/-- How far `MultiMergedMapTestBench.run` gets. -/
def MultiMergedMapTestBench.reach (b : MultiMergedMapTestBench) (worldSize worldRank : Int32) :
    Reach :=
  match nodesNeeded b.numberOfMaps b.maxNumberOfMapsPerReader,
    nodesNeeded b.numberOfMaps b.maxNumberOfMapsPerWriter with
  | some numberOfReaderNodesNeeded, some numberOfWriterNodesNeeded =>
    -- `NotEnoughNodesAvailableException`
    if worldSize < numberOfReaderNodesNeeded + numberOfWriterNodesNeeded then .beforeInit
    else if ¬distributesRandomIPSet b.tableSize then .beforeInit
    else if worldRank < numberOfReaderNodesNeeded + numberOfWriterNodesNeeded then
      if worldRank < numberOfWriterNodesNeeded then
        -- a writer
        let myId := worldRank
        if mapNamesAmount myId b.numberOfMaps b.maxNumberOfMapsPerWriter < 0 then .beforeInit
        -- `Thread.sleep` throws on a negative time
        else if myId * 1500 < 0 then .beforeInit
        else .cycle
      else
        -- a reader
        let myId := worldRank - numberOfWriterNodesNeeded
        if mapNamesAmount myId b.numberOfMaps b.maxNumberOfMapsPerReader < 0 then .beforeInit
        else if myId * 500 < 0 then .beforeCycle
        -- the constructor of `MultiMapReaderNode` allocates `new long[…][benchmarkWrites]`
        else if b.benchmarkWrites < 0 then .beforeCycle
        else .cycle
    else .cycle
  | _, _ => .beforeInit

/-- One of the two benches with its configuration. -/
inductive Bench
  | mergedMap (b : MergedMapTestBench)
  | multiMergedMap (b : MultiMergedMapTestBench)

variable {mpiSize : ℕ}

/-- How far the code of the role of a rank gets. -/
def Bench.reach (bench : Bench) (mpiRank : Fin mpiSize) : Reach :=
  match bench with
  | .mergedMap b => b.reach (Int32.ofNat mpiSize) (Int32.ofNat mpiRank.val)
  | .multiMergedMap b => b.reach (Int32.ofNat mpiSize) (Int32.ofNat mpiRank.val)

/-- For every bench, configuration, number of ranks and choice of the callbacks that throw: all
ranks issue the same collectives, from the init barrier to the last barrier of `nodeTestCycle`,
exactly when there is only one rank, or the code of all roles throws before the init barrier, or
all of it throws after the init barrier, or all of it gets to the test cycle and no `setup()`
throws. -/
theorem Bench.noRankLeftAlone_iff_reach [NeZero mpiSize] (bench : Bench)
    (node : Fin mpiSize → Callbacks) :
    NoRankLeftAlone (benchProg bench.reach node) (fun _ => .roleBegin) ↔
      mpiSize = 1 ∨ (∀ r : Fin mpiSize, bench.reach r = .beforeInit) ∨
        (∀ r : Fin mpiSize, bench.reach r = .beforeCycle) ∨
        ∀ r, bench.reach r = .cycle ∧ (node r).setupThrows = false := by
  constructor
  · exact alike_of_noRankLeftAlone
  · exact noRankLeftAlone_of_alike

/-! ### A bench with a writer and a reader -/

/-- One map, with one writer and one reader. -/
def pairBench : Bench := .multiMergedMap ⟨1, 1, 1, 1000, 100⟩

/-- `run`, `shutdown` and `postProcessResults` throw on every rank, `setup` on rank `0` only if
`setupThrows`. -/
def pairCallbacks (setupThrows : Bool) (r : Fin 2) : Callbacks :=
  ⟨decide (r = 0) && setupThrows, true, true, true⟩

theorem reach_pairBench (r : Fin 2) : pairBench.reach r = .cycle := by
  revert r
  decide

theorem noRankLeftAlone_pairBench :
    NoRankLeftAlone (benchProg pairBench.reach (pairCallbacks false)) (fun _ => .roleBegin) := by
  refine (Bench.noRankLeftAlone_iff_reach pairBench (pairCallbacks false)).mpr ?_
  exact .inr (.inr (.inr fun r => ⟨reach_pairBench r, by simp [pairCallbacks]⟩))

theorem not_noRankLeftAlone_pairBench :
    ¬NoRankLeftAlone (benchProg pairBench.reach (pairCallbacks true)) (fun _ => .roleBegin) :=
  not_noRankLeftAlone_of_setupThrows (p := 0) (q := 1) reach_pairBench rfl
    (fun r _ => Fin.zero_le r) (by decide)

end TestBench
