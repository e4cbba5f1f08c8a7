import StateTableBench.Arithmetic.Int32
import StateTableBench.TestBench.Layout
import StateTableBench.TestBench.Roles

/-!
# The check for enough nodes

Before anything else, `run` compares the number of nodes that a configuration needs with the number
of ranks. Both benches compute it with `int` arithmetic from values that nobody has checked, so a
configuration may need so many nodes that the sum wraps around and passes.

`Bench.admission_exact_iff` says for which configurations the check is right.
-/

namespace TestBench

/-- The check in `MergedMapTestBench.run`, with the numbers of reader and of writer nodes. -/
def MergedMapTestBench.checkNodes (b : MergedMapTestBench) (worldSize : Int32) :
    Except RunExn (Int32 × Int32) :=
  let writersPerMap : Int32 := 1
  let numberOfReaderNodesNeeded := b.numberOfMaps * b.readersPerMap
  let numberOfWriterNodesNeeded := b.numberOfMaps * writersPerMap
  if worldSize < numberOfReaderNodesNeeded + numberOfWriterNodesNeeded then
    .error .notEnoughNodesAvailable
  else .ok (numberOfReaderNodesNeeded, numberOfWriterNodesNeeded)

/-- The check in `MultiMergedMapTestBench.run`. -/
def MultiMergedMapTestBench.checkNodes (b : MultiMergedMapTestBench) (worldSize : Int32) :
    Except RunExn (Int32 × Int32) :=
  match nodesNeeded b.numberOfMaps b.maxNumberOfMapsPerReader,
    nodesNeeded b.numberOfMaps b.maxNumberOfMapsPerWriter with
  | some numberOfReaderNodesNeeded, some numberOfWriterNodesNeeded =>
    if worldSize < numberOfReaderNodesNeeded + numberOfWriterNodesNeeded then
      .error .notEnoughNodesAvailable
    else .ok (numberOfReaderNodesNeeded, numberOfWriterNodesNeeded)
  | _, _ => .error .arithmetic

namespace Bench

/-- The check of a bench. -/
def checkNodes (bench : Bench) (worldSize : Int32) : Except RunExn (Int32 × Int32) :=
  match bench with
  | .mergedMap b => b.checkNodes worldSize
  | .multiMergedMap b => b.checkNodes worldSize

/-- The number of nodes that a configuration really needs: a writer and its readers for each map,
and a node for every `maxNumberOfMapsPerReader` or `maxNumberOfMapsPerWriter` maps or less. -/
def nodes : Bench → ℤ
  | .mergedMap b => b.numberOfMaps.toInt * (1 + b.readersPerMap.toInt)
  | .multiMergedMap b =>
    (b.numberOfMaps.toInt + b.maxNumberOfMapsPerReader.toInt - 1) /
        b.maxNumberOfMapsPerReader.toInt +
      (b.numberOfMaps.toInt + b.maxNumberOfMapsPerWriter.toInt - 1) /
        b.maxNumberOfMapsPerWriter.toInt

/-- The parameters are not negative, and a node takes at least one map. -/
def NonNegative : Bench → Prop
  | .mergedMap b => 0 ≤ b.numberOfMaps ∧ 0 ≤ b.readersPerMap
  | .multiMergedMap b => 0 ≤ b.numberOfMaps ∧ 1 ≤ b.maxNumberOfMapsPerReader ∧
      1 ≤ b.maxNumberOfMapsPerWriter

/-- A run that is not admitted does not get to the init barrier. -/
theorem reach_of_checkNodes {bench : Bench} {mpiSize : ℕ}
    (h : bench.checkNodes (Int32.ofNat mpiSize) = .error .notEnoughNodesAvailable)
    (r : Fin mpiSize) : bench.reach r = .beforeInit := by
  cases bench with
  | mergedMap b =>
    simp only [checkNodes, MergedMapTestBench.checkNodes] at h
    split at h
    · next hlt => simp only [reach, MergedMapTestBench.reach, if_pos hlt]
    · cases h
  | multiMergedMap b =>
    simp only [checkNodes, MultiMergedMapTestBench.checkNodes] at h
    split at h
    · next readers writers hreaders hwriters =>
      split at h
      · next hlt =>
        simp only [reach, MultiMergedMapTestBench.reach, hreaders, hwriters, if_pos hlt]
      · cases h
    · cases h

/-- The quotient, rounded up, in `int` arithmetic. -/
theorem nodesNeeded_eq_some {numberOfMaps mapsPerNode : Int32} (hmaps : 0 ≤ numberOfMaps)
    (hnode : 1 ≤ mapsPerNode) :
    ∃ count, nodesNeeded numberOfMaps mapsPerNode = some count ∧ 0 ≤ count.toInt ∧
      count.toInt = (numberOfMaps.toInt + mapsPerNode.toInt - 1) / mapsPerNode.toInt := by
  obtain ⟨n, hnlt, hn⟩ := Int32.exists_natCast_of_nonneg hmaps
  obtain ⟨m, -, hm⟩ := Int32.exists_natCast_of_nonneg
    (Int32.le_trans (show (0 : Int32) ≤ 1 by decide) hnode)
  have hpos : 0 < m := (Int32.le_iff_of_natCast Int32.toInt_one_natCast hm).mp hnode
  have hne : ¬mapsPerNode = 0 := by
    rw [Int32.eq_iff_of_natCast hm Int32.toInt_zero_natCast]
    omega
  have hrest : 0 < numberOfMaps % mapsPerNode ↔ 0 < n % m :=
    Int32.lt_iff_of_natCast Int32.toInt_zero_natCast (Int32.toInt_mod_natCast hn hm)
  have hdiv := Int32.toInt_div_natCast hn hm
  refine ⟨_, by rw [nodesNeeded, if_neg hne], ?_⟩
  -- with a remainder the quotient is not the greatest `int`
  have hcount : (numberOfMaps / mapsPerNode +
      if 0 < numberOfMaps % mapsPerNode then 1 else 0).toInt = (Blocks.cappedCount n m : ℕ) := by
    unfold Blocks.cappedCount
    simp only [hrest]
    split
    · next hmod =>
      have hle := Nat.div_add_mod n m
      have hmul : n / m ≤ m * (n / m) := Nat.le_mul_of_pos_left _ hpos
      exact Int32.toInt_add_natCast hdiv Int32.toInt_one_natCast (by omega)
    · exact Int32.toInt_add_natCast hdiv Int32.toInt_zero_natCast
        (Nat.lt_of_le_of_lt (Nat.div_le_self n m) hnlt)
  rw [hcount, hn, hm]
  exact ⟨Int.natCast_nonneg _, Blocks.natCast_cappedCount n hpos⟩

theorem nodes_nonneg {bench : Bench} (hvalid : bench.NonNegative) : 0 ≤ bench.nodes := by
  cases bench with
  | mergedMap b =>
    have hmaps : 0 ≤ b.numberOfMaps.toInt := Int32.le_iff_toInt_le.mp hvalid.1
    have hreaders : 0 ≤ b.readersPerMap.toInt := Int32.le_iff_toInt_le.mp hvalid.2
    exact Int.mul_nonneg hmaps (by omega)
  | multiMergedMap b =>
    obtain ⟨readers, -, hreaders, hreq⟩ := nodesNeeded_eq_some hvalid.1 hvalid.2.1
    obtain ⟨writers, -, hwriters, hweq⟩ := nodesNeeded_eq_some hvalid.1 hvalid.2.2
    rw [nodes, ← hreq, ← hweq]
    omega

/-- What the check compares with the number of ranks: the number of nodes, wrapped around. -/
theorem checkNodes_eq_error_iff {bench : Bench} (hvalid : bench.NonNegative) (worldSize : Int32) :
    bench.checkNodes worldSize = .error .notEnoughNodesAvailable ↔
      worldSize.toInt < bench.nodes.bmod (2 ^ 32) := by
  cases bench with
  | mergedMap b =>
    have hsum : (b.numberOfMaps * b.readersPerMap + b.numberOfMaps * 1).toInt =
        (b.numberOfMaps.toInt * (1 + b.readersPerMap.toInt)).bmod (2 ^ 32) := by
      rw [Int32.toInt_add, Int32.toInt_mul, Int32.toInt_mul, Int.bmod_add_bmod, Int.add_bmod_bmod,
        Int32.toInt_one, Int.mul_one, Int.mul_add, Int.mul_one, Int.add_comm]
    rw [nodes, ← hsum, ← Int32.lt_iff_toInt_lt]
    simp only [checkNodes, MergedMapTestBench.checkNodes]
    split
    · next hlt => exact iff_of_true rfl hlt
    · next hlt => exact iff_of_false (by simp) hlt
  | multiMergedMap b =>
    obtain ⟨readers, hreaders, -, hreq⟩ := nodesNeeded_eq_some hvalid.1 hvalid.2.1
    obtain ⟨writers, hwriters, -, hweq⟩ := nodesNeeded_eq_some hvalid.1 hvalid.2.2
    rw [nodes, ← hreq, ← hweq, ← Int32.toInt_add, ← Int32.lt_iff_toInt_lt]
    simp only [checkNodes, MultiMergedMapTestBench.checkNodes, hreaders, hwriters]
    split
    · next hlt => exact iff_of_true rfl hlt
    · next hlt => exact iff_of_false (by simp) hlt

/-- For every number of ranks and every configuration: the check fails exactly for those that need
more nodes than there are ranks, if and only if the number of nodes is the value of an `int` or
wraps around to a value above the number of ranks. -/
theorem admission_exact_iff (bench : Bench) (hvalid : bench.NonNegative) (worldSize : Int32)
    (hsize : 1 ≤ worldSize) :
    (bench.checkNodes worldSize = .error .notEnoughNodesAvailable ↔
        worldSize.toInt < bench.nodes) ↔
      bench.nodes < 2 ^ 31 ∨
        worldSize.toInt < bench.nodes % 2 ^ 32 ∧ bench.nodes % 2 ^ 32 < 2 ^ 31 := by
  have hnodes := nodes_nonneg hvalid
  have hpos : 1 ≤ worldSize.toInt := Int32.le_iff_toInt_le.mp hsize
  have hlt := worldSize.toInt_lt
  rw [checkNodes_eq_error_iff hvalid, Int.bmod_def]
  split
  · omega
  · omega

/-- Three maps with four readers each, on 14 ranks. -/
theorem admission_exact_three :
    (Bench.mergedMap ⟨3, 4, 1000, 100⟩).checkNodes 14 = .error .notEnoughNodesAvailable :=
  ((admission_exact_iff (.mergedMap ⟨3, 4, 1000, 100⟩) ⟨by decide, by decide⟩ 14 (by decide)).mpr
    (.inl (by decide))).mpr (by decide)

/-- With `2 ^ 16` maps and `2 ^ 16 - 1` readers each, and with `2 ^ 30` maps that each need a writer
and a reader of their own, a single rank is enough for the check. -/
theorem not_admission_exact_overflowing :
    (Bench.mergedMap ⟨65536, 65535, 1000, 100⟩).checkNodes 1 = .ok (-65536, 65536) ∧
      (1 : Int32).toInt < (Bench.mergedMap ⟨65536, 65535, 1000, 100⟩).nodes ∧
      (Bench.multiMergedMap ⟨1073741824, 1, 1, 1000, 100⟩).checkNodes 1 =
        .ok (1073741824, 1073741824) ∧
      (1 : Int32).toInt < (Bench.multiMergedMap ⟨1073741824, 1, 1, 1000, 100⟩).nodes := by
  decide

end Bench

end TestBench
