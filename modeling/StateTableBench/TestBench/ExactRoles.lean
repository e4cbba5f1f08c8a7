import StateTableBench.TestBench.Prelude
import StateTableBench.TestBench.Writers

/-!
# Where nothing overflows

`Roles` and `Admission` follow the `int` arithmetic of `run`, while `Layout` and `Writers` compute
the same numbers exactly. As long as none of them is too large for an `int`, both find the same
numbers of nodes (`checkNodes_exact`), and a rank gets to the test cycle exactly if it has a role
(`reach_eq_cycle_iff`).
-/

open Blocks

namespace TestBench

/-! ## The numbers of a side -/

section Numbers

variable {numberOfMaps mapsPerNode nodeId : Int32}

/-- The number of nodes of a side is never too large. -/
theorem nodesNeeded_exact (hmaps : 0 ≤ numberOfMaps) (hnode : 1 ≤ mapsPerNode) :
    ∃ count, nodesNeeded numberOfMaps mapsPerNode = some count ∧ 0 ≤ count.toInt ∧
      count.toInt = (numberOfMaps.toInt + mapsPerNode.toInt - 1) / mapsPerNode.toInt ∧
      Exact.nodesNeeded numberOfMaps.toInt mapsPerNode.toInt = .ok count.toInt := by
  obtain ⟨count, hcount, hnonneg, heq⟩ := Bench.nodesNeeded_eq_some hmaps hnode
  obtain ⟨n, -, hn⟩ := Int32.exists_natCast_of_nonneg hmaps
  obtain ⟨m, -, hm⟩ := Int32.exists_natCast_of_nonneg
    (Int32.le_trans (show (0 : Int32) ≤ 1 by decide) hnode)
  have hpos : 0 < m := (Int32.le_iff_of_natCast Int32.toInt_one_natCast hm).mp hnode
  refine ⟨count, hcount, hnonneg, heq, ?_⟩
  rw [heq, hn, hm, Exact.nodesNeeded_natCast n hpos, natCast_cappedCount n hpos]

/-- `calculateMapNames` can allocate its array for the nodes of a side. -/
theorem mapNamesAmount_nonneg (hmaps : 0 ≤ numberOfMaps) (hnode : 1 ≤ mapsPerNode)
    (hfits : numberOfMaps.toInt + mapsPerNode.toInt ≤ 2 ^ 31) (hid : 0 ≤ nodeId)
    (hlt : nodeId.toInt < (numberOfMaps.toInt + mapsPerNode.toInt - 1) / mapsPerNode.toInt) :
    ¬mapNamesAmount nodeId numberOfMaps mapsPerNode < 0 := by
  obtain ⟨n, -, hn⟩ := Int32.exists_natCast_of_nonneg hmaps
  obtain ⟨m, -, hm⟩ := Int32.exists_natCast_of_nonneg
    (Int32.le_trans (show (0 : Int32) ≤ 1 by decide) hnode)
  obtain ⟨k, -, hk⟩ := Int32.exists_natCast_of_nonneg hid
  have hpos : 0 < m := (Int32.le_iff_of_natCast Int32.toInt_one_natCast hm).mp hnode
  -- the node begins with a map that there is
  have hfirst : k * m < n := by
    apply mul_lt_of_lt_cappedCount
    rw [hn, hm, hk, ← natCast_cappedCount n hpos] at hlt
    exact Int.ofNat_lt.mp hlt
  have hnext : (k + 1) * m < 2 ^ 31 := by
    rw [Nat.add_mul, Nat.one_mul]
    omega
  have hend : ((nodeId + 1) * mapsPerNode).toInt = ((k + 1) * m : ℕ) :=
    Int32.toInt_mul_natCast
      (Int32.toInt_add_natCast hk Int32.toInt_one_natCast
        (Nat.lt_of_le_of_lt (Nat.le_mul_of_pos_right _ hpos) hnext)) hm hnext
  have hbegin : (nodeId * mapsPerNode).toInt = (k * m : ℕ) :=
    Int32.toInt_mul_natCast hk hm (by omega)
  have hstep : k * m ≤ (k + 1) * m := Nat.mul_le_mul_right m (Nat.le_succ k)
  have hmin : (min ((nodeId + 1) * mapsPerNode) numberOfMaps).toInt =
      (min ((k + 1) * m) n : ℕ) := by
    rw [Nat.min_def]
    change (if (nodeId + 1) * mapsPerNode ≤ numberOfMaps then _ else _ : Int32).toInt = _
    simp only [Int32.le_iff_of_natCast hend hn]
    split
    · exact hend
    · exact hn
  exact Int32.not_lt.mpr
    (Int32.nonneg_of_natCast (Int32.toInt_sub_natCast hmin hbegin (by omega)))

end Numbers

namespace Bench

/-- The bench with exact numbers. -/
def exact (bench : Bench) (mapBaseName : String) (warmupWrites : ℤ) : Exact.Bench :=
  match bench with
  | .mergedMap b => .mergedMap {
      numberOfMaps := b.numberOfMaps.toInt
      readersPerMap := b.readersPerMap.toInt
      mapBaseName
      tableSize := b.tableSize.toInt
      warmupWrites
      benchmarkWrites := b.benchmarkWrites.toInt }
  | .multiMergedMap b => .multiMergedMap {
      numberOfMaps := b.numberOfMaps.toInt
      maxNumberOfMapsPerWriter := b.maxNumberOfMapsPerWriter.toInt
      maxNumberOfMapsPerReader := b.maxNumberOfMapsPerReader.toInt
      mapBaseName
      tableSize := b.tableSize.toInt
      warmupWrites
      benchmarkWrites := b.benchmarkWrites.toInt }

variable {bench : Bench} {mapBaseName : String} {warmupWrites : ℤ} {mpiSize : ℕ}

theorem valid_exact (hvalid : bench.NonNegative) :
    (bench.exact mapBaseName warmupWrites).Valid := by
  cases bench with
  | mergedMap b => exact ⟨Int32.le_iff_toInt_le.mp hvalid.1, Int32.le_iff_toInt_le.mp hvalid.2⟩
  | multiMergedMap b =>
    exact ⟨Int32.le_iff_toInt_le.mp hvalid.1, Int32.le_iff_toInt_le.mp hvalid.2.2,
      Int32.le_iff_toInt_le.mp hvalid.2.1⟩

/-- If the sum of the nodes is not too large, the check finds their exact numbers. -/
theorem checkNodes_exact (mapBaseName : String) (warmupWrites : ℤ) (hvalid : bench.NonNegative)
    (hnodes : bench.nodes < 2 ^ 31) (worldSize : Int32) :
    (bench.exact mapBaseName warmupWrites).checkNodes worldSize.toInt =
      (bench.checkNodes worldSize).map fun nodes => (nodes.1.toInt, nodes.2.toInt) := by
  cases bench with
  | mergedMap b =>
    obtain ⟨n, -, hn⟩ := Int32.exists_natCast_of_nonneg hvalid.1
    obtain ⟨perMap, -, hr⟩ := Int32.exists_natCast_of_nonneg hvalid.2
    rw [nodes, hn, hr] at hnodes
    have hsum : n * perMap + n * 1 < 2 ^ 31 := by
      have hcast : (n : ℤ) * (1 + perMap) = (n * perMap + n * 1 : ℕ) := by
        push_cast
        rw [Int.mul_add, Int.add_comm]
      omega
    have hreaders := Int32.toInt_mul_natCast hn hr (by omega)
    have hwriters := Int32.toInt_mul_natCast hn Int32.toInt_one_natCast (by omega)
    have hboth := Int32.toInt_add_natCast hreaders hwriters hsum
    change (if worldSize.toInt < b.numberOfMaps.toInt * b.readersPerMap.toInt +
        b.numberOfMaps.toInt * 1 then Except.error RunExn.notEnoughNodesAvailable
      else Except.ok (b.numberOfMaps.toInt * b.readersPerMap.toInt, b.numberOfMaps.toInt * 1)) = _
    simp only [checkNodes, MergedMapTestBench.checkNodes, Int32.lt_iff_toInt_lt, hboth, hn, hr,
      Int.natCast_add, Int.natCast_mul, Int.natCast_one]
    split
    · rfl
    · simp only [Except.map, hreaders, hwriters, Int.natCast_mul, Int.natCast_one]
  | multiMergedMap b =>
    obtain ⟨readers, hreaders, hrpos, hreq, hrexact⟩ := nodesNeeded_exact hvalid.1 hvalid.2.1
    obtain ⟨writers, hwriters, hwpos, hweq, hwexact⟩ := nodesNeeded_exact hvalid.1 hvalid.2.2
    rw [nodes, ← hreq, ← hweq] at hnodes
    have hboth := Int32.toInt_add_of_fitsInt (a := readers) (b := writers) ⟨by omega, hnodes⟩
    simp only [exact, Exact.Bench.checkNodes, Exact.MultiMergedMapTestBench.checkNodes, checkNodes,
      MultiMergedMapTestBench.checkNodes, hrexact, hwexact, hreaders, hwriters, bind, Except.bind,
      Int32.lt_iff_toInt_lt, hboth]
    split
    · rfl
    · rfl

/-- No number that a rank computes before its test cycle is too large for an `int`. -/
def Fits (bench : Bench) (mpiSize : ℕ) : Prop :=
  mpiSize < 2 ^ 31 ∧ bench.nodes < 2 ^ 31 ∧
    match bench with
    | .mergedMap _ => True
    | .multiMergedMap b =>
      b.numberOfMaps.toInt + b.maxNumberOfMapsPerWriter.toInt ≤ 2 ^ 31 ∧
        b.numberOfMaps.toInt + b.maxNumberOfMapsPerReader.toInt ≤ 2 ^ 31 ∧
        -- the time that is slept before the maps are created
        mpiSize * 1500 < 2 ^ 31

/-- The number of writes of a benchmark, which are as many as a reader makes room for. -/
def benchmarkWrites : Bench → Int32
  | .mergedMap b => b.benchmarkWrites
  | .multiMergedMap b => b.benchmarkWrites

/-- The time to be slept is not negative. -/
theorem not_mul_neg {a : Int32} {m n : ℕ} (ha : a.toInt = m) (h : m * n < 2 ^ 31) :
    ¬a * OfNat.ofNat n < 0 := by
  rcases Nat.eq_zero_or_pos m with rfl | hpos
  · obtain rfl : a = 0 := Int32.toInt_inj.mp ha
    rw [Int32.zero_mul]
    decide
  · have hle : n ≤ m * n := Nat.le_mul_of_pos_left n hpos
    have hn : (OfNat.ofNat n : Int32).toInt = n := Int32.toInt_ofNat_of_lt (by omega)
    exact Int32.not_lt.mpr (Int32.nonneg_of_natCast (Int32.toInt_mul_natCast ha hn h))

theorem toInt_ofNat_val (hsize : mpiSize < 2 ^ 31) (r : Fin mpiSize) :
    (Int32.ofNat r.val).toInt = (r.val : ℕ) :=
  Int32.toInt_ofNat_of_lt (Nat.lt_trans r.isLt hsize)

/-- A configuration that is not admitted gives no roles. -/
theorem role_exact_of_checkNodes
    (h : (bench.exact mapBaseName warmupWrites).checkNodes mpiSize =
      .error .notEnoughNodesAvailable) (r : Fin mpiSize) :
    (bench.exact mapBaseName warmupWrites).role mpiSize r.val =
      .error .notEnoughNodesAvailable := by
  cases bench with
  | mergedMap b =>
    simp only [exact, Exact.Bench.checkNodes] at h
    simp only [exact, Exact.Bench.role, Exact.MergedMapTestBench.role, h]
    rfl
  | multiMergedMap b =>
    simp only [exact, Exact.Bench.checkNodes] at h
    simp only [exact, Exact.Bench.role, Exact.MultiMergedMapTestBench.role, h]
    rfl

/-- An admitted `MergedMapTestBench` gets to the test cycle on every rank. -/
theorem reach_mergedMap_of_admitted {b : MergedMapTestBench}
    (hvalid : (Bench.mergedMap b).NonNegative) (htable : 0 < b.tableSize)
    (hwrites : ¬b.benchmarkWrites < 0)
    (h : b.checkNodes (Int32.ofNat mpiSize) ≠ .error .notEnoughNodesAvailable)
    (r : Fin mpiSize) : b.reach (Int32.ofNat mpiSize) (Int32.ofNat r.val) = .cycle := by
  have htable' : distributesRandomIPSet b.tableSize = true := decide_eq_true htable
  have hreaders : 0 ≤ b.readersPerMap.toInt := Int32.le_iff_toInt_le.mp hvalid.2
  have hgroup : ¬1 + b.readersPerMap = 0 := by
    intro hzero
    have hlt := b.readersPerMap.toInt_lt
    have hsum := congrArg Int32.toInt hzero
    rw [Int32.toInt_add, Int32.toInt_one, Int32.toInt_zero, Int.bmod_def] at hsum
    split at hsum <;> omega
  simp only [MergedMapTestBench.checkNodes] at h
  split at h
  · exact absurd rfl h
  · next henough =>
    simp only [MergedMapTestBench.reach, if_neg henough, htable', not_true, if_false, hgroup,
      hwrites, and_false]
    split <;> rfl

section MultiMerged

variable {b : MultiMergedMapTestBench} {readers writers : Int32}

/-- A writer can allocate its names and sleep. -/
theorem writer_gets_ready (hvalid : (Bench.multiMergedMap b).NonNegative)
    (hfits : (Bench.multiMergedMap b).Fits mpiSize)
    (hwriters : nodesNeeded b.numberOfMaps b.maxNumberOfMapsPerWriter = some writers)
    (r : Fin mpiSize) (hlt : Int32.ofNat r.val < writers) :
    ¬mapNamesAmount (Int32.ofNat r.val) b.numberOfMaps b.maxNumberOfMapsPerWriter < 0 ∧
      ¬Int32.ofNat r.val * 1500 < 0 := by
  obtain ⟨hsize, -, hfitsWriter, -, hsleep⟩ := hfits
  obtain ⟨count, hcount, -, heq, -⟩ := nodesNeeded_exact hvalid.1 hvalid.2.2
  obtain rfl : writers = count := Option.some.inj (hwriters.symm.trans hcount)
  have hid := toInt_ofNat_val hsize r
  refine ⟨mapNamesAmount_nonneg hvalid.1 hvalid.2.2 hfitsWriter (Int32.nonneg_of_natCast hid) ?_,
    not_mul_neg hid (Nat.lt_of_le_of_lt (Nat.mul_le_mul_right 1500 r.isLt.le) hsleep)⟩
  rw [← heq]
  exact Int32.lt_iff_toInt_lt.mp hlt

/-- A reader can allocate its names and sleep. Its number is counted from the last writer. -/
theorem reader_gets_ready (hvalid : (Bench.multiMergedMap b).NonNegative)
    (hfits : (Bench.multiMergedMap b).Fits mpiSize)
    (hwriters : nodesNeeded b.numberOfMaps b.maxNumberOfMapsPerWriter = some writers)
    (hreaders : nodesNeeded b.numberOfMaps b.maxNumberOfMapsPerReader = some readers)
    (r : Fin mpiSize) (hge : ¬Int32.ofNat r.val < writers)
    (hneeded : Int32.ofNat r.val < readers + writers) :
    ¬mapNamesAmount (Int32.ofNat r.val - writers) b.numberOfMaps b.maxNumberOfMapsPerReader < 0 ∧
      ¬(Int32.ofNat r.val - writers) * 500 < 0 := by
  obtain ⟨hsize, hnodes, -, hfitsReader, hsleep⟩ := hfits
  obtain ⟨count, hcount, hwpos, hweq, -⟩ := nodesNeeded_exact hvalid.1 hvalid.2.2
  obtain rfl : writers = count := Option.some.inj (hwriters.symm.trans hcount)
  obtain ⟨count, hcount, hrpos, hreq, -⟩ := nodesNeeded_exact hvalid.1 hvalid.2.1
  obtain rfl : readers = count := Option.some.inj (hreaders.symm.trans hcount)
  have hid := toInt_ofNat_val hsize r
  have hle : writers.toInt ≤ (r.val : ℕ) := by
    rw [← hid]
    exact Int32.le_iff_toInt_le.mp (Int32.not_lt.mp hge)
  have hid' : (Int32.ofNat r.val - writers).toInt = (r.val - writers.toInt.toNat : ℕ) :=
    Int32.toInt_sub_natCast hid (by omega) (by omega)
  have hlast : r.val - writers.toInt.toNat ≤ mpiSize :=
    Nat.le_trans (Nat.sub_le _ _) r.isLt.le
  have hboth := Int32.toInt_add_of_fitsInt (a := readers) (b := writers)
    ⟨by omega, by rw [hreq, hweq]; exact hnodes⟩
  have hlt := Int32.lt_iff_toInt_lt.mp hneeded
  exact ⟨mapNamesAmount_nonneg hvalid.1 hvalid.2.1 hfitsReader (Int32.nonneg_of_natCast hid')
      (by omega),
    not_mul_neg hid' (Nat.lt_of_le_of_lt (Nat.mul_le_mul hlast (by decide)) hsleep)⟩

/-- An admitted `MultiMergedMapTestBench` gets to the test cycle on every rank. -/
theorem reach_multiMergedMap_of_admitted (hvalid : (Bench.multiMergedMap b).NonNegative)
    (hfits : (Bench.multiMergedMap b).Fits mpiSize) (htable : 0 < b.tableSize)
    (hwrites : ¬b.benchmarkWrites < 0)
    (h : b.checkNodes (Int32.ofNat mpiSize) ≠ .error .notEnoughNodesAvailable)
    (r : Fin mpiSize) : b.reach (Int32.ofNat mpiSize) (Int32.ofNat r.val) = .cycle := by
  have htable' : distributesRandomIPSet b.tableSize = true := decide_eq_true htable
  obtain ⟨readers, hreaders, -⟩ := nodesNeeded_exact hvalid.1 hvalid.2.1
  obtain ⟨writers, hwriters, -⟩ := nodesNeeded_exact hvalid.1 hvalid.2.2
  simp only [MultiMergedMapTestBench.checkNodes, hreaders, hwriters] at h
  split at h
  · exact absurd rfl h
  · next henough =>
    simp only [MultiMergedMapTestBench.reach, hreaders, hwriters, if_neg henough, htable',
      not_true, if_false, hwrites]
    split
    · next hneeded =>
      split
      · next hlt =>
        obtain ⟨hamount, hsleeps⟩ := writer_gets_ready hvalid hfits hwriters r hlt
        rw [if_neg hamount, if_neg hsleeps]
      · next hge =>
        obtain ⟨hamount, hsleeps⟩ := reader_gets_ready hvalid hfits hwriters hreaders r hge hneeded
        rw [if_neg hamount, if_neg hsleeps]
    · rfl

end MultiMerged

/-- An admitted run gets to the test cycle on every rank. -/
theorem reach_of_admitted (hvalid : bench.NonNegative) (hfits : bench.Fits mpiSize)
    (htable : 0 < bench.tableSize) (hwrites : ¬bench.benchmarkWrites < 0)
    (h : bench.checkNodes (Int32.ofNat mpiSize) ≠ .error .notEnoughNodesAvailable)
    (r : Fin mpiSize) : bench.reach r = .cycle := by
  cases bench with
  | mergedMap b => exact reach_mergedMap_of_admitted hvalid htable hwrites h r
  | multiMergedMap b => exact reach_multiMergedMap_of_admitted hvalid hfits htable hwrites h r

/-- Where nothing overflows, a rank gets to the test cycle exactly if it has a role. -/
theorem reach_eq_cycle_iff (mapBaseName : String) (warmupWrites : ℤ) (hvalid : bench.NonNegative)
    (hfits : bench.Fits mpiSize) (htable : 0 < bench.tableSize)
    (hwrites : ¬bench.benchmarkWrites < 0) (r : Fin mpiSize) :
    bench.reach r = .cycle ↔
      ∃ role, (bench.exact mapBaseName warmupWrites).role mpiSize r.val = .ok role := by
  have hcheck := checkNodes_exact mapBaseName warmupWrites hvalid hfits.2.1 (Int32.ofNat mpiSize)
  rw [Int32.toInt_ofNat_of_lt hfits.1] at hcheck
  by_cases h : bench.checkNodes (Int32.ofNat mpiSize) = .error .notEnoughNodesAvailable
  · rw [h] at hcheck
    rw [reach_of_checkNodes h r, role_exact_of_checkNodes hcheck r]
    exact ⟨nofun, nofun⟩
  · refine ⟨fun _ => ?_, fun _ => reach_of_admitted hvalid hfits htable hwrites h r⟩
    have hadmits : (bench.exact mapBaseName warmupWrites).checkNodes mpiSize ≠
        .error .notEnoughNodesAvailable := by
      rw [hcheck]
      cases hnodes : bench.checkNodes (Int32.ofNat mpiSize) with
      | ok nodes => exact fun hok => nomatch hok
      | error e =>
        intro herror
        rw [hnodes] at h
        exact h (congrArg Except.error (Except.error.inj herror))
    obtain ⟨L, hrole⟩ := (bench.exact mapBaseName warmupWrites).exists_layout
      (valid_exact hvalid) hadmits
    exact ⟨L.role r, hrole r⟩

end Bench

end TestBench
