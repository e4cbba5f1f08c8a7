import StateTableBench.Collections.Blocks
import StateTableBench.Text.Split
import Mathlib.Data.Fin.Basic
import Mathlib.Data.Fintype.Card
import Mathlib.Data.Int.Basic
import Mathlib.Data.List.FinRange

/-!
# Which rank works on which map

`MergedMapTestBench.run` and `MultiMergedMapTestBench.run` compute from the rank whether it is a
writer, a reader or a dummy, and the names of its maps. Here this computation is done in exact
integer arithmetic, with the truncating division of Java.

* `MultiMergedMapTestBench`: the first ranks are writers, the next ones readers, and each side
  splits the maps into consecutive blocks (`exists_coversMaps`);
* `MergedMapTestBench`: the ranks are divided into groups of one writer and `readersPerMap` readers,
  one group for each map.

Both are instances of `Layout`: every map has one writer, and it has a lower rank than the readers
of the map.
-/

open Blocks

namespace TestBench

/-- What a rank does in a run, with the names of its maps. -/
inductive Role
  | writer (maps : List String)
  | reader (maps : List String)
  /-- A `DummyNode`. -/
  | dummy
deriving DecidableEq

/-- The names of the maps to which a rank writes. -/
def Role.writes : Role → List String
  | .writer maps => maps
  | _ => []

/-- The names of the maps from which a rank reads. -/
def Role.reads : Role → List String
  | .reader maps => maps
  | _ => []

/-- The exceptions that leave `run` while the roles are computed. -/
inductive RunExn
  | notEnoughNodesAvailable
  /-- A division by zero. -/
  | arithmetic
  | negativeArraySize
deriving DecidableEq

/-- `mapBaseName + "_" + mapId`. -/
def mapName (mapBaseName : String) (mapId : ℤ) : String := mapBaseName ++ "_" ++ mapId.repr

theorem mapName_injective (mapBaseName : String) : Function.Injective (mapName mapBaseName) := by
  intro i j h
  unfold mapName at h
  exact Int.repr_injective ((String.append_right_inj _).mp h)

/-- The names of the maps `0, …, numberOfMaps - 1`. -/
def mapNames (mapBaseName : String) (numberOfMaps : ℕ) : List String :=
  (List.range numberOfMaps).map fun mapId : ℕ => mapName mapBaseName mapId

theorem nodup_mapNames (mapBaseName : String) (numberOfMaps : ℕ) :
    (mapNames mapBaseName numberOfMaps).Nodup := by
  refine List.nodup_range.map ?_
  intro i j h
  exact Int.ofNat_inj.mp (mapName_injective mapBaseName h)

namespace Exact

/-! ### `MultiMergedMapTestBench` -/

/-- The configuration of `MultiMergedMapTestBench`. The base name is the one that all ranks use
after `generateAndDistributeMapBaseName`. -/
structure MultiMergedMapTestBench where
  numberOfMaps : ℤ
  maxNumberOfMapsPerWriter : ℤ
  maxNumberOfMapsPerReader : ℤ
  mapBaseName : String
  tableSize : ℤ
  warmupWrites : ℤ
  benchmarkWrites : ℤ

/-- The number of nodes for `numberOfMaps` maps. -/
def nodesNeeded (numberOfMaps mapsPerNode : ℤ) : Except RunExn ℤ :=
  if mapsPerNode = 0 then .error .arithmetic
  else .ok (numberOfMaps.tdiv mapsPerNode + if 0 < numberOfMaps.tmod mapsPerNode then 1 else 0)

/-- `calculateMapNames`; the allocation of the array throws for a negative amount. -/
def calculateMapNames (mapBaseName : String) (nodeId maxNumberOfMaps mapsPerNode : ℤ) :
    Except RunExn (List String) :=
  let amount := min ((nodeId + 1) * mapsPerNode) maxNumberOfMaps - nodeId * mapsPerNode
  if amount < 0 then .error .negativeArraySize
  else .ok ((List.range amount.toNat).map fun i : ℕ =>
    mapName mapBaseName (nodeId * mapsPerNode + i))

/-- The numbers of reader and of writer nodes, if there are enough ranks. -/
def MultiMergedMapTestBench.checkNodes (b : MultiMergedMapTestBench) (worldSize : ℤ) :
    Except RunExn (ℤ × ℤ) := do
  let numberOfReaderNodesNeeded ← nodesNeeded b.numberOfMaps b.maxNumberOfMapsPerReader
  let numberOfWriterNodesNeeded ← nodesNeeded b.numberOfMaps b.maxNumberOfMapsPerWriter
  if worldSize < numberOfReaderNodesNeeded + numberOfWriterNodesNeeded then
    .error .notEnoughNodesAvailable
  else .ok (numberOfReaderNodesNeeded, numberOfWriterNodesNeeded)

/-- The role of a rank in `MultiMergedMapTestBench.run`. -/
def MultiMergedMapTestBench.role (b : MultiMergedMapTestBench) (worldSize worldRank : ℤ) :
    Except RunExn Role := do
  let (numberOfReaderNodesNeeded, numberOfWriterNodesNeeded) ← b.checkNodes worldSize
  if worldRank < numberOfReaderNodesNeeded + numberOfWriterNodesNeeded then
    if worldRank < numberOfWriterNodesNeeded then
      let myId := worldRank
      let myMaps ← calculateMapNames b.mapBaseName myId b.numberOfMaps b.maxNumberOfMapsPerWriter
      return .writer myMaps
    else
      let myId := worldRank - numberOfWriterNodesNeeded
      let myMaps ← calculateMapNames b.mapBaseName myId b.numberOfMaps b.maxNumberOfMapsPerReader
      return .reader myMaps
  else return .dummy

/-! ### `MergedMapTestBench` -/

/-- The configuration of `MergedMapTestBench`. -/
structure MergedMapTestBench where
  numberOfMaps : ℤ
  readersPerMap : ℤ
  mapBaseName : String
  tableSize : ℤ
  warmupWrites : ℤ
  benchmarkWrites : ℤ

/-- Assume 1 writer per map. -/
def writersPerMap : ℤ := 1

/-- The numbers of reader and of writer nodes, if there are enough ranks. -/
def MergedMapTestBench.checkNodes (b : MergedMapTestBench) (worldSize : ℤ) :
    Except RunExn (ℤ × ℤ) :=
  let numberOfReaderNodesNeeded := b.numberOfMaps * b.readersPerMap
  let numberOfWriterNodesNeeded := b.numberOfMaps * writersPerMap
  if worldSize < numberOfReaderNodesNeeded + numberOfWriterNodesNeeded then
    .error .notEnoughNodesAvailable
  else .ok (numberOfReaderNodesNeeded, numberOfWriterNodesNeeded)

/-- The role of a rank in `MergedMapTestBench.run`. -/
def MergedMapTestBench.role (b : MergedMapTestBench) (worldSize worldRank : ℤ) :
    Except RunExn Role := do
  let (numberOfReaderNodesNeeded, numberOfWriterNodesNeeded) ← b.checkNodes worldSize
  if worldRank < numberOfReaderNodesNeeded + numberOfWriterNodesNeeded then
    if writersPerMap + b.readersPerMap = 0 then .error .arithmetic
    else
      let myMapId := worldRank.tdiv (writersPerMap + b.readersPerMap)
      let myMapName := mapName b.mapBaseName myMapId
      let mapRank := worldRank.tmod (writersPerMap + b.readersPerMap)
      if mapRank = 0 then return .writer [myMapName] else return .reader [myMapName]
  else return .dummy

/-! ## The blocks of `MultiMergedMapTestBench` -/

theorem nodesNeeded_natCast (n : ℕ) {m : ℕ} (hm : 0 < m) :
    nodesNeeded n m = .ok (cappedCount n m : ℕ) := by
  have hne : (m : ℤ) ≠ 0 := by omega
  rw [nodesNeeded, if_neg hne, ← Int.ofNat_tdiv, ← Int.ofNat_tmod, cappedCount]
  simp only [Int.natCast_pos, Int.natCast_add]
  split <;> rfl

/-- The names of the maps in block `r` of a side with at most `m` maps for each node. -/
def blockNames (mapBaseName : String) (n m r : ℕ) : List String :=
  (List.range (cappedSize n m r)).map fun i =>
    mapName mapBaseName (start (cappedSize n m) r + i : ℕ)

theorem calculateMapNames_natCast (mapBaseName : String) {n m r : ℕ} (h : r < cappedCount n m) :
    calculateMapNames mapBaseName r n m = .ok (blockNames mapBaseName n m r) := by
  have hlt := mul_lt_of_lt_cappedCount h
  -- the amount is the size of the block, so it is not negative
  have hamount : min (((r : ℤ) + 1) * m) n - r * m = (cappedSize n m r : ℕ) := by
    have hle : r * m ≤ (r + 1) * m := Nat.mul_le_mul_right m (Nat.le_succ r)
    have hend : ((r : ℤ) + 1) * m = ((r + 1) * m : ℕ) := by
      push_cast
      rfl
    rw [cappedSize, hend, ← Int.natCast_mul]
    omega
  unfold calculateMapNames blockNames
  simp only [hamount, Int.toNat_natCast, start_cappedSize_of_lt h]
  rw [if_neg (by omega)]
  push_cast
  rfl

/-- The blocks of a side, one after another, are all maps. -/
theorem flatMap_blockNames (mapBaseName : String) (n : ℕ) {m : ℕ} (hm : 0 < m) :
    (List.range (cappedCount n m)).flatMap (blockNames mapBaseName n m) =
      mapNames mapBaseName n := by
  have hrange := congrArg (List.map fun mapId : ℕ => mapName mapBaseName mapId)
    (Blocks.flatMap_range (cappedSize n m) (cappedCount n m))
  rw [start_cappedSize_count hm, List.map_flatMap] at hrange
  rw [mapNames, ← hrange]
  refine List.flatMap_congr fun r _ => ?_
  rw [blockNames, List.map_map]
  rfl

/-- The role of rank `k`, as a natural number. -/
def blockRole (mapBaseName : String) (n perWriter perReader k : ℕ) : Role :=
  if k < cappedCount n perWriter then .writer (blockNames mapBaseName n perWriter k)
  else if k < cappedCount n perWriter + cappedCount n perReader then
    .reader (blockNames mapBaseName n perReader (k - cappedCount n perWriter))
  else .dummy

section Multi

variable {b : MultiMergedMapTestBench} {n perWriter perReader worldSize : ℕ}

theorem checkNodes_natCast (hn : b.numberOfMaps = n) (hw : b.maxNumberOfMapsPerWriter = perWriter)
    (hr : b.maxNumberOfMapsPerReader = perReader) (hwpos : 0 < perWriter) (hrpos : 0 < perReader) :
    b.checkNodes worldSize =
      if worldSize < cappedCount n perReader + cappedCount n perWriter then
        .error .notEnoughNodesAvailable
      else .ok ((cappedCount n perReader : ℕ), (cappedCount n perWriter : ℕ)) := by
  unfold MultiMergedMapTestBench.checkNodes
  rw [hn, hw, hr, nodesNeeded_natCast n hwpos, nodesNeeded_natCast n hrpos]
  simp only [bind, Except.bind, ← Int.natCast_add, Int.ofNat_lt]

/-- The role of a rank, when there are enough ranks. -/
theorem role_eq_blockRole (hn : b.numberOfMaps = n) (hw : b.maxNumberOfMapsPerWriter = perWriter)
    (hr : b.maxNumberOfMapsPerReader = perReader) (hwpos : 0 < perWriter) (hrpos : 0 < perReader)
    (henough : cappedCount n perReader + cappedCount n perWriter ≤ worldSize) (k : ℕ) :
    b.role worldSize k = .ok (blockRole b.mapBaseName n perWriter perReader k) := by
  unfold MultiMergedMapTestBench.role blockRole
  rw [checkNodes_natCast hn hw hr hwpos hrpos, if_neg (Nat.not_lt.mpr henough)]
  simp only [bind, Except.bind, pure, Except.pure, ← Int.natCast_add, Int.ofNat_lt]
  by_cases hwriter : k < cappedCount n perWriter
  · rw [if_pos (by omega), if_pos hwriter, if_pos hwriter, hn, hw,
      calculateMapNames_natCast b.mapBaseName hwriter]
  · rw [if_neg hwriter, if_neg hwriter]
    by_cases hreader : k < cappedCount n perWriter + cappedCount n perReader
    · -- the readers are numbered from the last writer on
      have hid : (k : ℤ) - (cappedCount n perWriter : ℕ) =
          (k - cappedCount n perWriter : ℕ) := by omega
      rw [if_pos (by omega), if_pos hreader, hn, hr, hid,
        calculateMapNames_natCast b.mapBaseName (by omega)]
    · rw [if_neg (by omega), if_neg hreader]

/-- The maps to which the ranks write, in the order of the ranks. -/
theorem flatMap_writes_blockRole (mapBaseName : String) (hwpos : 0 < perWriter)
    (henough : cappedCount n perReader + cappedCount n perWriter ≤ worldSize) :
    (List.range worldSize).flatMap (fun k =>
      (blockRole mapBaseName n perWriter perReader k).writes) = mapNames mapBaseName n := by
  -- the writers, and then the ranks that do not write
  obtain ⟨rest, rfl⟩ := Nat.exists_eq_add_of_le (show cappedCount n perWriter ≤ worldSize by omega)
  rw [List.range_add, List.flatMap_append, List.flatMap_map,
    ← flatMap_blockNames mapBaseName n hwpos]
  have hwriters : (List.range (cappedCount n perWriter)).flatMap (fun k =>
      (blockRole mapBaseName n perWriter perReader k).writes) =
      (List.range (cappedCount n perWriter)).flatMap (blockNames mapBaseName n perWriter) := by
    refine List.flatMap_congr fun k hk => ?_
    rw [blockRole, if_pos (List.mem_range.mp hk), Role.writes]
  have hothers : (List.range rest).flatMap (fun k =>
      (blockRole mapBaseName n perWriter perReader (cappedCount n perWriter + k)).writes) = [] := by
    refine List.flatMap_eq_nil_iff.mpr fun k _ => ?_
    rw [blockRole, if_neg (by omega)]
    split <;> rfl
  rw [hwriters, hothers, List.append_nil]

/-- The maps from which the ranks read, in the order of the ranks. -/
theorem flatMap_reads_blockRole (mapBaseName : String) (hrpos : 0 < perReader)
    (henough : cappedCount n perReader + cappedCount n perWriter ≤ worldSize) :
    (List.range worldSize).flatMap (fun k =>
      (blockRole mapBaseName n perWriter perReader k).reads) = mapNames mapBaseName n := by
  -- the writers, the readers and the dummies
  obtain ⟨rest, rfl⟩ := Nat.exists_eq_add_of_le henough
  rw [Nat.add_comm (cappedCount n perReader), List.range_add, List.range_add, List.flatMap_append,
    List.flatMap_append, List.flatMap_map, List.flatMap_map,
    ← flatMap_blockNames mapBaseName n hrpos]
  have hwriters : (List.range (cappedCount n perWriter)).flatMap (fun k =>
      (blockRole mapBaseName n perWriter perReader k).reads) = [] := by
    refine List.flatMap_eq_nil_iff.mpr fun k hk => ?_
    rw [blockRole, if_pos (List.mem_range.mp hk)]
    rfl
  have hreaders : (List.range (cappedCount n perReader)).flatMap (fun k =>
      (blockRole mapBaseName n perWriter perReader (cappedCount n perWriter + k)).reads) =
      (List.range (cappedCount n perReader)).flatMap (blockNames mapBaseName n perReader) := by
    refine List.flatMap_congr fun k hk => ?_
    rw [blockRole, if_neg (by omega), if_pos (Nat.add_lt_add_left (List.mem_range.mp hk) _),
      Role.reads, Nat.add_sub_cancel_left]
  have hothers : (List.range rest).flatMap (fun k => (blockRole mapBaseName n perWriter perReader
      (cappedCount n perWriter + cappedCount n perReader + k)).reads) = [] := by
    refine List.flatMap_eq_nil_iff.mpr fun k _ => ?_
    rw [blockRole, if_neg (by omega), if_neg (by omega)]
    rfl
  rw [hwriters, hreaders, hothers, List.nil_append, List.append_nil]

end Multi

/-- Every map of the bench has exactly one writer and exactly one reader. -/
structure CoversMaps (b : MultiMergedMapTestBench) (worldSize : ℕ) (role : ℕ → Role) : Prop where
  /-- The names of the maps, which are pairwise distinct. -/
  nodup : (mapNames b.mapBaseName b.numberOfMaps.toNat).Nodup
  /-- The names of all writers, rank by rank. -/
  writes : (List.range worldSize).flatMap (fun k => (role k).writes) =
    mapNames b.mapBaseName b.numberOfMaps.toNat
  /-- The names of all readers, rank by rank. -/
  reads : (List.range worldSize).flatMap (fun k => (role k).reads) =
    mapNames b.mapBaseName b.numberOfMaps.toNat
  /-- The first ranks are writers, the next ones readers, and the remaining ones dummies. -/
  roles : ∃ readers writers : ℕ, b.checkNodes worldSize = .ok (readers, writers) ∧
    ∀ k < worldSize,
      (k < writers → ∃ maps, role k = .writer maps ∧ 1 ≤ maps.length ∧
        maps.length ≤ b.maxNumberOfMapsPerWriter) ∧
      (writers ≤ k → k < writers + readers → ∃ maps, role k = .reader maps ∧ 1 ≤ maps.length ∧
        maps.length ≤ b.maxNumberOfMapsPerReader) ∧
      (writers + readers ≤ k → role k = .dummy)

/-- For every number of maps and every number of maps for each node: if `run` does not find too
few ranks, then every map has exactly one writer and one reader, and nobody has too many. -/
theorem exists_coversMaps (b : MultiMergedMapTestBench) (worldSize : ℕ)
    (hmaps : 0 ≤ b.numberOfMaps) (hwriter : 1 ≤ b.maxNumberOfMapsPerWriter)
    (hreader : 1 ≤ b.maxNumberOfMapsPerReader)
    (hrun : b.checkNodes worldSize ≠ .error .notEnoughNodesAvailable) :
    ∃ role : ℕ → Role, (∀ k < worldSize, b.role worldSize k = .ok (role k)) ∧
      CoversMaps b worldSize role := by
  obtain ⟨n, hn⟩ := Int.eq_ofNat_of_zero_le hmaps
  obtain ⟨perWriter, hw⟩ := Int.eq_ofNat_of_zero_le (show 0 ≤ b.maxNumberOfMapsPerWriter by omega)
  obtain ⟨perReader, hr⟩ := Int.eq_ofNat_of_zero_le (show 0 ≤ b.maxNumberOfMapsPerReader by omega)
  have hwpos : 0 < perWriter := by omega
  have hrpos : 0 < perReader := by omega
  have hcheck := @checkNodes_natCast b n perWriter perReader worldSize hn hw hr hwpos hrpos
  -- the check has not thrown, so there are enough ranks
  have henough : cappedCount n perReader + cappedCount n perWriter ≤ worldSize := by
    by_contra hlt
    rw [if_pos (Nat.not_le.mp hlt)] at hcheck
    exact hrun hcheck
  rw [if_neg (Nat.not_lt.mpr henough)] at hcheck
  have htoNat : b.numberOfMaps.toNat = n := by omega
  refine ⟨blockRole b.mapBaseName n perWriter perReader,
    fun k _ => role_eq_blockRole hn hw hr hwpos hrpos henough k, ?_⟩
  constructor
  case nodup => exact nodup_mapNames _ _
  case writes =>
    rw [htoNat]
    exact flatMap_writes_blockRole b.mapBaseName hwpos henough
  case reads =>
    rw [htoNat]
    exact flatMap_reads_blockRole b.mapBaseName hrpos henough
  case roles =>
    refine ⟨_, _, hcheck, fun k _ => ⟨fun hk => ?_, fun hle hk => ?_, fun hle => ?_⟩⟩
    · refine ⟨_, by rw [blockRole, if_pos hk], ?_⟩
      have hpos := cappedSize_pos hwpos hk
      have hcap := cappedSize_le n perWriter k
      rw [blockNames, List.length_map, List.length_range, hw]
      exact ⟨hpos, by omega⟩
    · refine ⟨_, by rw [blockRole, if_neg (Nat.not_lt.mpr hle), if_pos hk], ?_⟩
      have hpos := @cappedSize_pos n perReader (k - cappedCount n perWriter) hrpos (by omega)
      have hcap := cappedSize_le n perReader (k - cappedCount n perWriter)
      rw [blockNames, List.length_map, List.length_range, hr]
      exact ⟨hpos, by omega⟩
    · rw [blockRole, if_neg (by omega), if_neg (by omega)]

/-- Five maps, two for each writer and three for each reader, on six ranks. -/
theorem exists_coversMaps_five :
    (⟨5, 2, 3, "map", 1000, 0, 100⟩ : MultiMergedMapTestBench).checkNodes 6 = .ok (2, 3) ∧
    ∃ role : ℕ → Role,
      (∀ k : ℕ, k < 6 → (⟨5, 2, 3, "map", 1000, 0, 100⟩ : MultiMergedMapTestBench).role (6 : ℕ) k =
        .ok (role k)) ∧
      CoversMaps ⟨5, 2, 3, "map", 1000, 0, 100⟩ 6 role :=
  ⟨by decide, exists_coversMaps ⟨5, 2, 3, "map", 1000, 0, 100⟩ 6 (by decide) (by decide)
    (by decide) (by decide)⟩

end Exact

end TestBench
