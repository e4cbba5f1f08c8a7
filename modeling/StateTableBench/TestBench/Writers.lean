import StateTableBench.TestBench.Layout
import Mathlib.Data.Finset.Card
import Mathlib.Data.Fintype.Basic

/-!
# One writer for each map

In both benches every map has exactly one writer, and the readers of the map have higher ranks
than the writer. `Layout` states this of an assignment of roles to the ranks, and
`Exact.Bench.exists_layout` shows it of both benches, for every configuration and every number of
ranks that the check for available nodes accepts.
-/

open Blocks

namespace TestBench

/-- An assignment of roles to the ranks in which each map of `names` has exactly one writer and
`readers` readers, of higher rank. -/
structure Layout (mpiSize : ℕ) (names : List String) (readers : ℕ) where
  role : Fin mpiSize → Role
  /-- A rank has no map twice. -/
  nodup : ∀ r, (role r).writes.Nodup ∧ (role r).reads.Nodup
  exists_writer : ∀ t ∈ names, ∃ w, t ∈ (role w).writes
  writer_unique : ∀ t w w', t ∈ (role w).writes → t ∈ (role w').writes → w = w'
  writer_lt : ∀ t w r, t ∈ (role w).writes → t ∈ (role r).reads → w < r
  /-- Only the maps of `names` are used. -/
  mem_names : ∀ t r, t ∈ (role r).writes ∨ t ∈ (role r).reads → t ∈ names
  card_readers : ∀ t ∈ names, (Finset.univ.filter fun r => t ∈ (role r).reads).card = readers

namespace Exact

section Multi

variable {mapBaseName : String} {n perWriter perReader mpiSize : ℕ}

/-- Among lists that together have no element twice, an element is in one list only. -/
theorem eq_of_mem_of_nodup_flatMap {α : Type} {p : ℕ} {f : ℕ → List α}
    (h : ((List.range p).flatMap f).Nodup) {k k' : ℕ} (hk : k < p) (hk' : k' < p) {x : α}
    (hx : x ∈ f k) (hx' : x ∈ f k') : k = k' := by
  rw [List.nodup_flatMap] at h
  by_contra hne
  -- different lists are disjoint
  have hsymm : Std.Symm (Function.onFun List.Disjoint f) := ⟨fun _ _ hdisj => hdisj.symm⟩
  exact h.2.forall (List.mem_range.mpr hk) (List.mem_range.mpr hk') hne hx hx'

theorem lt_of_mem_writes_blockRole {t : String} {k : ℕ}
    (h : t ∈ (blockRole mapBaseName n perWriter perReader k).writes) :
    k < cappedCount n perWriter := by
  by_contra hle
  rw [blockRole, if_neg hle] at h
  split at h <;> simp [Role.writes] at h

theorem le_of_mem_reads_blockRole {t : String} {k : ℕ}
    (h : t ∈ (blockRole mapBaseName n perWriter perReader k).reads) :
    cappedCount n perWriter ≤ k := by
  by_contra hlt
  rw [blockRole, if_pos (Nat.not_le.mp hlt)] at h
  simp [Role.reads] at h

section Blocks

variable (hwpos : 0 < perWriter) (hrpos : 0 < perReader)
variable (henough : cappedCount n perReader + cappedCount n perWriter ≤ mpiSize)

include hwpos hrpos henough in
theorem nodup_blockRole {k : ℕ} (hk : k < mpiSize) :
    (blockRole mapBaseName n perWriter perReader k).writes.Nodup ∧
      (blockRole mapBaseName n perWriter perReader k).reads.Nodup := by
  have hwrites := nodup_mapNames mapBaseName n
  have hreads := nodup_mapNames mapBaseName n
  -- each list of names is a part of the list of all names
  rw [← flatMap_writes_blockRole mapBaseName hwpos henough, List.nodup_flatMap] at hwrites
  rw [← flatMap_reads_blockRole mapBaseName hrpos henough, List.nodup_flatMap] at hreads
  exact ⟨hwrites.1 _ (List.mem_range.mpr hk), hreads.1 _ (List.mem_range.mpr hk)⟩

include hwpos henough in
theorem exists_writer_blockRole {t : String} (ht : t ∈ mapNames mapBaseName n) :
    ∃ w : Fin mpiSize, t ∈ (blockRole mapBaseName n perWriter perReader w.val).writes := by
  rw [← flatMap_writes_blockRole mapBaseName hwpos henough, List.mem_flatMap] at ht
  obtain ⟨k, hk, ht⟩ := ht
  exact ⟨⟨k, List.mem_range.mp hk⟩, ht⟩

include hwpos henough in
theorem writer_unique_blockRole {t : String} {k k' : ℕ} (hk : k < mpiSize) (hk' : k' < mpiSize)
    (ht : t ∈ (blockRole mapBaseName n perWriter perReader k).writes)
    (ht' : t ∈ (blockRole mapBaseName n perWriter perReader k').writes) : k = k' := by
  have hnodup := nodup_mapNames mapBaseName n
  rw [← flatMap_writes_blockRole mapBaseName hwpos henough] at hnodup
  exact eq_of_mem_of_nodup_flatMap hnodup hk hk' ht ht'

include hwpos hrpos henough in
theorem mem_names_blockRole {t : String} {k : ℕ} (hk : k < mpiSize)
    (ht : t ∈ (blockRole mapBaseName n perWriter perReader k).writes ∨
      t ∈ (blockRole mapBaseName n perWriter perReader k).reads) :
    t ∈ mapNames mapBaseName n := by
  rcases ht with ht | ht
  · rw [← flatMap_writes_blockRole mapBaseName hwpos henough]
    exact List.mem_flatMap.mpr ⟨k, List.mem_range.mpr hk, ht⟩
  · rw [← flatMap_reads_blockRole mapBaseName hrpos henough]
    exact List.mem_flatMap.mpr ⟨k, List.mem_range.mpr hk, ht⟩

include hrpos henough in
theorem card_readers_blockRole {t : String} (ht : t ∈ mapNames mapBaseName n) :
    (Finset.univ.filter fun r : Fin mpiSize =>
      t ∈ (blockRole mapBaseName n perWriter perReader r.val).reads).card = 1 := by
  rw [← flatMap_reads_blockRole mapBaseName hrpos henough, List.mem_flatMap] at ht
  obtain ⟨k, hk, ht⟩ := ht
  have hnodup := nodup_mapNames mapBaseName n
  rw [← flatMap_reads_blockRole mapBaseName hrpos henough] at hnodup
  rw [Finset.card_eq_one]
  -- the rank whose block has the map, and no other
  refine ⟨⟨k, List.mem_range.mp hk⟩, Finset.eq_singleton_iff_unique_mem.mpr ⟨?_, ?_⟩⟩
  · simpa using ht
  · intro r hr
    rw [Finset.mem_filter] at hr
    exact Fin.ext (eq_of_mem_of_nodup_flatMap hnodup r.isLt (List.mem_range.mp hk) hr.2 ht)

end Blocks

/-- The roles of `MultiMergedMapTestBench`: one writer and one reader for each map. -/
def blockLayout (mapBaseName : String) (hwpos : 0 < perWriter) (hrpos : 0 < perReader)
    (henough : cappedCount n perReader + cappedCount n perWriter ≤ mpiSize) :
    Layout mpiSize (mapNames mapBaseName n) 1 where
  role r := blockRole mapBaseName n perWriter perReader r.val
  nodup r := nodup_blockRole hwpos hrpos henough r.isLt
  exists_writer _ ht := exists_writer_blockRole hwpos henough ht
  writer_unique _ w w' hw hw' :=
    Fin.ext (writer_unique_blockRole hwpos henough w.isLt w'.isLt hw hw')
  writer_lt _ _ _ hw hr := Fin.lt_def.mpr
    (Nat.lt_of_lt_of_le (lt_of_mem_writes_blockRole hw) (le_of_mem_reads_blockRole hr))
  mem_names _ r ht := mem_names_blockRole hwpos hrpos henough r.isLt ht
  card_readers _ ht := card_readers_blockRole hrpos henough ht

end Multi

section Groups

variable {mapBaseName : String} {n perMap mpiSize : ℕ}

/-- The role of rank `k` when the ranks are divided into `n` groups of one writer and `perMap`
readers. -/
def groupRole (mapBaseName : String) (n perMap k : ℕ) : Role :=
  if k < n * (perMap + 1) then
    if k % (perMap + 1) = 0 then .writer [mapName mapBaseName (k / (perMap + 1) : ℕ)]
    else .reader [mapName mapBaseName (k / (perMap + 1) : ℕ)]
  else .dummy

theorem mem_writes_groupRole {t : String} {k : ℕ} :
    t ∈ (groupRole mapBaseName n perMap k).writes ↔
      k < n * (perMap + 1) ∧ k % (perMap + 1) = 0 ∧
        t = mapName mapBaseName (k / (perMap + 1) : ℕ) := by
  unfold groupRole
  split
  · split <;> simp_all [Role.writes]
  · simp_all [Role.writes]

theorem mem_reads_groupRole {t : String} {k : ℕ} :
    t ∈ (groupRole mapBaseName n perMap k).reads ↔
      k < n * (perMap + 1) ∧ k % (perMap + 1) ≠ 0 ∧
        t = mapName mapBaseName (k / (perMap + 1) : ℕ) := by
  unfold groupRole
  split
  · split <;> simp_all [Role.reads]
  · simp_all [Role.reads]

theorem mem_mapNames {t : String} :
    t ∈ mapNames mapBaseName n ↔ ∃ mapId < n, t = mapName mapBaseName (mapId : ℕ) := by
  rw [mapNames, List.mem_map]
  constructor
  · rintro ⟨mapId, hlt, rfl⟩
    exact ⟨mapId, List.mem_range.mp hlt, rfl⟩
  · rintro ⟨mapId, hlt, rfl⟩
    exact ⟨mapId, List.mem_range.mpr hlt, rfl⟩

theorem mapName_natCast_inj {i j : ℕ} :
    mapName mapBaseName (i : ℕ) = mapName mapBaseName (j : ℕ) ↔ i = j := by
  rw [(mapName_injective mapBaseName).eq_iff, Int.ofNat_inj]

/-- The readers of a map are the ranks of its group but the first. -/
theorem group_of_mem_reads {mapId k : ℕ}
    (h : mapName mapBaseName (mapId : ℕ) ∈ (groupRole mapBaseName n perMap k).reads) :
    mapId * (perMap + 1) < k ∧ k < mapId * (perMap + 1) + (perMap + 1) := by
  obtain ⟨-, hmod, heq⟩ := mem_reads_groupRole.mp h
  have hdiv := Nat.div_add_mod k (perMap + 1)
  have hlt : k % (perMap + 1) < perMap + 1 := Nat.mod_lt k (Nat.succ_pos perMap)
  -- the name of the map gives the number of the group
  rw [← mapName_natCast_inj.mp heq, Nat.mul_comm] at hdiv
  omega

/-- The `i`-th reader of a map. -/
theorem group_reader {mapId i : ℕ} (hi : i < perMap) :
    (mapId * (perMap + 1) + i + 1) / (perMap + 1) = mapId ∧
      (mapId * (perMap + 1) + i + 1) % (perMap + 1) ≠ 0 := by
  constructor
  · refine Nat.div_eq_of_lt_le (by omega) ?_
    rw [Nat.succ_mul]
    omega
  · rw [Nat.add_assoc, Nat.mul_comm, Nat.mul_add_mod, Nat.mod_eq_of_lt (by omega)]
    omega

theorem nodup_groupRole (k : ℕ) :
    (groupRole mapBaseName n perMap k).writes.Nodup ∧
      (groupRole mapBaseName n perMap k).reads.Nodup := by
  unfold groupRole
  split
  · split <;> simp [Role.writes, Role.reads]
  · simp [Role.writes, Role.reads]

/-- The writer of a map is the first rank of its group. -/
theorem exists_writer_groupRole (henough : n * (perMap + 1) ≤ mpiSize) {t : String}
    (ht : t ∈ mapNames mapBaseName n) :
    ∃ w : Fin mpiSize, t ∈ (groupRole mapBaseName n perMap w.val).writes := by
  obtain ⟨mapId, hlt, rfl⟩ := mem_mapNames.mp ht
  have hrank : mapId * (perMap + 1) < n * (perMap + 1) :=
    Nat.mul_lt_mul_of_pos_right hlt (Nat.succ_pos perMap)
  refine ⟨⟨mapId * (perMap + 1), by omega⟩, mem_writes_groupRole.mpr ⟨hrank, ?_, ?_⟩⟩
  · exact Nat.mul_mod_left _ _
  · rw [Nat.mul_div_cancel _ (Nat.succ_pos perMap)]

theorem writer_unique_groupRole {t : String} {k k' : ℕ}
    (hk : t ∈ (groupRole mapBaseName n perMap k).writes)
    (hk' : t ∈ (groupRole mapBaseName n perMap k').writes) : k = k' := by
  obtain ⟨-, hmod, rfl⟩ := mem_writes_groupRole.mp hk
  obtain ⟨-, hmod', heq⟩ := mem_writes_groupRole.mp hk'
  have hdiv := mapName_natCast_inj.mp heq
  -- same group, and both are the first of it
  rw [← Nat.div_add_mod k (perMap + 1), ← Nat.div_add_mod k' (perMap + 1), hmod, hmod', hdiv]

theorem writer_lt_groupRole {t : String} {k k' : ℕ}
    (hk : t ∈ (groupRole mapBaseName n perMap k).writes)
    (hk' : t ∈ (groupRole mapBaseName n perMap k').reads) : k < k' := by
  obtain ⟨-, hmod, rfl⟩ := mem_writes_groupRole.mp hk
  obtain ⟨-, hmod', heq⟩ := mem_reads_groupRole.mp hk'
  have hdiv := mapName_natCast_inj.mp heq
  -- in the same group, and the writer is the first
  have hwriter := Nat.div_add_mod k (perMap + 1)
  have hreader := Nat.div_add_mod k' (perMap + 1)
  rw [hdiv] at hwriter
  omega

theorem mem_names_groupRole {t : String} {k : ℕ}
    (ht : t ∈ (groupRole mapBaseName n perMap k).writes ∨
      t ∈ (groupRole mapBaseName n perMap k).reads) : t ∈ mapNames mapBaseName n := by
  have hlt : k < n * (perMap + 1) → k / (perMap + 1) < n := fun hk =>
    Nat.div_lt_of_lt_mul (by rwa [Nat.mul_comm])
  rcases ht with ht | ht
  · obtain ⟨hk, -, rfl⟩ := mem_writes_groupRole.mp ht
    exact mem_mapNames.mpr ⟨_, hlt hk, rfl⟩
  · obtain ⟨hk, -, rfl⟩ := mem_reads_groupRole.mp ht
    exact mem_mapNames.mpr ⟨_, hlt hk, rfl⟩

/-- The other ranks of the group of a map are its readers. -/
theorem card_readers_groupRole (henough : n * (perMap + 1) ≤ mpiSize) {t : String}
    (ht : t ∈ mapNames mapBaseName n) :
    (Finset.univ.filter fun r : Fin mpiSize =>
      t ∈ (groupRole mapBaseName n perMap r.val).reads).card = perMap := by
  obtain ⟨mapId, hlt, rfl⟩ := mem_mapNames.mp ht
  have hgroup : mapId * (perMap + 1) + (perMap + 1) ≤ n * (perMap + 1) := by
    rw [← Nat.succ_mul]
    exact Nat.mul_le_mul_right _ hlt
  have hcard : (Finset.univ.filter fun r : Fin mpiSize =>
      mapName mapBaseName (mapId : ℕ) ∈ (groupRole mapBaseName n perMap r.val).reads).card =
      (Finset.range perMap).card := by
    -- the readers correspond to their numbers in the group
    refine Finset.card_bij' (fun r _ => r.val - mapId * (perMap + 1) - 1)
      (fun i hi => ⟨mapId * (perMap + 1) + i + 1, ?_⟩) ?_ ?_ ?_ ?_
    · have hi' := Finset.mem_range.mp hi
      omega
    · intro r hr
      have hrange := group_of_mem_reads (Finset.mem_filter.mp hr).2
      exact Finset.mem_range.mpr (by omega)
    · intro i hi
      have hi' := Finset.mem_range.mp hi
      obtain ⟨hdiv, hmod⟩ := @group_reader perMap mapId i hi'
      refine Finset.mem_filter.mpr ⟨Finset.mem_univ _, mem_reads_groupRole.mpr ⟨?_, hmod, ?_⟩⟩
      · show mapId * (perMap + 1) + i + 1 < n * (perMap + 1)
        omega
      · rw [hdiv]
    · intro r hr
      have hrange := group_of_mem_reads (Finset.mem_filter.mp hr).2
      refine Fin.ext ?_
      show mapId * (perMap + 1) + (r.val - mapId * (perMap + 1) - 1) + 1 = r.val
      omega
    · intro i hi
      show mapId * (perMap + 1) + i + 1 - mapId * (perMap + 1) - 1 = i
      omega
  rw [hcard, Finset.card_range]

/-- The roles of `MergedMapTestBench`: one writer and `perMap` readers for each map. -/
def groupLayout (mapBaseName : String) (henough : n * (perMap + 1) ≤ mpiSize) :
    Layout mpiSize (mapNames mapBaseName n) perMap where
  role r := groupRole mapBaseName n perMap r.val
  nodup r := nodup_groupRole r.val
  exists_writer _ ht := exists_writer_groupRole henough ht
  writer_unique _ _ _ hw hw' := Fin.ext (writer_unique_groupRole hw hw')
  writer_lt _ _ _ hw hr := Fin.lt_def.mpr (writer_lt_groupRole hw hr)
  mem_names _ _ ht := mem_names_groupRole ht
  card_readers _ ht := card_readers_groupRole henough ht

/-- The number of nodes that `MergedMapTestBench` needs. -/
theorem nodes_natCast {b : MergedMapTestBench} (hn : b.numberOfMaps = n)
    (hr : b.readersPerMap = perMap) :
    b.numberOfMaps * b.readersPerMap + b.numberOfMaps * writersPerMap =
      (n * (perMap + 1) : ℕ) := by
  rw [hn, hr, writersPerMap]
  push_cast
  rw [Int.mul_add]

/-- The role of a rank of `MergedMapTestBench`, when there are enough ranks. -/
theorem role_eq_groupRole {b : MergedMapTestBench} (hn : b.numberOfMaps = n)
    (hr : b.readersPerMap = perMap) (henough : n * (perMap + 1) ≤ mpiSize) (k : ℕ) :
    b.role mpiSize k = .ok (groupRole b.mapBaseName n perMap k) := by
  have hneeded := nodes_natCast hn hr
  have hgroup : writersPerMap + b.readersPerMap = (perMap + 1 : ℕ) := by
    rw [hr, writersPerMap]
    push_cast
    rw [Int.add_comm]
  unfold MergedMapTestBench.role MergedMapTestBench.checkNodes groupRole
  simp only [hneeded, hgroup, Int.ofNat_lt, bind, Except.bind, pure, Except.pure]
  rw [if_neg (Nat.not_lt.mpr henough)]
  simp only [← Int.ofNat_tdiv, ← Int.ofNat_tmod, hneeded, Int.ofNat_lt, Int.natCast_eq_zero]
  rw [if_neg (Nat.succ_ne_zero perMap)]
  split
  · split <;> rfl
  · rfl

end Groups

/-- One of the two benches with its configuration. -/
inductive Bench
  | mergedMap (b : MergedMapTestBench)
  | multiMergedMap (b : MultiMergedMapTestBench)

namespace Bench

/-- The role of a rank. -/
def role (bench : Bench) (worldSize worldRank : ℤ) : Except RunExn Role :=
  match bench with
  | .mergedMap b => b.role worldSize worldRank
  | .multiMergedMap b => b.role worldSize worldRank

/-- The check whether there are enough nodes. -/
def checkNodes (bench : Bench) (worldSize : ℤ) : Except RunExn (ℤ × ℤ) :=
  match bench with
  | .mergedMap b => b.checkNodes worldSize
  | .multiMergedMap b => b.checkNodes worldSize

/-- The names of all maps. -/
def names : Bench → List String
  | .mergedMap b => mapNames b.mapBaseName b.numberOfMaps.toNat
  | .multiMergedMap b => mapNames b.mapBaseName b.numberOfMaps.toNat

/-- The number of readers of a map. -/
def readersPerMap : Bench → ℕ
  | .mergedMap b => b.readersPerMap.toNat
  | .multiMergedMap _ => 1

/-- The numbers of the configuration are as they should be. -/
def Valid : Bench → Prop
  | .mergedMap b => 0 ≤ b.numberOfMaps ∧ 0 ≤ b.readersPerMap
  | .multiMergedMap b => 0 ≤ b.numberOfMaps ∧ 1 ≤ b.maxNumberOfMapsPerWriter ∧
      1 ≤ b.maxNumberOfMapsPerReader

/-- Both benches have a layout, if there are enough nodes. -/
theorem exists_layout (bench : Bench) (hvalid : bench.Valid) {mpiSize : ℕ}
    (henough : bench.checkNodes mpiSize ≠ .error .notEnoughNodesAvailable) :
    ∃ L : Layout mpiSize bench.names bench.readersPerMap,
      ∀ r : Fin mpiSize, bench.role mpiSize r.val = .ok (L.role r) := by
  cases bench with
  | mergedMap b =>
    obtain ⟨hmaps, hreaders⟩ := hvalid
    obtain ⟨n, hn⟩ := Int.eq_ofNat_of_zero_le hmaps
    obtain ⟨perMap, hr⟩ := Int.eq_ofNat_of_zero_le hreaders
    have henough' : n * (perMap + 1) ≤ mpiSize := by
      by_contra hlt
      refine henough (if_pos ?_)
      rw [nodes_natCast hn hr]
      omega
    have hnames : (Bench.mergedMap b).names = mapNames b.mapBaseName n := by
      rw [names, hn, Int.toNat_natCast]
    have hper : (Bench.mergedMap b).readersPerMap = perMap := by
      rw [readersPerMap, hr, Int.toNat_natCast]
    rw [hnames, hper]
    exact ⟨groupLayout b.mapBaseName henough', fun r => role_eq_groupRole hn hr henough' r.val⟩
  | multiMergedMap b =>
    obtain ⟨hmaps, hwriter, hreader⟩ := hvalid
    obtain ⟨n, hn⟩ := Int.eq_ofNat_of_zero_le hmaps
    obtain ⟨perWriter, hw⟩ := Int.eq_ofNat_of_zero_le
      (show 0 ≤ b.maxNumberOfMapsPerWriter by omega)
    obtain ⟨perReader, hr⟩ := Int.eq_ofNat_of_zero_le
      (show 0 ≤ b.maxNumberOfMapsPerReader by omega)
    have hwpos : 0 < perWriter := by omega
    have hrpos : 0 < perReader := by omega
    have hcheck := @checkNodes_natCast b n perWriter perReader mpiSize hn hw hr hwpos hrpos
    have henough' : cappedCount n perReader + cappedCount n perWriter ≤ mpiSize := by
      by_contra hlt
      rw [if_pos (Nat.not_le.mp hlt)] at hcheck
      exact henough hcheck
    have hnames : (Bench.multiMergedMap b).names = mapNames b.mapBaseName n := by
      rw [names, hn, Int.toNat_natCast]
    rw [hnames]
    exact ⟨blockLayout b.mapBaseName hwpos hrpos henough',
      fun r => role_eq_blockRole hn hw hr hwpos hrpos henough' r.val⟩

end Bench

end Exact

end TestBench
