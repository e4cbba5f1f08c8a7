import StateTableBench.Mpi.Allgather

/-!
# From the shares of the processes to the global array

Each process of a group fills an array of length `getLocalArraySize()` with the UUIDs of its own
elements, followed by `null`s. `allgatherUUID` puts these arrays one after another, and
`compactGlobalArray` removes the padding (`BlockDistribution.java`, `MPIBenchApp.java`).

`gather_restores_iff`: the result has every UUID at the global offset it was assigned to, exactly
when the buffers of the exchange can be allocated.
-/

open Blocks

namespace Mpi

/-- A process has filled its array: the UUIDs of its elements first, and `null`s after that. -/
structure Filled (d : BlockDistribution) (uuid : Int32 → UUID) (idArray : List (Option UUID)) :
    Prop where
  length_eq : (idArray.length : ℤ) = d.localArraySize.toInt
  /-- The cell of each local offset has the UUID of its global offset. -/
  own {j g : Int32} : d.getGlobalOffset j = .ok g → read idArray j = .ok (some (uuid g))
  padding {j : Int32} : d.localCount ≤ j → j < d.localArraySize → read idArray j = .ok none

/-- Gathering and compacting restores the global array. -/
def Restores (globalCount processes : Int32) (dist : Int32 → BlockDistribution)
    (uuid : Int32 → UUID) (idArrays : Int32 → List (Option UUID)) : Prop :=
  ∃ allIds,
    -- every process obtains the same array
    (∀ r, 0 ≤ r → r < processes → allgatherUUID processes idArrays r = .returns allIds ∧
      (allIds.length : ℤ) = (dist r).globalArraySize.toInt) ∧
    -- in which the cells of each process are at its global array indices
    (∀ q, 0 ≤ q → q < processes → ∀ j, 0 ≤ j → j < (dist q).localArraySize →
      ∃ i x, (dist q).getGlobalArrayIndex j = .ok i ∧ read (idArrays q) j = .ok x ∧
        read allIds i = .ok x) ∧
    -- and which every process compacts to the assignment
    ∀ r, 0 ≤ r → r < processes → ∀ dest : List (Option UUID),
      (dest.length : ℤ) = globalCount.toInt →
      ∃ result, (dist r).compactGlobalArray allIds dest = .ok result ∧
        (result.length : ℤ) = globalCount.toInt ∧
        ∀ g, 0 ≤ g → g < globalCount → read result g = .ok (some (uuid g))

section Restores

variable {globalCount processes : Int32} {n p : ℕ} {uuid : Int32 → UUID}
variable {idArray : List (Option UUID)}

/-- The elements of a process, as naturals. -/
theorem Filled.getElem?_own (hn : globalCount.toInt = n) (hp : processes.toInt = p) {r : Int32}
    {k j : ℕ} (hr : r.toInt = k) (hk : k < p)
    (hfill : Filled (BlockDistribution.fields globalCount processes r) uuid idArray)
    (hj : j < evenSize n p k) :
    idArray[j]? = some (some (uuid (Int32.ofNat (start (evenSize n p) k + j)))) := by
  have hend := start_add_lt_start hk hj
  rw [start_evenSize_self (Nat.zero_lt_of_lt hk)] at hend
  have hnlt := globalCount.toInt_lt
  have hj' : (Int32.ofNat j).toInt = j := Int32.toInt_ofNat_of_lt (by omega)
  obtain ⟨g, hg, hval⟩ := BlockDistribution.getGlobalOffset_fields hn hp hr hk hj' hj
  rw [← Int32.eq_ofNat_of_natCast hval, ← read_eq_ok_iff hj']
  exact hfill.own hg

/-- The array of a process is as long as the first block. -/
theorem Filled.length_eq_evenSize (hn : globalCount.toInt = n) (hp : processes.toInt = p)
    (hpos : 0 < p) {r : Int32}
    (hfill : Filled (BlockDistribution.fields globalCount processes r) uuid idArray) :
    idArray.length = evenSize n p 0 := by
  have hlen := hfill.length_eq
  rw [BlockDistribution.toInt_localArraySize hn hp hpos] at hlen
  omega

/-- No cell of the array of a process has the UUID that stands for `null`. -/
theorem Filled.zero_notMem (hn : globalCount.toInt = n) (hp : processes.toInt = p) {r : Int32}
    (hr : 0 ≤ r) (hlt : r < processes)
    (hfill : Filled (BlockDistribution.fields globalCount processes r) uuid idArray)
    (hzero : ∀ g, 0 ≤ g → g < globalCount → uuid g ≠ ⟨0, 0⟩) : some ⟨0, 0⟩ ∉ idArray := by
  obtain ⟨k, -, hk⟩ := Int32.exists_natCast_of_nonneg hr
  have hkp : k < p := (Int32.lt_iff_of_natCast hk hp).mp hlt
  have hpos : 0 < p := Nat.zero_lt_of_lt hkp
  have hnlt := globalCount.toInt_lt
  intro hmem
  obtain ⟨j, hj, hget⟩ := List.mem_iff_getElem.mp hmem
  have hget? : idArray[j]? = some (some ⟨0, 0⟩) := by
    rw [List.getElem?_eq_getElem hj, hget]
  rw [hfill.length_eq_evenSize hn hp hpos] at hj
  by_cases hown : j < evenSize n p k
  · rw [hfill.getElem?_own hn hp hk hkp hown, Option.some.injEq, Option.some.injEq] at hget?
    have hend := start_add_lt_start hkp hown
    rw [start_evenSize_self hpos] at hend
    have hg : (Int32.ofNat (start (evenSize n p) k + j)).toInt =
        (start (evenSize n p) k + j : ℕ) := Int32.toInt_ofNat_of_lt (by omega)
    exact hzero _ (Int32.nonneg_of_natCast hg)
      ((Int32.lt_iff_of_natCast hg hn).mpr hend) hget?
  · have hsize := @BlockDistribution.toInt_localArraySize _ _ r _ _ hn hp hpos
    have hsizelt := (BlockDistribution.fields globalCount processes r).localArraySize.toInt_lt
    have hj' : (Int32.ofNat j).toInt = j := Int32.toInt_ofNat_of_lt (by omega)
    have hpad := hfill.padding
      ((Int32.le_iff_of_natCast (BlockDistribution.toInt_localCount hn hp hpos hk) hj').mpr
        (Nat.not_lt.mp hown))
      ((Int32.lt_iff_of_natCast hj' hsize).mpr hj)
    rw [read_eq_ok_iff hj', hget?, Option.some.injEq] at hpad
    cases hpad

variable {idArrays : Int32 → List (Option UUID)}

section Fits

variable (hn : globalCount.toInt = n) (hp : processes.toInt = p) (hpos : 0 < p)
variable (hfill : ∀ r, 0 ≤ r → r < processes →
  Filled (BlockDistribution.fields globalCount processes r) uuid (idArrays r))

include hn hp hpos hfill

/-- All processes send equally many identifiers. -/
theorem length_idArrays : ∀ r, 0 ≤ r → r < processes → (idArrays r).length = evenSize n p 0 :=
  fun r hr hlt => (hfill r hr hlt).length_eq_evenSize hn hp hpos

/-- Every process obtains the arrays of all processes, one after the other. -/
theorem gather_of_fits (hfits : 2 * (evenSize n p 0 * p) < 2 ^ 31)
    (hzero : ∀ g, 0 ≤ g → g < globalCount → uuid g ≠ ⟨0, 0⟩) {r : Int32} (hr : 0 ≤ r)
    (hlt : r < processes) :
    allgatherUUID processes idArrays r = .returns ((intRange processes).flatMap idArrays) ∧
      (((intRange processes).flatMap idArrays).length : ℤ) =
        (BlockDistribution.fields globalCount processes r).globalArraySize.toInt := by
  have hlen := length_idArrays hn hp hpos hfill
  constructor
  · refine allgatherUUID_eq_returns hp hpos hlen hfits ?_ hr hlt
    -- no UUID is taken for a `null`
    intro hmem
    obtain ⟨q, hq, hmem⟩ := List.mem_flatMap.mp hmem
    obtain ⟨hq, hqlt⟩ := mem_intRange.mp hq
    exact (hfill q hq hqlt).zero_notMem hn hp hq hqlt hzero hmem
  · have hsize := @BlockDistribution.toInt_localArraySize _ _ r _ _ hn hp hpos
    rw [length_flatMap_idArrays hp hlen]
    exact (Int32.toInt_mul_natCast hsize hp (by omega)).symm

/-- The cell of a process is at its global array index. -/
theorem read_of_getGlobalArrayIndex (hpadded : evenSize n p 0 * p < 2 ^ 31) {q j : Int32}
    (hq : 0 ≤ q) (hqlt : q < processes) (hj : 0 ≤ j)
    (hjlt : j < (BlockDistribution.fields globalCount processes q).localArraySize) :
    ∃ i x, (BlockDistribution.fields globalCount processes q).getGlobalArrayIndex j = .ok i ∧
      read (idArrays q) j = .ok x ∧ read ((intRange processes).flatMap idArrays) i = .ok x := by
  have hlen := length_idArrays hn hp hpos hfill
  obtain ⟨k, -, hk⟩ := Int32.exists_natCast_of_nonneg hq
  obtain ⟨i, -, hi⟩ := Int32.exists_natCast_of_nonneg hj
  have hkp : k < p := (Int32.lt_iff_of_natCast hk hp).mp hqlt
  have hilt : i < evenSize n p 0 := (Int32.lt_iff_of_natCast hi
    (BlockDistribution.toInt_localArraySize hn hp hpos)).mp hjlt
  obtain ⟨g, hg, hval⟩ := getGlobalArrayIndex_fields hn hp hk hkp hi hilt hpadded
  have hcell : i < (idArrays q).length := by
    rw [hlen q hq hqlt]
    exact hilt
  refine ⟨g, (idArrays q)[i], hg, ?_, ?_⟩
  · rw [read_eq_ok_iff hi, List.getElem?_eq_getElem hcell]
  · rw [read_eq_ok_iff hval, getElem?_flatMap_idArrays hp hlen hk hkp hilt,
      List.getElem?_eq_getElem hcell]

/-- Compacting leaves the UUIDs of the elements, in the order of the global offsets. -/
theorem compact_of_fits (hpadded : evenSize n p 0 * p < 2 ^ 31) (r : Int32)
    {dest : List (Option UUID)} (hdest : dest.length = n) :
    (BlockDistribution.fields globalCount processes r).compactGlobalArray
        ((intRange processes).flatMap idArrays) dest =
      .ok ((List.range n).map fun g => some (uuid (Int32.ofNat g))) := by
  have hlen := length_idArrays hn hp hpos hfill
  have hplt := processes.toInt_lt
  refine compactGlobalArray_eq_ok hn hp hpos hpadded (by simp) hdest ?_
  intro k hk j hj
  have hk' : (Int32.ofNat k).toInt = k := Int32.toInt_ofNat_of_lt (by omega)
  have hrank : 0 ≤ Int32.ofNat k ∧ Int32.ofNat k < processes :=
    ⟨Int32.nonneg_of_natCast hk',
      (Int32.lt_iff_of_natCast hk' hp).mpr hk⟩
  have hend := start_add_lt_start hk hj
  rw [start_evenSize_self hpos] at hend
  rw [getElem?_flatMap_idArrays hp hlen hk' hk (Nat.lt_of_lt_of_le hj (evenSize_le_zero n p k)),
    (hfill _ hrank.1 hrank.2).getElem?_own hn hp hk' hk hj, List.getElem?_map,
    List.getElem?_range hend]
  rfl

/-- If the messages are not too long, the global array is restored. -/
theorem restores_of_fits (hfits : 2 * (evenSize n p 0 * p) < 2 ^ 31)
    (hzero : ∀ g, 0 ≤ g → g < globalCount → uuid g ≠ ⟨0, 0⟩) :
    Restores globalCount processes (BlockDistribution.fields globalCount processes) uuid
      idArrays := by
  have hpadded : evenSize n p 0 * p < 2 ^ 31 := by omega
  refine ⟨(intRange processes).flatMap idArrays,
    fun r hr hlt => gather_of_fits hn hp hpos hfill hfits hzero hr hlt,
    fun q hq hqlt j hj hjlt => read_of_getGlobalArrayIndex hn hp hpos hfill hpadded hq hqlt hj hjlt,
    fun r _ _ dest hdest => ?_⟩
  have hdest' : dest.length = n := by omega
  refine ⟨_, compact_of_fits hn hp hpos hfill hpadded r hdest', by simp [hn], ?_⟩
  intro g hg hglt
  obtain ⟨m, -, hm⟩ := Int32.exists_natCast_of_nonneg hg
  have hmn : m < n := (Int32.lt_iff_of_natCast hm hn).mp hglt
  rw [read_eq_ok_iff hm, List.getElem?_map, List.getElem?_range hmn,
    Int32.eq_ofNat_of_natCast hm]
  rfl

end Fits

/-- If the messages are too long, every process throws. -/
theorem allgatherUUID_eq_throws (hn : globalCount.toInt = n) (hp : processes.toInt = p)
    (hpos : 0 < p) (hpadded : evenSize n p 0 * p < 2 ^ 31)
    (hlong : 2 ^ 31 ≤ 2 * (evenSize n p 0 * p)) {r : Int32}
    (hfill : Filled (BlockDistribution.fields globalCount processes r) uuid (idArrays r)) :
    allgatherUUID processes idArrays r = .throws .negativeArraySize := by
  have hlen := hfill.length_eq_evenSize hn hp hpos
  have herror := @beforeAllGather_eq_error (idArrays r) processes p hp hpos (by rwa [hlen])
    (by rwa [hlen, Nat.mul_assoc])
  unfold allgatherUUID
  rw [herror]

/-- For every number of elements and every group whose padded size is the value of an `int`,
gathering and compacting restores the global array exactly when twice the padded size, the number
of `long`s that are exchanged, is the value of an `int` too. -/
theorem gather_restores_iff (globalCount processes : Int32) (hcount : 0 ≤ globalCount)
    (hprocs : 1 ≤ processes) (dist : Int32 → BlockDistribution)
    (hdist : ∀ r, 0 ≤ r → r < processes →
      BlockDistribution.new globalCount processes r = .ok (dist r))
    (hpadded : FitsInt ((dist 0).localArraySize.toInt * processes.toInt))
    (uuid : Int32 → UUID) (hzero : ∀ g, 0 ≤ g → g < globalCount → uuid g ≠ ⟨0, 0⟩)
    (idArrays : Int32 → List (Option UUID))
    (hfill : ∀ r, 0 ≤ r → r < processes → Filled (dist r) uuid (idArrays r)) :
    Restores globalCount processes dist uuid idArrays ↔
      FitsInt (2 * ((dist 0).localArraySize.toInt * processes.toInt)) := by
  obtain ⟨n, -, hn⟩ := Int32.exists_natCast_of_nonneg hcount
  obtain ⟨p, -, hp⟩ := Int32.exists_natCast_of_nonneg
    (Int32.le_trans (show (0 : Int32) ≤ 1 by decide) hprocs)
  have hpos : 0 < p := (Int32.le_iff_of_natCast Int32.toInt_one_natCast hp).mp hprocs
  have hzeroRank : (0 : Int32) < processes :=
    (Int32.lt_iff_of_natCast Int32.toInt_zero_natCast hp).mpr hpos
  have hview : ∀ r, 0 ≤ r → r < processes →
      dist r = BlockDistribution.fields globalCount processes r :=
    fun r hr hlt => Except.ok.inj ((hdist r hr hlt).symm.trans (new_eq_ok hr hlt))
  have hsize : (dist 0).localArraySize.toInt * processes.toInt = (evenSize n p 0 * p : ℕ) := by
    rw [hview 0 (Int32.le_refl 0) hzeroRank, BlockDistribution.toInt_localArraySize hn hp hpos, hp,
      Int.natCast_mul]
  have hfill' : ∀ r, 0 ≤ r → r < processes →
      Filled (BlockDistribution.fields globalCount processes r) uuid (idArrays r) :=
    fun r hr hlt => hview r hr hlt ▸ hfill r hr hlt
  rw [hsize] at hpadded ⊢
  unfold FitsInt at hpadded ⊢
  constructor
  · rintro ⟨allIds, hgather, -⟩
    by_contra hlong
    have hthrows := allgatherUUID_eq_throws hn hp hpos (by omega) (by omega)
      (hfill' 0 (Int32.le_refl 0) hzeroRank)
    have hreturns := (hgather 0 (Int32.le_refl 0) hzeroRank).1
    rw [hthrows] at hreturns
    cases hreturns
  · intro hfits
    obtain ⟨allIds, hgather, hindex, hcompact⟩ := @restores_of_fits globalCount processes n p uuid
      idArrays hn hp hpos hfill' (by omega) hzero
    refine ⟨allIds, ?_, ?_, ?_⟩
    · intro r hr hlt
      rw [hview r hr hlt]
      exact hgather r hr hlt
    · intro q hq hlt
      rw [hview q hq hlt]
      exact hindex q hq hlt
    · intro r hr hlt
      rw [hview r hr hlt]
      exact hcompact r hr hlt

/-! ### Arrays filled by a process -/

/-- The array of a process: the UUIDs of its elements, and `null`s after that. -/
def fillArray (d : BlockDistribution) (uuid : Int32 → UUID) : List (Option UUID) :=
  (List.range d.localArraySize.toNatClampNeg).map fun j =>
    match d.getGlobalOffset (Int32.ofNat j) with
    | .ok g => some (uuid g)
    | .error _ => none

/-- The identifier at an offset of the block is the one of its global offset. -/
theorem getElem?_fillArray {d : BlockDistribution} {j : Int32} {i m : ℕ} (hj : j.toInt = i)
    (hsize : d.localArraySize.toInt = m) (hi : i < m) :
    (fillArray d uuid)[i]? = some (match d.getGlobalOffset j with
      | .ok g => some (uuid g)
      | .error _ => none) := by
  rw [fillArray, Int32.toNatClampNeg_of_natCast hsize, List.getElem?_map, List.getElem?_range hi,
    Int32.eq_ofNat_of_natCast hj]
  rfl

/-- A process of a group fills its array as it should. -/
theorem filled_fillArray (hn : globalCount.toInt = n) (hp : processes.toInt = p) {r : Int32}
    (hr : 0 ≤ r) (hlt : r < processes) (uuid : Int32 → UUID) :
    Filled (BlockDistribution.fields globalCount processes r) uuid
      (fillArray (BlockDistribution.fields globalCount processes r) uuid) := by
  obtain ⟨k, -, hk⟩ := Int32.exists_natCast_of_nonneg hr
  have hpos : 0 < p := Nat.zero_lt_of_lt ((Int32.lt_iff_of_natCast hk hp).mp hlt)
  have hsize := @BlockDistribution.toInt_localArraySize _ _ r _ _ hn hp hpos
  have hcount := BlockDistribution.toInt_localCount hn hp hpos hk
  constructor
  case length_eq =>
    rw [fillArray, List.length_map, List.length_range, Int32.toNatClampNeg_of_natCast hsize, hsize]
  case own =>
    intro j g hg
    obtain ⟨hj, hjlt⟩ := BlockDistribution.lt_of_getGlobalOffset hg
    obtain ⟨i, -, hi⟩ := Int32.exists_natCast_of_nonneg hj
    have hilt := Nat.lt_of_lt_of_le ((Int32.lt_iff_of_natCast hi hcount).mp hjlt)
      (evenSize_le_zero n p k)
    rw [read_eq_ok_iff hi, getElem?_fillArray hi hsize hilt, hg]
  case padding =>
    intro j hle hjlt
    have hj : 0 ≤ j := by
      rw [Int32.le_iff_toInt_le, hcount] at hle
      rw [Int32.le_iff_toInt_le, Int32.toInt_zero]
      omega
    obtain ⟨i, -, hi⟩ := Int32.exists_natCast_of_nonneg hj
    have herror : (BlockDistribution.fields globalCount processes r).getGlobalOffset j =
        .error (.indexOutOfBounds "beyond local work size") := by
      rw [BlockDistribution.getGlobalOffset, if_pos (Or.inr hle)]
    rw [read_eq_ok_iff hi, getElem?_fillArray hi hsize
      ((Int32.lt_iff_of_natCast hi hsize).mp hjlt), herror]

/-- UUIDs that number the elements. -/
def numberedUUID (g : Int32) : UUID := ⟨1, g.toInt64⟩

/-- None of them is the identifier of the padding. -/
theorem numberedUUID_ne_zero (g : Int32) : numberedUUID g ≠ ⟨0, 0⟩ := by
  simp [numberedUUID]

/-- Three elements over two processes. -/
theorem gather_restores_three :
    FitsInt ((BlockDistribution.fields 3 2 0).localArraySize.toInt * (2 : Int32).toInt) ∧
    Restores 3 2 (BlockDistribution.fields 3 2) numberedUUID
      (fun r => fillArray (BlockDistribution.fields 3 2 r) numberedUUID) :=
  ⟨by decide,
    (gather_restores_iff 3 2 (by decide) (by decide) (BlockDistribution.fields 3 2)
      (fun _ hr hlt => new_eq_ok hr hlt) (by decide) numberedUUID
      (fun g _ _ => numberedUUID_ne_zero g) _
      (fun _ hr hlt => filled_fillArray (n := 3) (p := 2) rfl rfl hr hlt _)).mpr (by decide)⟩

/-- `2 ^ 30` elements of a single process: the array fits, and the message does not. -/
theorem not_restores_large :
    FitsInt ((BlockDistribution.fields 1073741824 1 0).localArraySize.toInt * (1 : Int32).toInt) ∧
    (∀ r, 0 ≤ r → r < 1 → BlockDistribution.new 1073741824 1 r =
        .ok (BlockDistribution.fields 1073741824 1 r) ∧
      Filled (BlockDistribution.fields 1073741824 1 r) numberedUUID
        (fillArray (BlockDistribution.fields 1073741824 1 r) numberedUUID)) ∧
    (∀ g, numberedUUID g ≠ ⟨0, 0⟩) ∧
    ¬Restores 1073741824 1 (BlockDistribution.fields 1073741824 1) numberedUUID
      (fun r => fillArray (BlockDistribution.fields 1073741824 1 r) numberedUUID) := by
  have hn : (1073741824 : Int32).toInt = (1073741824 : ℕ) := by decide
  have hp : (1 : Int32).toInt = (1 : ℕ) := by decide
  have hsize : evenSize 1073741824 1 0 = 1073741824 := by simp [evenSize]
  refine ⟨by decide, ?_, numberedUUID_ne_zero, ?_⟩
  · intro r hr hlt
    exact ⟨new_eq_ok hr hlt, filled_fillArray hn hp hr hlt _⟩
  · rintro ⟨allIds, hgather, -⟩
    have hreturns := (hgather 0 (by decide) (by decide)).1
    have hthrows := @allgatherUUID_eq_throws 1073741824 1 1073741824 1 numberedUUID
      (fun r => fillArray (BlockDistribution.fields 1073741824 1 r) numberedUUID) hn hp
      (by omega) (by rw [hsize]; omega) (by rw [hsize]; omega) 0
      (filled_fillArray hn hp (by decide) (by decide) _)
    rw [hthrows] at hreturns
    cases hreturns

end Restores

end Mpi
