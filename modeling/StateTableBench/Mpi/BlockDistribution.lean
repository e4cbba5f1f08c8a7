import StateTableBench.Arithmetic.Int32
import StateTableBench.Collections.Blocks
import Mathlib.Data.Set.Function

/-!
# Distribution of elements over the processes

A `BlockDistribution` gives each process of a group a block of consecutive elements. Every process
builds its own object from the total count, the size of the group and its rank, and computes
from it its own share as well as that of the others (`BlockDistribution.java`). All arithmetic is
that of `int`.

`exists_balancedPartition`: the views of the processes fit together to a partition of the
elements into blocks whose sizes differ by at most one.

`paddedInRange_iff`: when the padded arrays are large enough.
-/

open Blocks

namespace Mpi

/-- The exceptions raised by the code for distributed arrays. -/
inductive Exn
  | illegalArgument (message : String)
  | indexOutOfBounds (message : String)
  | arrayIndexOutOfBounds
  | negativeArraySize
deriving DecidableEq

/-- The fields of a `BlockDistribution`. The getters of the same names return them. -/
structure BlockDistribution where
  globalCount : Int32
  localCount : Int32
  procSize : Int32
  procRank : Int32
  globalArraySize : Int32
  localArraySize : Int32
  imbalance : Int32
deriving DecidableEq

namespace BlockDistribution

/-- The fields as the constructor computes them. -/
def fields (globalCount processes localRank : Int32) : BlockDistribution :=
  let partialCount := globalCount / processes
  let rest := globalCount % processes
  let localArraySize := if rest ≠ 0 then partialCount + 1 else partialCount
  { globalCount := globalCount
    localCount := if localRank < rest then partialCount + 1 else partialCount
    procSize := processes
    procRank := localRank
    globalArraySize := localArraySize * processes
    localArraySize := localArraySize
    imbalance := rest }

/-- The constructor. -/
def new (globalCount processes localRank : Int32) : Except Exn BlockDistribution :=
  if processes ≤ 0 then .error (.illegalArgument "empty process group")
  else if localRank < 0 ∨ processes ≤ localRank then
    .error (.illegalArgument "rank beyond process group size")
  else .ok (fields globalCount processes localRank)

variable (d : BlockDistribution)

/-- The global array index corresponding to a local index. -/
def getGlobalArrayIndex (localIndex : Int32) : Except Exn Int32 :=
  if localIndex < 0 ∨ d.localArraySize ≤ localIndex then
    .error (.indexOutOfBounds "beyond local array size")
  else .ok (d.procRank * d.localArraySize + localIndex)

/-- The amount of elements assigned to a process. -/
def getItemCount (processRank : Int32) : Except Exn Int32 :=
  if d.procSize ≤ processRank then
    .error (.indexOutOfBounds "rank beyond process group size")
  else if d.imbalance = 0 ∨ processRank < d.imbalance then .ok d.localArraySize
  else .ok (d.localArraySize - 1)

/-- The offset of an element in the original amount of elements, without array padding. -/
def getGlobalOffset (localOffset : Int32) : Except Exn Int32 :=
  if localOffset < 0 ∨ d.localCount ≤ localOffset then
    .error (.indexOutOfBounds "beyond local work size")
  else
    let offset := d.procRank * d.localCount + localOffset
    .ok (if d.imbalance ≤ d.procRank then offset + d.imbalance else offset)

/-- No operation of `getGlobalOffset` leaves the range of an `int`. -/
structure ExactOffset (localOffset : Int32) : Prop where
  mul : FitsInt (d.procRank.toInt * d.localCount.toInt)
  add : FitsInt (d.procRank.toInt * d.localCount.toInt + localOffset.toInt)
  shift : d.imbalance ≤ d.procRank →
    FitsInt (d.procRank.toInt * d.localCount.toInt + localOffset.toInt + d.imbalance.toInt)

end BlockDistribution

open BlockDistribution

/-- The views `dist r` of the processes `r` of a group make up a balanced partition of
`globalCount` elements. -/
structure IsBalancedPartition (globalCount processes : Int32) (dist : Int32 → BlockDistribution) :
    Prop where
  /-- Local offsets correspond one-to-one to the global offsets. -/
  bijOn : Set.BijOn (fun p : Int32 × Int32 => (dist p.1).getGlobalOffset p.2)
    {p | 0 ≤ p.1 ∧ p.1 < processes ∧ 0 ≤ p.2 ∧ p.2 < (dist p.1).localCount}
    (Except.ok '' {g | 0 ≤ g ∧ g < globalCount})
  /-- Global offsets increase with the rank and, for one rank, with the local offset. -/
  increasing {r r' j j' g g' : Int32} : 0 ≤ r → r < processes → 0 ≤ r' → r' < processes →
    (dist r).getGlobalOffset j = .ok g → (dist r').getGlobalOffset j' = .ok g' →
    r < r' ∨ r = r' ∧ j < j' → g < g'
  /-- No computation of an offset overflows. -/
  exact {r j : Int32} : 0 ≤ r → r < processes → 0 ≤ j → j < (dist r).localCount →
    (dist r).ExactOffset j
  /-- The shares of two processes differ by at most one element. -/
  balanced {r r' : Int32} : 0 ≤ r → r < processes → 0 ≤ r' → r' < processes →
    (dist r).localCount.toInt ≤ (dist r').localCount.toInt + 1
  /-- The shares make up all elements. -/
  sum : ((intRange processes).map fun r => (dist r).localCount.toInt).sum = globalCount.toInt
  /-- Every process knows the share of every process. -/
  itemCount {r q : Int32} : 0 ≤ r → r < processes → 0 ≤ q → q < processes →
    (dist r).getItemCount q = .ok (dist q).localCount

namespace BlockDistribution

section Fields

variable {globalCount processes localRank localOffset : Int32} {n p r j : ℕ}

@[simp]
theorem procSize_fields : (fields globalCount processes localRank).procSize = processes := rfl

@[simp]
theorem procRank_fields : (fields globalCount processes localRank).procRank = localRank := rfl

/-- The imbalance is the remainder. -/
theorem toInt_imbalance (hn : globalCount.toInt = n) (hp : processes.toInt = p) :
    (fields globalCount processes localRank).imbalance.toInt = (n % p : ℕ) :=
  Int32.toInt_mod_natCast hn hp

/-- The count of a process with one element more is no greater than that of all elements. -/
theorem div_add_one_le {n p : ℕ} (hp : 0 < p) (h : n % p ≠ 0) : n / p + 1 ≤ n := by
  have hdiv := Nat.div_add_mod n p
  have hle : n / p ≤ p * (n / p) := Nat.le_mul_of_pos_left _ hp
  omega

/-- `getLocalCount()` is the size of the block of the process. -/
theorem toInt_localCount (hn : globalCount.toInt = n) (hp : processes.toInt = p) (hpos : 0 < p)
    (hr : localRank.toInt = r) :
    (fields globalCount processes localRank).localCount.toInt = (evenSize n p r : ℕ) := by
  have hlt := globalCount.toInt_lt
  have hdiv := Int32.toInt_div_natCast hn hp
  unfold fields evenSize
  simp only [Int32.lt_iff_of_natCast hr (Int32.toInt_mod_natCast hn hp)]
  split
  · rename_i hrest
    have hle := div_add_one_le hpos (Nat.ne_of_gt (Nat.zero_lt_of_lt hrest))
    exact Int32.toInt_add_natCast hdiv Int32.toInt_one_natCast (by omega)
  · simpa using hdiv

/-- `getLocalArraySize()` is the size of the first block. -/
theorem toInt_localArraySize (hn : globalCount.toInt = n) (hp : processes.toInt = p)
    (hpos : 0 < p) :
    (fields globalCount processes localRank).localArraySize.toInt = (evenSize n p 0 : ℕ) := by
  have hlt := globalCount.toInt_lt
  have hdiv := Int32.toInt_div_natCast hn hp
  have hzero : globalCount % processes = 0 ↔ n % p = 0 :=
    Int32.eq_iff_of_natCast (Int32.toInt_mod_natCast hn hp) Int32.toInt_zero_natCast
  unfold fields evenSize
  simp only [ne_eq, hzero, Nat.pos_iff_ne_zero]
  split
  · rename_i hrest
    have hle := div_add_one_le hpos hrest
    exact Int32.toInt_add_natCast hdiv Int32.toInt_one_natCast (by omega)
  · simpa using hdiv

/-- A process that asks for the share of another one gets the size of its block. -/
theorem getItemCount_fields {q : Int32} (hn : globalCount.toInt = n) (hp : processes.toInt = p)
    (hpos : 0 < p) (hq : q.toInt = j) (hlt : j < p) :
    ∃ c, (fields globalCount processes localRank).getItemCount q = .ok c ∧
      c.toInt = (evenSize n p j : ℕ) := by
  have himb := @toInt_imbalance _ _ localRank _ _ hn hp
  have hsize := @toInt_localArraySize _ _ localRank _ _ hn hp hpos
  have hrank : ¬(fields globalCount processes localRank).procSize ≤ q := by
    rw [procSize_fields, Int32.le_iff_of_natCast hp hq]
    omega
  rw [getItemCount, if_neg hrank]
  simp only [Int32.eq_iff_of_natCast himb Int32.toInt_zero_natCast,
    Int32.lt_iff_of_natCast hq himb]
  unfold evenSize at hsize ⊢
  -- the quotient and the remainder are arbitrary from here on
  generalize n / p = share at *
  generalize n % p = rest at *
  split
  · refine ⟨_, rfl, ?_⟩
    rw [hsize]
    split <;> split <;> omega
  · refine ⟨_, rfl, ?_⟩
    rw [if_pos (by omega)] at hsize
    rw [Int32.toInt_sub_natCast hsize Int32.toInt_one_natCast (by omega), if_neg (by omega)]
    omega

/-- The exact value of the expression in `getGlobalOffset`. -/
theorem mul_evenSize_add (n p r : ℕ) :
    (r * evenSize n p r + if n % p ≤ r then n % p else 0) = start (evenSize n p) r := by
  rw [start_evenSize, evenSize]
  by_cases h : n % p ≤ r
  · rw [if_pos h, if_neg (Nat.not_lt.mpr h), Nat.add_zero, Nat.min_eq_right h]
  · rw [if_neg h, if_pos (Nat.not_le.mp h), Nat.add_zero, Nat.mul_succ,
      Nat.min_eq_left (Nat.le_of_not_le h)]

/-- The position of an element is below the number of elements, and so is every intermediate
result. -/
theorem start_add_lt_two_pow (hn : globalCount.toInt = n) (hlt : r < p)
    (hsize : j < evenSize n p r) : start (evenSize n p) r + j < 2 ^ 31 := by
  have hend := start_add_lt_start hlt hsize
  rw [start_evenSize_self (Nat.zero_lt_of_lt hlt)] at hend
  have hmax := globalCount.toInt_lt
  omega

/-- An offset within the block of a process has a global offset. -/
theorem exactOffset_fields (hn : globalCount.toInt = n) (hp : processes.toInt = p)
    (hr : localRank.toInt = r) (hlt : r < p) (hj : localOffset.toInt = j)
    (hsize : j < evenSize n p r) :
    (fields globalCount processes localRank).ExactOffset localOffset := by
  have hcount := toInt_localCount hn hp (Nat.zero_lt_of_lt hlt) hr
  have himb := @toInt_imbalance _ _ localRank _ _ hn hp
  have hbound := start_add_lt_two_pow hn hlt hsize
  have hexact := mul_evenSize_add n p r
  have hprod : localRank.toInt * (fields globalCount processes localRank).localCount.toInt =
      (r * evenSize n p r : ℕ) := by
    rw [hr, hcount, Int.natCast_mul]
  constructor
  · rw [procRank_fields, hprod]
    exact ⟨by omega, by omega⟩
  · rw [procRank_fields, hprod, hj]
    exact ⟨by omega, by omega⟩
  · intro hshift
    rw [if_pos ((Int32.le_iff_of_natCast himb hr).mp hshift)] at hexact
    rw [procRank_fields, hprod, hj, himb]
    exact ⟨by omega, by omega⟩

/-- `getGlobalOffset` returns the position of the element. -/
theorem getGlobalOffset_fields (hn : globalCount.toInt = n) (hp : processes.toInt = p)
    (hr : localRank.toInt = r) (hlt : r < p) (hj : localOffset.toInt = j)
    (hsize : j < evenSize n p r) :
    ∃ g, (fields globalCount processes localRank).getGlobalOffset localOffset = .ok g ∧
      g.toInt = (start (evenSize n p) r + j : ℕ) := by
  have hcount := toInt_localCount hn hp (Nat.zero_lt_of_lt hlt) hr
  have himb := @toInt_imbalance _ _ localRank _ _ hn hp
  have hbound := start_add_lt_two_pow hn hlt hsize
  have hexact := mul_evenSize_add n p r
  have hle : (fields globalCount processes localRank).imbalance ≤ localRank ↔ n % p ≤ r :=
    Int32.le_iff_of_natCast himb hr
  have hmul := Int32.toInt_mul_natCast hr hcount (by omega)
  have hadd := Int32.toInt_add_natCast hmul hj (by omega)
  have hrange : ¬(localOffset < 0 ∨
      (fields globalCount processes localRank).localCount ≤ localOffset) := by
    rw [Int32.lt_iff_of_natCast hj Int32.toInt_zero_natCast, Int32.le_iff_of_natCast hcount hj]
    omega
  rw [getGlobalOffset, if_neg hrange, procRank_fields]
  refine ⟨_, rfl, ?_⟩
  -- only the ranks from `imbalance` on are shifted by it
  by_cases hshift : n % p ≤ r
  · rw [if_pos hshift] at hexact
    rw [if_pos (hle.mpr hshift), Int32.toInt_add_natCast hadd himb (by omega)]
    omega
  · rw [if_neg hshift] at hexact
    rw [if_neg (mt hle.mp hshift)]
    exact hadd.trans (by omega)

/-- An offset that `getGlobalOffset` accepts is a local offset. -/
theorem lt_of_getGlobalOffset {d : BlockDistribution} {j g : Int32}
    (h : d.getGlobalOffset j = .ok g) : 0 ≤ j ∧ j < d.localCount := by
  unfold getGlobalOffset at h
  split at h
  · cases h
  · rename_i hrange
    rw [not_or, Int32.not_lt, Int32.not_le] at hrange
    exact hrange

end Fields

end BlockDistribution

section Partition

variable {globalCount processes : Int32} {n p : ℕ}

/-- The constructor accepts every rank of a group. -/
theorem new_eq_ok {r : Int32} (hr : 0 ≤ r) (hlt : r < processes) :
    new globalCount processes r = .ok (fields globalCount processes r) := by
  have hpos : ¬processes ≤ 0 := Int32.not_le.mpr (Int32.lt_of_le_of_lt hr hlt)
  have hrank : ¬(r < 0 ∨ processes ≤ r) := by
    rw [not_or, Int32.not_lt, Int32.not_le]
    exact ⟨hr, hlt⟩
  rw [new, if_neg hpos, if_neg hrank]

/-- What `getGlobalOffset` returns for a rank and a local offset of that rank. -/
theorem getGlobalOffset_natCast (hn : globalCount.toInt = n) (hp : processes.toInt = p)
    {r j : Int32} (hr : 0 ≤ r) (hlt : r < processes) (hj : 0 ≤ j)
    (hcount : j < (fields globalCount processes r).localCount) :
    ∃ k i : ℕ, r.toInt = k ∧ j.toInt = i ∧ k < p ∧ i < evenSize n p k ∧
      (fields globalCount processes r).ExactOffset j ∧
      ∃ g, (fields globalCount processes r).getGlobalOffset j = .ok g ∧
        g.toInt = (start (evenSize n p) k + i : ℕ) := by
  obtain ⟨k, -, hk⟩ := Int32.exists_natCast_of_nonneg hr
  obtain ⟨i, -, hi⟩ := Int32.exists_natCast_of_nonneg hj
  have hkp : k < p := (Int32.lt_iff_of_natCast hk hp).mp hlt
  have hsize : i < evenSize n p k :=
    (Int32.lt_iff_of_natCast hi (toInt_localCount hn hp (Nat.zero_lt_of_lt hkp) hk)).mp hcount
  exact ⟨k, i, hk, hi, hkp, hsize, exactOffset_fields hn hp hk hkp hi hsize,
    getGlobalOffset_fields hn hp hk hkp hi hsize⟩

/-- Every local offset has a global offset. -/
theorem mapsTo_getGlobalOffset (hn : globalCount.toInt = n) (hp : processes.toInt = p)
    (hpos : 0 < p) :
    Set.MapsTo (fun q : Int32 × Int32 => (fields globalCount processes q.1).getGlobalOffset q.2)
      {q | 0 ≤ q.1 ∧ q.1 < processes ∧ 0 ≤ q.2 ∧
        q.2 < (fields globalCount processes q.1).localCount}
      (Except.ok '' {g | 0 ≤ g ∧ g < globalCount}) := by
  rintro ⟨r, j⟩ ⟨hr, hlt, hj, hcount⟩
  obtain ⟨k, i, -, -, hkp, hsize, -, g, hg, hval⟩ :=
    getGlobalOffset_natCast hn hp hr hlt hj hcount
  have hend := start_add_lt_start hkp hsize
  rw [start_evenSize_self hpos] at hend
  refine ⟨g, ⟨Int32.nonneg_of_natCast hval, ?_⟩, hg.symm⟩
  exact (Int32.lt_iff_of_natCast hval hn).mpr hend

/-- No two local offsets have the same global offset. -/
theorem injOn_getGlobalOffset (hn : globalCount.toInt = n) (hp : processes.toInt = p) :
    Set.InjOn (fun q : Int32 × Int32 => (fields globalCount processes q.1).getGlobalOffset q.2)
      {q | 0 ≤ q.1 ∧ q.1 < processes ∧ 0 ≤ q.2 ∧
        q.2 < (fields globalCount processes q.1).localCount} := by
  rintro ⟨r, j⟩ ⟨hr, hlt, hj, hcount⟩ ⟨r', j'⟩ ⟨hr', hlt', hj', hcount'⟩ heq
  obtain ⟨k, i, hk, hi, -, hsize, -, g, hg, hval⟩ :=
    getGlobalOffset_natCast hn hp hr hlt hj hcount
  obtain ⟨k', i', hk', hi', -, hsize', -, g', hg', hval'⟩ :=
    getGlobalOffset_natCast hn hp hr' hlt' hj' hcount'
  have hgg : g = g' := Except.ok.inj (hg.symm.trans (heq.trans hg'))
  -- the same position, so the same block and the same place in it
  have hpos' : start (evenSize n p) k + i = start (evenSize n p) k' + i' := by
    rw [← hgg, hval] at hval'
    omega
  obtain ⟨rfl, rfl⟩ := start_add_inj hsize hsize' hpos'
  rw [Prod.mk.injEq, ← Int32.toInt_inj, ← Int32.toInt_inj, hk, hk', hi, hi']
  exact ⟨rfl, rfl⟩

/-- Every global offset is that of a local offset. -/
theorem surjOn_getGlobalOffset (hn : globalCount.toInt = n) (hp : processes.toInt = p)
    (hpos : 0 < p) :
    Set.SurjOn (fun q : Int32 × Int32 => (fields globalCount processes q.1).getGlobalOffset q.2)
      {q | 0 ≤ q.1 ∧ q.1 < processes ∧ 0 ≤ q.2 ∧
        q.2 < (fields globalCount processes q.1).localCount}
      (Except.ok '' {g | 0 ≤ g ∧ g < globalCount}) := by
  rintro _ ⟨g, ⟨hg, hlt⟩, rfl⟩
  obtain ⟨m, -, hm⟩ := Int32.exists_natCast_of_nonneg hg
  have hmn : m < start (evenSize n p) p := by
    rw [start_evenSize_self hpos]
    exact (Int32.lt_iff_of_natCast hm hn).mp hlt
  obtain ⟨k, hkp, i, hsize, hpos'⟩ := exists_of_lt hmn
  -- the block and the position in it are values of an `int`
  have hki : k < 2 ^ 31 ∧ i < 2 ^ 31 := by
    have hprocs := processes.toInt_lt
    have hmax := g.toInt_lt
    omega
  have hk : (Int32.ofNat k).toInt = k := Int32.toInt_ofNat_of_lt hki.1
  have hi : (Int32.ofNat i).toInt = i := Int32.toInt_ofNat_of_lt hki.2
  obtain ⟨g', hg', hval⟩ := getGlobalOffset_fields hn hp hk hkp hi hsize
  have hgg : g' = g := (Int32.eq_iff_of_natCast hval hm).mpr hpos'
  refine ⟨(Int32.ofNat k, Int32.ofNat i), ⟨Int32.nonneg_of_natCast hk, ?_,
    Int32.nonneg_of_natCast hi, ?_⟩, hg'.trans (congrArg Except.ok hgg)⟩
  · exact (Int32.lt_iff_of_natCast hk hp).mpr hkp
  · exact (Int32.lt_iff_of_natCast hi (toInt_localCount hn hp hpos hk)).mpr hsize

/-- Local offsets correspond one-to-one to global offsets. -/
theorem bijOn_getGlobalOffset (hn : globalCount.toInt = n) (hp : processes.toInt = p)
    (hpos : 0 < p) :
    Set.BijOn (fun q : Int32 × Int32 => (fields globalCount processes q.1).getGlobalOffset q.2)
      {q | 0 ≤ q.1 ∧ q.1 < processes ∧ 0 ≤ q.2 ∧
        q.2 < (fields globalCount processes q.1).localCount}
      (Except.ok '' {g | 0 ≤ g ∧ g < globalCount}) :=
  ⟨mapsTo_getGlobalOffset hn hp hpos, injOn_getGlobalOffset hn hp,
    surjOn_getGlobalOffset hn hp hpos⟩

/-- The shares of all processes, added up. -/
theorem sum_localCount (hn : globalCount.toInt = n) (hp : processes.toInt = p) (hpos : 0 < p) :
    ((intRange processes).map fun r =>
      (fields globalCount processes r).localCount.toInt).sum = globalCount.toInt := by
  have hplt := processes.toInt_lt
  rw [intRange, List.map_map, Int32.toNatClampNeg_of_natCast hp]
  have hmap : (List.range p).map ((fun r => (fields globalCount processes r).localCount.toInt) ∘
      Int32.ofNat) = (List.range p).map fun k => ((evenSize n p k : ℕ) : ℤ) := by
    refine List.map_congr_left fun k hk => ?_
    rw [List.mem_range] at hk
    exact toInt_localCount hn hp hpos (Int32.toInt_ofNat_of_lt (by omega))
  -- the end of the last block is the number of elements
  rw [hmap, sum_map_range, start_evenSize_self hpos, hn]

/-- In `int` arithmetic, the views of the processes of a group are a balanced partition of any
number of elements. -/
theorem exists_balancedPartition (globalCount processes : Int32) (hcount : 0 ≤ globalCount)
    (hprocs : 1 ≤ processes) :
    ∃ dist : Int32 → BlockDistribution,
      (∀ r, 0 ≤ r → r < processes → new globalCount processes r = .ok (dist r)) ∧
      IsBalancedPartition globalCount processes dist := by
  obtain ⟨n, -, hn⟩ := Int32.exists_natCast_of_nonneg hcount
  obtain ⟨p, -, hp⟩ := Int32.exists_natCast_of_nonneg
    (Int32.le_trans (show (0 : Int32) ≤ 1 by decide) hprocs)
  have hpos : 0 < p := (Int32.le_iff_of_natCast Int32.toInt_one_natCast hp).mp hprocs
  refine ⟨fields globalCount processes, fun r hr hlt => new_eq_ok hr hlt, ?_⟩
  constructor
  case bijOn => exact bijOn_getGlobalOffset hn hp hpos
  case increasing =>
    intro r r' j j' g g' hr hlt hr' hlt' hg hg' hlex
    obtain ⟨hj, hcount⟩ := lt_of_getGlobalOffset hg
    obtain ⟨hj', hcount'⟩ := lt_of_getGlobalOffset hg'
    obtain ⟨k, i, hk, hi, -, hsize, -, _, hok, hval⟩ :=
      getGlobalOffset_natCast hn hp hr hlt hj hcount
    obtain ⟨k', i', hk', hi', -, -, -, _, hok', hval'⟩ :=
      getGlobalOffset_natCast hn hp hr' hlt' hj' hcount'
    cases hg.symm.trans hok
    cases hg'.symm.trans hok'
    rw [Int32.lt_iff_of_natCast hk hk', Int32.eq_iff_of_natCast hk hk',
      Int32.lt_iff_of_natCast hi hi'] at hlex
    exact (Int32.lt_iff_of_natCast hval hval').mpr (start_add_lt hsize hlex)
  case exact =>
    intro r j hr hlt hj hcount
    obtain ⟨_, _, -, -, -, -, hexact, -⟩ := getGlobalOffset_natCast hn hp hr hlt hj hcount
    exact hexact
  case balanced =>
    intro r r' hr hlt hr' hlt'
    obtain ⟨k, -, hk⟩ := Int32.exists_natCast_of_nonneg hr
    obtain ⟨k', -, hk'⟩ := Int32.exists_natCast_of_nonneg hr'
    rw [toInt_localCount hn hp hpos hk, toInt_localCount hn hp hpos hk', evenSize, evenSize]
    -- two blocks differ by the remainder only
    generalize n / p = share
    split <;> split <;> omega
  case sum => exact sum_localCount hn hp hpos
  case itemCount =>
    intro r q hr hlt hq hqlt
    obtain ⟨k, -, hk⟩ := Int32.exists_natCast_of_nonneg hq
    obtain ⟨c, hc, hval⟩ := @getItemCount_fields _ _ r _ _ _ q hn hp hpos hk
      ((Int32.lt_iff_of_natCast hk hp).mp hqlt)
    rw [hc, Except.ok.injEq]
    exact (Int32.eq_iff_of_natCast hval (toInt_localCount hn hp hpos hk)).mpr rfl

/-- Seven elements over three processes. -/
theorem exists_balancedPartition_seven :
    (0 : Int32) ≤ 7 ∧ (1 : Int32) ≤ 3 ∧ ∃ dist : Int32 → BlockDistribution,
      (∀ r, 0 ≤ r → r < 3 → new 7 3 r = .ok (dist r)) ∧ IsBalancedPartition 7 3 dist :=
  ⟨by decide, by decide, exists_balancedPartition 7 3 (by decide) (by decide)⟩

end Partition

/-! ## Padded arrays -/

section Padding

variable {globalCount processes : Int32} {n p : ℕ}

/-- The global array index of a cell of process `r`. -/
theorem getGlobalArrayIndex_fields (hn : globalCount.toInt = n) (hp : processes.toInt = p)
    {r j : Int32} {k i : ℕ} (hr : r.toInt = k) (hk : k < p) (hj : j.toInt = i)
    (hi : i < evenSize n p 0) (hpadded : evenSize n p 0 * p < 2 ^ 31) :
    ∃ g, (fields globalCount processes r).getGlobalArrayIndex j = .ok g ∧
      g.toInt = (k * evenSize n p 0 + i : ℕ) := by
  have hsize := @toInt_localArraySize _ _ r _ _ hn hp (Nat.zero_lt_of_lt hk)
  have hblock : k * evenSize n p 0 + evenSize n p 0 ≤ evenSize n p 0 * p := by
    rw [← Nat.succ_mul, Nat.mul_comm]
    exact Nat.mul_le_mul_left _ hk
  have hrange : ¬(j < 0 ∨
      (fields globalCount processes r).localArraySize ≤ j) := by
    rw [Int32.lt_iff_of_natCast hj Int32.toInt_zero_natCast, Int32.le_iff_of_natCast hsize hj]
    omega
  rw [getGlobalArrayIndex, if_neg hrange, procRank_fields]
  have hmul := Int32.toInt_mul_natCast hr hsize (by omega)
  exact ⟨_, rfl, Int32.toInt_add_natCast hmul hj (by omega)⟩

/-- The global array has room for all elements, and all indices are inside it. -/
structure PaddedInRange (d : BlockDistribution) : Prop where
  size : d.globalCount ≤ d.globalArraySize
  index {j g : Int32} : d.getGlobalArrayIndex j = .ok g → 0 ≤ g ∧ g < d.globalArraySize

/-- An index that `getGlobalArrayIndex` accepts is a local index. -/
theorem lt_of_getGlobalArrayIndex {d : BlockDistribution} {j g : Int32}
    (h : d.getGlobalArrayIndex j = .ok g) : 0 ≤ j ∧ j < d.localArraySize := by
  unfold getGlobalArrayIndex at h
  split at h
  · cases h
  · rename_i hrange
    rw [not_or, Int32.not_lt, Int32.not_le] at hrange
    exact hrange

/-- The padding is less than one element for each process. -/
theorem evenSize_mul_lt (n : ℕ) (hpos : 0 < p) :
    n ≤ evenSize n p 0 * p ∧ evenSize n p 0 * p < n + p := by
  have hdiv := Nat.div_add_mod' n p
  have hlt := Nat.mod_lt n hpos
  rw [evenSize, Nat.add_mul]
  split <;> omega

/-- The padded offsets fit if their number does. -/
theorem paddedInRange_of_fits (hn : globalCount.toInt = n) (hp : processes.toInt = p) {r : Int32}
    {k : ℕ} (hr : r.toInt = k) (hk : k < p) (hpadded : evenSize n p 0 * p < 2 ^ 31) :
    PaddedInRange (fields globalCount processes r) := by
  have hpos : 0 < p := Nat.zero_lt_of_lt hk
  have hlocal := @toInt_localArraySize _ _ r _ _ hn hp hpos
  have hglobal : (fields globalCount processes r).globalArraySize.toInt =
      (evenSize n p 0 * p : ℕ) := Int32.toInt_mul_natCast hlocal hp hpadded
  constructor
  · exact (Int32.le_iff_of_natCast hn hglobal).mpr (evenSize_mul_lt n hpos).1
  · intro j g hg
    obtain ⟨hj, hjlt⟩ := lt_of_getGlobalArrayIndex hg
    obtain ⟨i, -, hi⟩ := Int32.exists_natCast_of_nonneg hj
    have hisize := (Int32.lt_iff_of_natCast hi hlocal).mp hjlt
    obtain ⟨g', hg', hval⟩ := getGlobalArrayIndex_fields hn hp hr hk hi hisize hpadded
    obtain rfl := Except.ok.inj (hg.symm.trans hg')
    refine ⟨Int32.nonneg_of_natCast hval, (Int32.lt_iff_of_natCast hval hglobal).mpr ?_⟩
    -- the cells of the process end at its successor's, or at the end of the array
    have hblock : (k + 1) * evenSize n p 0 ≤ p * evenSize n p 0 := Nat.mul_le_mul_right _ hk
    rw [Nat.succ_mul] at hblock
    rw [Nat.mul_comm (evenSize n p 0) p]
    omega

/-- The size of the global array is negative if it is not the value of an `int`. -/
theorem not_paddedInRange (hn : globalCount.toInt = n) (hp : processes.toInt = p) (hpos : 0 < p)
    {r : Int32} (hlarge : 2 ^ 31 ≤ evenSize n p 0 * p) :
    ¬PaddedInRange (fields globalCount processes r) := by
  intro hrange
  have hlocal := @toInt_localArraySize _ _ r _ _ hn hp hpos
  have hlt := (evenSize_mul_lt n hpos).2
  have hnlt := globalCount.toInt_lt
  have hplt := processes.toInt_lt
  have hmul : (fields globalCount processes r).localArraySize.toInt * processes.toInt =
      (evenSize n p 0 * p : ℕ) := by rw [hlocal, hp, Int.natCast_mul]
  have hneg : ((fields globalCount processes r).localArraySize * processes).toInt < 0 :=
    Int32.toInt_mul_neg (by omega) (by omega)
  have hle : globalCount.toInt ≤
      ((fields globalCount processes r).localArraySize * processes).toInt :=
    Int32.le_iff_toInt_le.mp hrange.size
  omega

end Padding

/-- For every number of elements, every group and every rank: the global array has room for all
elements and all indices are inside it exactly if the number of elements, rounded up to a multiple
of the size of the group, is the value of an `int`. -/
theorem paddedInRange_iff (globalCount processes localRank : Int32) (hcount : 0 ≤ globalCount)
    (d : BlockDistribution) (hd : new globalCount processes localRank = .ok d) :
    PaddedInRange d ↔
      (globalCount.toInt + processes.toInt - 1) / processes.toInt * processes.toInt < 2 ^ 31 := by
  obtain ⟨hpos, hr, hlt, rfl⟩ : 0 < processes ∧ 0 ≤ localRank ∧ localRank < processes ∧
      d = fields globalCount processes localRank := by
    unfold new at hd
    split_ifs at hd with hprocs hrank
    rw [not_or, Int32.not_lt, Int32.not_le] at hrank
    exact ⟨Int32.not_le.mp hprocs, hrank.1, hrank.2, (Except.ok.inj hd).symm⟩
  obtain ⟨n, -, hn⟩ := Int32.exists_natCast_of_nonneg hcount
  obtain ⟨p, -, hp⟩ := Int32.exists_natCast_of_nonneg (Int32.le_of_lt hpos)
  obtain ⟨k, -, hk⟩ := Int32.exists_natCast_of_nonneg hr
  have hkp : k < p := (Int32.lt_iff_of_natCast hk hp).mp hlt
  have hppos : 0 < p := Nat.zero_lt_of_lt hkp
  have hpadded : (globalCount.toInt + processes.toInt - 1) / processes.toInt * processes.toInt =
      (evenSize n p 0 * p : ℕ) := by
    have hceil : (evenSize n p 0 : ℤ) = (n + p - 1) / p := natCast_cappedCount n hppos
    rw [hn, hp, Int.natCast_mul, hceil]
  rw [hpadded]
  constructor
  · intro hrange
    by_contra hlarge
    exact not_paddedInRange hn hp hppos (by omega) hrange
  · intro hfits
    exact paddedInRange_of_fits hn hp hk hkp (by omega)

/-- Seven elements over three processes. -/
theorem paddedInRange_seven : new 7 3 1 = .ok (fields 7 3 1) ∧ PaddedInRange (fields 7 3 1) :=
  ⟨by decide, (paddedInRange_iff 7 3 1 (by decide) (fields 7 3 1) (by decide)).mpr (by decide)⟩

/-- The greatest `int` is odd, so two processes do not have room for as many elements. -/
theorem not_paddedInRange_two :
    new 2147483647 2 0 = .ok (fields 2147483647 2 0) ∧
      (fields 2147483647 2 0).globalArraySize = -2147483648 ∧
      ¬PaddedInRange (fields 2147483647 2 0) :=
  ⟨by decide, by decide, fun h => absurd h.size (by decide)⟩

end Mpi
