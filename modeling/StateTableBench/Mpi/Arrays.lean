import StateTableBench.Mpi.BlockDistribution

/-!
# Arrays of the distribution code

Arrays are lists that are read and written at `int` indices. An access outside the bounds throws,
and so does an allocation with a negative size.

`compactGlobalArray_eq_ok`: from an array that holds the block of each process at a multiple of
`localArraySize`, `compactGlobalArray` copies the blocks one after another.
-/

open Blocks

namespace Mpi

section Arrays

variable {α : Type} {i : Int32} {k : ℕ}

/-- `a.length`. -/
def length (a : List α) : Int32 := Int32.ofNat a.length

/-- `a[i]`. -/
def read (a : List α) (i : Int32) : Except Exn α :=
  if i < 0 then .error .arrayIndexOutOfBounds
  else a[i.toNatClampNeg]?.elim (.error .arrayIndexOutOfBounds) .ok

/-- `a[i] = x`. -/
def write (a : List α) (i : Int32) (x : α) : Except Exn (List α) :=
  if i < 0 then .error .arrayIndexOutOfBounds
  else if i.toNatClampNeg < a.length then .ok (a.set i.toNatClampNeg x)
  else .error .arrayIndexOutOfBounds

/-- `new T[size]`, with the value that fills the new array. -/
def newArray (size : Int32) (x : α) : Except Exn (List α) :=
  if size < 0 then .error .negativeArraySize else .ok (List.replicate size.toNatClampNeg x)

theorem not_neg_of_natCast (hi : i.toInt = k) : ¬i < 0 := by
  rw [Int32.lt_iff_of_natCast hi Int32.toInt_zero_natCast]
  omega

/-- An index within the array is read. -/
theorem read_eq_ok_iff (hi : i.toInt = k) {a : List α} {x : α} :
    read a i = .ok x ↔ a[k]? = some x := by
  rw [read, if_neg (not_neg_of_natCast hi), Int32.toNatClampNeg_of_natCast hi]
  cases a[k]? <;> simp

/-- Reading between two parts of an array. -/
theorem read_append (hi : i.toInt = k) {before after : List α} (hlen : before.length = k) (x : α) :
    read (before ++ x :: after) i = .ok x := by
  rw [read_eq_ok_iff hi, ← hlen]
  simp

/-- Writing between a part of an array that is done and one that is not. -/
theorem write_append (hi : i.toInt = k) {done todo : List α} (hdone : done.length = k) (x y : α) :
    write (done ++ x :: todo) i y = .ok (done ++ y :: todo) := by
  rw [write, if_neg (not_neg_of_natCast hi), Int32.toNatClampNeg_of_natCast hi,
    if_pos (by simp; omega), ← hdone, List.set_append_right _ _ (Nat.le_refl _)]
  simp

/-- Writing inside the bounds. -/
theorem write_eq_ok (hi : i.toInt = k) {a : List α} (hk : k < a.length) (x : α) :
    write a i x = .ok (a.set k x) := by
  rw [write, if_neg (not_neg_of_natCast hi), Int32.toNatClampNeg_of_natCast hi, if_pos hk]

/-- Writing keeps the length. -/
theorem length_of_write_eq_ok {a a' : List α} {x : α} (h : write a i x = .ok a') :
    a'.length = a.length := by
  unfold write at h
  split at h
  · cases h
  · split at h
    · cases h
      exact List.length_set
    · cases h

/-- A new array of a length that is not negative. -/
theorem newArray_eq_ok (hi : i.toInt = k) (x : α) : newArray i x = .ok (List.replicate k x) := by
  rw [newArray, if_neg (not_neg_of_natCast hi), Int32.toNatClampNeg_of_natCast hi]

/-- Its length. -/
theorem length_of_newArray_eq_ok {a : List α} {x : α} (h : newArray i x = .ok a) :
    a.length = i.toNatClampNeg := by
  unfold newArray at h
  split at h
  · cases h
  · cases h
    exact List.length_replicate

/-- There is no array of a negative length. -/
theorem newArray_of_neg (hi : i.toInt < 0) (x : α) : newArray i x = .error .negativeArraySize := by
  rw [newArray, if_pos (Int32.lt_iff_toInt_lt.mpr hi)]

/-- The length of an array that Java can have. -/
theorem toInt_length {a : List α} (h : a.length < 2 ^ 31) : (length a).toInt = a.length :=
  Int32.toInt_ofNat_of_lt h

end Arrays

section Compact

variable {α : Type}

/-- The body of the inner loop of `compactGlobalArray`, with state `(dest, ptr)`. -/
def copyElement (source : List α) (b : Int32) (s : List α × Int32) (j : Int32) :
    Except Exn (List α × Int32) := do
  let x ← read source (b + j)
  let dest ← write s.1 s.2 x
  return (dest, s.2 + 1)

/-- The body of the outer loop of `compactGlobalArray`. -/
def BlockDistribution.copyBlock (d : BlockDistribution) (source : List α) (s : List α × Int32)
    (proc : Int32) : Except Exn (List α × Int32) := do
  let b := proc * d.localArraySize
  let items ← d.getItemCount proc
  (intRange items).foldlM (copyElement source b) s

/-- Compact a global array, eliminating padding. -/
def BlockDistribution.compactGlobalArray (d : BlockDistribution) (source dest : List α) :
    Except Exn (List α) := do
  let s ← (intRange d.procSize).foldlM (d.copyBlock source) (dest, 0)
  return s.1

/-- The state of the copying loops after `m` elements: the first `m` cells of the destination
are those of `result`, and `ptr` is `m`. -/
def Copied (result dest : List α) (m : ℕ) (s : List α × Int32) : Prop :=
  s.1 = result.take m ++ dest.drop m ∧ s.2.toInt = m

/-- Copying one more element. -/
theorem Copied.copyElement {result dest source : List α} {m : ℕ} {s : List α × Int32}
    (hs : Copied result dest m s) (hlt : m < result.length) (hlen : dest.length = result.length)
    (hmax : result.length < 2 ^ 31) {b j : Int32} {k : ℕ} (hi : (b + j).toInt = k)
    (hsource : source[k]? = result[m]?) :
    ∃ s', Mpi.copyElement source b s j = .ok s' ∧ Copied result dest (m + 1) s' := by
  obtain ⟨hdest, hptr⟩ := hs
  have hread : read source (b + j) = .ok result[m] := by
    rw [read_eq_ok_iff hi, hsource, List.getElem?_eq_getElem hlt]
  have hwrite : write s.1 s.2 result[m] =
      .ok (result.take m ++ result[m] :: dest.drop (m + 1)) := by
    rw [hdest, List.drop_eq_getElem_cons (by omega)]
    exact write_append hptr (by simp; omega) _ _
  refine ⟨(result.take m ++ result[m] :: dest.drop (m + 1), s.2 + 1), ?_, ?_, ?_⟩
  · unfold Mpi.copyElement
    rw [hread]
    change (write s.1 s.2 result[m] >>= fun dest => .ok (dest, s.2 + 1)) = _
    rw [hwrite]
    rfl
  · rw [List.take_add_one, List.getElem?_eq_getElem hlt, Option.toList_some, List.append_assoc,
      List.singleton_append]
  · exact Int32.toInt_add_natCast hptr Int32.toInt_one_natCast (by omega)

section

variable {globalCount processes localRank : Int32} {n p : ℕ} {source dest result : List α}

/-- Copying the block of one more process. -/
theorem Copied.copyBlock (hn : globalCount.toInt = n) (hp : processes.toInt = p)
    (hfits : evenSize n p 0 * p < 2 ^ 31) (hresult : result.length = n) (hdest : dest.length = n)
    {proc : Int32} {k : ℕ} (hproc : proc.toInt = k) (hk : k < p)
    (hsource : ∀ j < evenSize n p k,
      source[k * evenSize n p 0 + j]? = result[start (evenSize n p) k + j]?)
    {s : List α × Int32} (hs : Copied result dest (start (evenSize n p) k) s) :
    ∃ s', (BlockDistribution.fields globalCount processes localRank).copyBlock source s proc =
        .ok s' ∧ Copied result dest (start (evenSize n p) (k + 1)) s' := by
  have hpos : 0 < p := Nat.zero_lt_of_lt hk
  have hnlt := globalCount.toInt_lt
  have hend := @start_evenSize_self n p hpos
  have hsize := @BlockDistribution.toInt_localArraySize _ _ localRank _ _ hn hp hpos
  obtain ⟨items, hitems, hval⟩ := @BlockDistribution.getItemCount_fields _ _ localRank _ _ _ proc
    hn hp hpos hproc hk
  -- the block lies within the array, so no index overflows
  have hblock : k * evenSize n p 0 + evenSize n p 0 ≤ evenSize n p 0 * p := by
    rw [← Nat.succ_mul, Nat.mul_comm]
    exact Nat.mul_le_mul_left _ hk
  have hle : evenSize n p k ≤ evenSize n p 0 := evenSize_le_zero n p k
  have hb := Int32.toInt_mul_natCast hproc hsize (by omega)
  obtain ⟨s', hs', hI⟩ := foldlM_intRange hval
    (Mpi.copyElement source
      (proc * (BlockDistribution.fields globalCount processes localRank).localArraySize))
    (fun j => Copied result dest (start (evenSize n p) k + j)) hs (by
      intro i j hi hj s hs
      have hmono := start_add_lt_start hk hj
      exact hs.copyElement (by omega) (by omega) (by omega)
        (Int32.toInt_add_natCast hb hi (by omega)) (hsource j hj))
  refine ⟨s', ?_, ?_⟩
  · unfold BlockDistribution.copyBlock
    rw [hitems]
    exact hs'
  · rw [start_succ]
    exact hI

/-- `compactGlobalArray` copies the blocks one after another. -/
theorem compactGlobalArray_eq_ok (hn : globalCount.toInt = n) (hp : processes.toInt = p)
    (hpos : 0 < p) (hfits : evenSize n p 0 * p < 2 ^ 31) (hresult : result.length = n)
    (hdest : dest.length = n)
    (hsource : ∀ k < p, ∀ j < evenSize n p k,
      source[k * evenSize n p 0 + j]? = result[start (evenSize n p) k + j]?) :
    (BlockDistribution.fields globalCount processes localRank).compactGlobalArray source dest =
      .ok result := by
  obtain ⟨s, hloop, hdone, -⟩ := foldlM_intRange hp
    ((BlockDistribution.fields globalCount processes localRank).copyBlock source)
    (fun k => Copied result dest (start (evenSize n p) k)) (s := (dest, 0))
    ⟨by simp, by rw [start_zero]; rfl⟩
    (fun proc k hproc hk s hs =>
      hs.copyBlock hn hp hfits hresult hdest hproc hk (hsource k hk))
  have hfull : s.1 = result := by
    rw [hdone, start_evenSize_self hpos, List.take_of_length_le (by omega),
      List.drop_of_length_le (by omega), List.append_nil]
  unfold BlockDistribution.compactGlobalArray
  rw [BlockDistribution.procSize_fields, hloop]
  exact congrArg Except.ok hfull

end

end Compact

end Mpi
