import StateTableBench.Mpi.Arrays

/-!
# Gathering arrays of UUIDs

`allgatherUUID` of `MPIBenchApp.java` shares the partial arrays of all processes. A UUID travels
as two `long`s and `null` as two zeros, so the messages are twice as long as the arrays; their
lengths are computed as `int`s.

The collective `allGather` concatenates the send buffers in rank order. A rank that throws before
it leaves the others waiting.

* `allgatherUUID_eq_returns` — every process obtains the arrays of all processes, one after another;
* `beforeAllGather_eq_error` — the exception if a message is too long.
-/

open Blocks

namespace Mpi

/-- A UUID. -/
structure UUID where
  mostSignificantBits : Int64
  leastSignificantBits : Int64
deriving DecidableEq

/-- The two `long`s that stand for an entry of an array. -/
def words : Option UUID → List Int64
  | none => [0, 0]
  | some id => [id.mostSignificantBits, id.leastSignificantBits]

/-- The body of the loop that fills the send buffer. -/
def packElement (idArray : List (Option UUID)) (smsg : List Int64) (i : Int32) :
    Except Exn (List Int64) := do
  match ← read idArray i with
  | none =>
    let smsg ← write smsg (2 * i) 0
    write smsg (2 * i + 1) 0
  | some id =>
    let smsg ← write smsg (2 * i) id.mostSignificantBits
    write smsg (2 * i + 1) id.leastSignificantBits

/-- `allgatherUUID` up to the collective: the send buffer, filled, and the receive buffer. -/
def beforeAllGather (mpiSize : Int32) (idArray : List (Option UUID)) :
    Except Exn (List Int64 × List Int64) := do
  let baseArraySize := length idArray * 2
  let smsg ← newArray baseArraySize 0
  let smsg ← (intRange (length idArray)).foldlM (packElement idArray) smsg
  let rmsg ← newArray (baseArraySize * mpiSize) 0
  return (smsg, rmsg)

/-- `MPI.COMM_WORLD.allGather`: the receive buffer of a process, from the send buffers of all. -/
def allGather (smsgs : List (List Int64)) (rmsg : List Int64) : List Int64 :=
  smsgs.flatten ++ rmsg.drop smsgs.flatten.length

/-- The body of the loop that reads the receive buffer. -/
def unpackElement (rmsg : List Int64) (allIds : List (Option UUID)) (i : Int32) :
    Except Exn (List (Option UUID)) := do
  let most ← read rmsg (2 * i)
  let least ← read rmsg (2 * i + 1)
  write allIds i (if most = 0 ∧ least = 0 then none else some ⟨most, least⟩)

/-- `allgatherUUID` after the collective. -/
def afterAllGather (mpiSize : Int32) (idArray : List (Option UUID)) (rmsg : List Int64) :
    Except Exn (List (Option UUID)) := do
  let allIds ← newArray (length idArray * mpiSize) none
  (intRange (length idArray * mpiSize)).foldlM (unpackElement rmsg) allIds

/-- How a call with a collective ends. -/
inductive Outcome (α : Type)
  | returns (result : α)
  | throws (e : Exn)
  /-- Another process never enters the collective. -/
  | waits

/-- `allgatherUUID` at the process `mpiRank`, when each process `q` passes `idArrays q`. -/
def allgatherUUID (mpiSize : Int32) (idArrays : Int32 → List (Option UUID)) (mpiRank : Int32) :
    Outcome (List (Option UUID)) :=
  match beforeAllGather mpiSize (idArrays mpiRank) with
  | .error e => .throws e
  | .ok (_, rmsg) =>
    match (intRange mpiSize).mapM fun q => beforeAllGather mpiSize (idArrays q) with
    | .error _ => .waits
    | .ok buffers =>
      match afterAllGather mpiSize (idArrays mpiRank)
          (allGather (buffers.map Prod.fst) rmsg) with
      | .error e => .throws e
      | .ok allIds => .returns allIds

section Messages

variable {idArray : List (Option UUID)} {mpiSize i : Int32} {k p : ℕ}

/-- Each identifier has two words. -/
@[simp]
theorem length_flatMap_words (ids : List (Option UUID)) :
    (ids.flatMap words).length = 2 * ids.length := by
  induction ids with
  | nil => rfl
  | cons x ids ih =>
    rw [List.flatMap_cons, List.length_append, ih, List.length_cons]
    cases x <;> simp [words] <;> omega

/-- `2 * i` and `2 * i + 1`, below the length of a message. -/
theorem toInt_two_mul (hi : i.toInt = k) (hk : 2 * k + 1 < 2 ^ 31) :
    (2 * i).toInt = (2 * k : ℕ) ∧ (2 * i + 1).toInt = (2 * k + 1 : ℕ) := by
  have htwo : (2 : Int32).toInt = (2 : ℕ) := rfl
  have hmul := Int32.toInt_mul_natCast htwo hi (by omega)
  exact ⟨hmul, Int32.toInt_add_natCast hmul Int32.toInt_one_natCast hk⟩

/-- Writing the two words of an entry. -/
theorem write_pair (hi : i.toInt = k) (hk : 2 * k + 1 < 2 ^ 31) {done todo : List Int64}
    (hdone : done.length = 2 * k) (x y x' y' : Int64) :
    (write (done ++ x :: y :: todo) (2 * i) x' >>= fun smsg => write smsg (2 * i + 1) y') =
      .ok (done ++ [x', y'] ++ todo) := by
  obtain ⟨heven, hodd⟩ := toInt_two_mul hi hk
  rw [write_append heven hdone]
  change write (done ++ x' :: y :: todo) (2 * i + 1) y' = _
  rw [List.append_cons, write_append hodd (by simp [hdone])]
  simp

/-- One more entry in the send buffer. -/
theorem packElement_eq_ok (hi : i.toInt = k) (hlt : k < idArray.length)
    (hfits : 2 * idArray.length < 2 ^ 31) :
    packElement idArray ((idArray.take k).flatMap words ++
        List.replicate (2 * (idArray.length - k)) 0) i =
      .ok ((idArray.take (k + 1)).flatMap words ++
        List.replicate (2 * (idArray.length - (k + 1))) 0) := by
  have hread : read idArray i = .ok idArray[k] := by
    rw [read_eq_ok_iff hi, List.getElem?_eq_getElem hlt]
  have hzeros : List.replicate (2 * (idArray.length - k)) (0 : Int64) =
      0 :: 0 :: List.replicate (2 * (idArray.length - (k + 1))) 0 := by
    rw [show 2 * (idArray.length - k) = 2 * (idArray.length - (k + 1)) + 1 + 1 by omega]
    rfl
  have hdone : ((idArray.take k).flatMap words).length = 2 * k := by
    rw [length_flatMap_words, List.length_take, Nat.min_eq_left (Nat.le_of_lt hlt)]
  have htake : (idArray.take (k + 1)).flatMap words =
      (idArray.take k).flatMap words ++ words idArray[k] := by
    rw [List.take_add_one, List.getElem?_eq_getElem hlt, Option.toList_some,
      List.flatMap_append, List.flatMap_singleton]
  unfold packElement
  rw [hread, hzeros, htake]
  cases idArray[k] with
  | none => exact write_pair hi (by omega) hdone 0 0 0 0
  | some id => exact write_pair hi (by omega) hdone 0 0 _ _

/-- The loop that fills the send buffer. -/
theorem foldlM_packElement (hfits : 2 * idArray.length < 2 ^ 31) :
    (intRange (length idArray)).foldlM (packElement idArray)
      (List.replicate (2 * idArray.length) 0) = .ok (idArray.flatMap words) := by
  have hlen : (length idArray).toInt = (idArray.length : ℕ) := toInt_length (by omega)
  obtain ⟨smsg, hloop, hsmsg⟩ := foldlM_intRange hlen (packElement idArray)
    (fun k smsg => smsg = (idArray.take k).flatMap words ++
      List.replicate (2 * (idArray.length - k)) 0)
    (s := List.replicate (2 * idArray.length) 0) (by simp) (by
      rintro i k hi hk _ rfl
      exact ⟨_, packElement_eq_ok hi hk hfits, rfl⟩)
  rw [hloop, hsmsg, List.take_length, Nat.sub_self, Nat.mul_zero, List.replicate_zero,
    List.append_nil]

/-- `baseArraySize` is the length of the send buffer, if that is the value of an `int`. -/
theorem toInt_baseArraySize (hfits : 2 * idArray.length < 2 ^ 31) :
    (length idArray * 2).toInt = (2 * idArray.length : ℕ) := by
  have hlen : (length idArray).toInt = (idArray.length : ℕ) := toInt_length (by omega)
  rw [Nat.mul_comm]
  exact Int32.toInt_mul_natCast hlen rfl (by omega)

/-- The buffers of a process, when the messages are not too long. -/
theorem beforeAllGather_eq_ok (hp : mpiSize.toInt = p) (hpos : 0 < p)
    (hfits : 2 * idArray.length * p < 2 ^ 31) :
    beforeAllGather mpiSize idArray =
      .ok (idArray.flatMap words, List.replicate (2 * idArray.length * p) 0) := by
  have hle : 2 * idArray.length ≤ 2 * idArray.length * p := Nat.le_mul_of_pos_right _ hpos
  have hbase := @toInt_baseArraySize idArray (by omega)
  unfold beforeAllGather
  simp only [newArray_eq_ok hbase, newArray_eq_ok (Int32.toInt_mul_natCast hbase hp hfits),
    foldlM_packElement (Nat.lt_of_le_of_lt hle hfits), bind, Except.bind, pure, Except.pure]

/-- If the receive buffer would be too long, its size is negative, unless already that of the send
buffer is. -/
theorem beforeAllGather_eq_error (hp : mpiSize.toInt = p) (hpos : 0 < p)
    (hpadded : idArray.length * p < 2 ^ 31) (hfits : 2 ^ 31 ≤ 2 * idArray.length * p) :
    beforeAllGather mpiSize idArray = .error .negativeArraySize := by
  rw [Nat.mul_assoc] at hfits
  unfold beforeAllGather
  by_cases hshort : 2 * idArray.length < 2 ^ 31
  · have hbase := toInt_baseArraySize hshort
    have hneg : (length idArray * 2 * mpiSize).toInt < 0 := by
      refine Int32.toInt_mul_neg ?_ ?_ <;>
        rw [hbase, hp, ← Int.natCast_mul, Nat.mul_assoc] <;> omega
    simp only [newArray_eq_ok hbase, foldlM_packElement hshort, newArray_of_neg hneg, bind,
      Except.bind]
  · have hneg : (length idArray * 2).toInt < 0 := by
      have hle : idArray.length ≤ idArray.length * p := Nat.le_mul_of_pos_right _ hpos
      have htwo : (2 : Int32).toInt = 2 := rfl
      refine Int32.toInt_mul_neg ?_ ?_ <;> rw [toInt_length (by omega), htwo] <;> omega
    simp only [newArray_of_neg hneg, bind, Except.bind]

/-- One more entry of the receive buffer. -/
theorem unpackElement_eq_ok {ids : List (Option UUID)} (hi : i.toInt = k) (hlt : k < ids.length)
    (hfits : 2 * ids.length < 2 ^ 31) (hzero : some ⟨0, 0⟩ ∉ ids) :
    unpackElement (ids.flatMap words) (ids.take k ++ List.replicate (ids.length - k) none) i =
      .ok (ids.take (k + 1) ++ List.replicate (ids.length - (k + 1)) none) := by
  obtain ⟨heven, hodd⟩ := toInt_two_mul hi (by omega)
  have hdone : ((ids.take k).flatMap words).length = 2 * k := by
    rw [length_flatMap_words, List.length_take, Nat.min_eq_left (Nat.le_of_lt hlt)]
  obtain ⟨most, least, hwords, hentry⟩ : ∃ most least, words ids[k] = [most, least] ∧
      (if most = 0 ∧ least = 0 then none else some ⟨most, least⟩) = ids[k] := by
    have hmem : ids[k] ∈ ids := List.getElem_mem hlt
    cases hx : ids[k] with
    | none => exact ⟨0, 0, rfl, rfl⟩
    | some id =>
      refine ⟨_, _, rfl, ?_⟩
      -- a UUID with all bytes zero is the only one that becomes `null`
      rw [if_neg]
      rintro ⟨hmost, hleast⟩
      have hid : id = ⟨0, 0⟩ := by
        cases id
        simp_all
      rw [hx, hid] at hmem
      exact hzero hmem
  have hsplit : ids.flatMap words = (ids.take k).flatMap words ++
      most :: least :: (ids.drop (k + 1)).flatMap words := by
    nth_rewrite 1 [← List.take_append_drop k ids]
    rw [List.flatMap_append, List.drop_eq_getElem_cons hlt, List.flatMap_cons, hwords]
    rfl
  have hmost : read (ids.flatMap words) (2 * i) = .ok most := by
    rw [hsplit, read_append heven hdone]
  have hleast : read (ids.flatMap words) (2 * i + 1) = .ok least := by
    rw [hsplit, List.append_cons, read_append hodd (by simp [hdone])]
  have hnone : List.replicate (ids.length - k) (none : Option UUID) =
      none :: List.replicate (ids.length - (k + 1)) none := by
    rw [show ids.length - k = ids.length - (k + 1) + 1 by omega]
    rfl
  unfold unpackElement
  simp only [hmost, hleast, hentry, hnone, bind, Except.bind]
  rw [write_append hi (by rw [List.length_take]; omega), List.take_add_one,
    List.getElem?_eq_getElem hlt, Option.toList_some, List.append_assoc, List.singleton_append]

/-- The receive buffer is read back to the entries that were sent. -/
theorem afterAllGather_eq_ok {ids : List (Option UUID)} (hp : mpiSize.toInt = p)
    (hlen : ids.length = idArray.length * p) (hle : idArray.length < 2 ^ 31)
    (hfits : 2 * ids.length < 2 ^ 31) (hzero : some ⟨0, 0⟩ ∉ ids) :
    afterAllGather mpiSize idArray (ids.flatMap words) = .ok ids := by
  have hsize : (length idArray * mpiSize).toInt = (ids.length : ℕ) := by
    rw [hlen]
    exact Int32.toInt_mul_natCast (toInt_length hle) hp (by omega)
  obtain ⟨allIds, hloop, hallIds⟩ := foldlM_intRange hsize (unpackElement (ids.flatMap words))
    (fun k allIds => allIds = ids.take k ++ List.replicate (ids.length - k) none)
    (s := List.replicate ids.length none) (by simp) (by
      rintro i k hi hk _ rfl
      exact ⟨_, unpackElement_eq_ok hi hk hfits hzero, rfl⟩)
  unfold afterAllGather
  rw [newArray_eq_ok hsize]
  refine hloop.trans ?_
  rw [hallIds, List.take_length, Nat.sub_self, List.replicate_zero, List.append_nil]

end Messages

section World

variable {mpiSize : Int32} {p len : ℕ} {idArrays : Int32 → List (Option UUID)}

/-- A function that never throws. -/
theorem mapM_eq_ok {α β ε : Type} {f : α → Except ε β} {g : α → β} {l : List α}
    (h : ∀ x ∈ l, f x = .ok (g x)) : l.mapM f = .ok (l.map g) := by
  induction l with
  | nil => rfl
  | cons x l ih =>
    rw [List.mapM_cons, h x List.mem_cons_self, ih fun y hy => h y (List.mem_cons_of_mem x hy)]
    rfl

/-- The arrays of all processes, one after another. -/
theorem length_flatMap_idArrays (hp : mpiSize.toInt = p)
    (hlen : ∀ r, 0 ≤ r → r < mpiSize → (idArrays r).length = len) :
    ((intRange mpiSize).flatMap idArrays).length = len * p := by
  have hplt := mpiSize.toInt_lt
  rw [intRange, List.flatMap_map, Int32.toNatClampNeg_of_natCast hp, length_flatMap_range,
    @start_congr _ (fun _ => len), start_const, Nat.mul_comm]
  intro k hk
  have hk' : (Int32.ofNat k).toInt = k := Int32.toInt_ofNat_of_lt (by omega)
  exact hlen _ (Int32.nonneg_of_natCast hk')
    ((Int32.lt_iff_of_natCast hk' hp).mpr hk)

/-- The entry `j` of process `r` is found at `r * len + j`. -/
theorem getElem?_flatMap_idArrays (hp : mpiSize.toInt = p)
    (hlen : ∀ r, 0 ≤ r → r < mpiSize → (idArrays r).length = len) {r : Int32} {k j : ℕ}
    (hr : r.toInt = k) (hk : k < p) (hj : j < len) :
    ((intRange mpiSize).flatMap idArrays)[k * len + j]? = (idArrays r)[j]? := by
  have hplt := mpiSize.toInt_lt
  have hlen' : ∀ i < p, (idArrays (Int32.ofNat i)).length = len := by
    intro i hi
    have hi' : (Int32.ofNat i).toInt = i := Int32.toInt_ofNat_of_lt (by omega)
    exact hlen _ (Int32.nonneg_of_natCast hi')
      ((Int32.lt_iff_of_natCast hi' hp).mpr hi)
  have hget := @getElem?_flatMap_range _ (fun i => idArrays (Int32.ofNat i)) p k j hk
    (by rw [hlen' k hk]; exact hj)
  rw [@start_congr _ (fun _ => len) _ fun i hi => hlen' i (by omega), start_const] at hget
  rw [intRange, List.flatMap_map, Int32.toNatClampNeg_of_natCast hp, Int32.eq_ofNat_of_natCast hr]
  exact hget

/-- Every process obtains the arrays of all processes, one after another. -/
theorem allgatherUUID_eq_returns (hp : mpiSize.toInt = p) (hpos : 0 < p)
    (hlen : ∀ r, 0 ≤ r → r < mpiSize → (idArrays r).length = len)
    (hfits : 2 * (len * p) < 2 ^ 31) (hzero : some ⟨0, 0⟩ ∉ (intRange mpiSize).flatMap idArrays)
    {r : Int32} (hr : 0 ≤ r) (hlt : r < mpiSize) :
    allgatherUUID mpiSize idArrays r = .returns ((intRange mpiSize).flatMap idArrays) := by
  have hbuffers : ∀ q ∈ intRange mpiSize, beforeAllGather mpiSize (idArrays q) =
      .ok ((idArrays q).flatMap words, List.replicate (2 * len * p) 0) := by
    intro q hq
    obtain ⟨hq, hqlt⟩ := mem_intRange.mp hq
    rw [beforeAllGather_eq_ok hp hpos (by rw [hlen q hq hqlt, Nat.mul_assoc]; exact hfits),
      hlen q hq hqlt]
  have hall := length_flatMap_idArrays hp hlen
  -- the messages fill the receive buffer
  have hrmsg : allGather (((intRange mpiSize).map fun q =>
      ((idArrays q).flatMap words, List.replicate (2 * len * p) (0 : Int64))).map Prod.fst)
      (List.replicate (2 * len * p) 0) = ((intRange mpiSize).flatMap idArrays).flatMap words := by
    have hflat : (((intRange mpiSize).map fun q =>
        ((idArrays q).flatMap words, List.replicate (2 * len * p) (0 : Int64))).map
          Prod.fst).flatten = ((intRange mpiSize).flatMap idArrays).flatMap words := by
      rw [List.map_map, List.flatMap_assoc, List.flatMap_def]
      rfl
    rw [allGather, hflat, length_flatMap_words, hall, List.drop_of_length_le, List.append_nil]
    rw [List.length_replicate, Nat.mul_assoc]
  have hle : len ≤ len * p := Nat.le_mul_of_pos_right _ hpos
  have hread := @afterAllGather_eq_ok (idArrays r) mpiSize p _ hp
    (by rw [hall, hlen r hr hlt]) (by rw [hlen r hr hlt]; omega) (by rw [hall]; exact hfits) hzero
  unfold allgatherUUID
  simp only [hbuffers r (mem_intRange.mpr ⟨hr, hlt⟩), mapM_eq_ok hbuffers, hrmsg, hread]

end World

end Mpi
