import Mathlib.Data.List.Basic
import Mathlib.Algebra.Group.Nat.Defs

/-!
# The writes and the waits of the nodes

What a node does with its maps in `setup()` and in `run()`: the calls of `putOpinion` of a writer,
one after another, and what a reader waits for.

There are two kinds of writers and readers. `WriterNode` and `ReaderNode` work on one map through
an `ArpMergedMapTest`, and the reader reads one event after the other. `MultiMapWriterNode` and
`MultiMapReaderNode` work on several maps, and the reader waits for a latch that all its maps count
down.

The addresses are of any type `κ`. `draw` are the addresses that a writer picks at random.
-/

namespace LatencyNodes

variable {κ : Type}

/-- The callback of a node in which something is done. -/
inductive Callback
  | setup
  | run
deriving DecidableEq

/-- What a node does with its maps. -/
inductive NodeOp (κ : Type)
  /-- `putOpinion` is called. -/
  | putOpinion (callback : Callback) (map : String) (ip : κ)
  /-- The node waits until the map has delivered a number of events. -/
  | await (map : String) (events : ℕ)
deriving DecidableEq

/-- The array of addresses that all ranks have after `distributeRandomIPSet`. -/
def distributeRandomIPSet (size : ℤ) (address : ℕ → κ) : List κ :=
  (List.range size.toNat).map address

/-! ### `ArpMergedMapTest` -/

/-- `writeWarmup`: one write for each address. -/
def writeWarmup (map : String) (ipSet : List κ) : List (NodeOp κ) :=
  ipSet.map (.putOpinion .setup map)

/-- Calls of `writeEntry`, the first of which picks the `first`-th random address. -/
def writeEntries (callback : Callback) (map : String) (draw : ℕ → κ) (first count : ℕ) :
    List (NodeOp κ) :=
  (List.range count).map fun i => .putOpinion callback map (draw (first + i))

/-- Calls of `readEntry`, which increments `readOffset` and waits for as many events. -/
def readEntries (map : String) (readOffset count : ℕ) : List (NodeOp κ) :=
  (List.range count).map fun i => .await map (readOffset + i + 1)

/-! ### Nodes for one map -/

/-- `WriterNode.setup`. -/
def WriterNode.setup (map : String) (ipSet : List κ) (draw : ℕ → κ) (numberOfWarmupWrites : ℤ) :
    List (NodeOp κ) :=
  writeWarmup map ipSet ++ writeEntries .setup map draw 0 numberOfWarmupWrites.toNat

/-- How often the loop of `WriterNode.run` is executed, if it ends. Without a positive number of
writes per interval it does not end, and nothing is written. -/
def WriterNode.intervals (numberOfWrites writesPerInterval : ℤ) : ℕ :=
  if 0 < writesPerInterval then
    ((numberOfWrites + writesPerInterval - 1) / writesPerInterval).toNat
  else 0

/-- `WriterNode.run`; `writesPerInterval` is a rounded product of floating point numbers. -/
def WriterNode.run (map : String) (draw : ℕ → κ)
    (numberOfWarmupWrites numberOfWrites writesPerInterval : ℤ) : List (NodeOp κ) :=
  writeEntries .run map draw numberOfWarmupWrites.toNat
    (intervals numberOfWrites writesPerInterval * writesPerInterval.toNat)

/-- `ReaderNode.setup`. -/
def ReaderNode.setup (map : String) (ipSet : List κ) (numberOfWarmupReads : ℤ) :
    List (NodeOp κ) :=
  readEntries map 0 ipSet.length ++ readEntries map ipSet.length numberOfWarmupReads.toNat

/-- `ReaderNode.run`. -/
def ReaderNode.run (map : String) (ipSet : List κ) (numberOfWarmupReads numberOfReads : ℤ) :
    List (NodeOp κ) :=
  readEntries map (ipSet.length + numberOfWarmupReads.toNat) numberOfReads.toNat

/-! ### Nodes for several maps -/

/-- `MultiMapWriterNode.timestampedSetup`. -/
def MultiMapWriterNode.timestampedSetup (maps : List String) (ipSet : List κ)
    (draw : String → ℕ → κ) (warmupWrites : ℤ) : List (NodeOp κ) :=
  maps.flatMap fun currentMap =>
    -- load full map
    ipSet.map (.putOpinion .setup currentMap) ++
      -- do random warmup writes
      (List.range warmupWrites.toNat).map fun j => .putOpinion .setup currentMap (draw currentMap j)

/-- `MultiMapWriterNode.timestampedRun`. -/
def MultiMapWriterNode.timestampedRun (maps : List String) (draw : String → ℕ → κ)
    (warmupWrites benchmarkWrites : ℤ) : List (NodeOp κ) :=
  (List.range benchmarkWrites.toNat).flatMap fun written =>
    maps.map fun map => .putOpinion .run map (draw map (warmupWrites.toNat + written))

/-- `totalWarmup` of `MultiMapReaderNode`. -/
def totalWarmup (warmupWrites tableSize : ℤ) : ℤ := warmupWrites + tableSize

/-- `MultiMapReaderNode.timestampedSetup`: the latch opens when the observers of all maps have seen
`totalWarmup` events. -/
def MultiMapReaderNode.timestampedSetup (maps : List String) (warmupWrites tableSize : ℤ) :
    List (NodeOp κ) :=
  maps.map fun map => .await map (totalWarmup warmupWrites tableSize).toNat

/-- `MultiMapReaderNode.timestampedRun`: likewise for `totalExpected` events. -/
def MultiMapReaderNode.timestampedRun (maps : List String)
    (warmupWrites tableSize benchmarkWrites : ℤ) : List (NodeOp κ) :=
  maps.map fun map => .await map (totalWarmup warmupWrites tableSize + benchmarkWrites).toNat

/-! ## Counting -/

section Counting

variable {t map : String}

/-- The operation is a call of `putOpinion` for the map `t`. -/
def NodeOp.putsTo (t : String) : NodeOp κ → Bool
  | .putOpinion _ map _ => map = t
  | .await _ _ => false

/-- The calls of `putOpinion` for a map. -/
def puts (t : String) (ops : List (NodeOp κ)) : ℕ := ops.countP (NodeOp.putsTo t)

/-- The number of events of a map that an operation waits for. -/
def NodeOp.awaits (t : String) : NodeOp κ → ℕ
  | .putOpinion _ _ _ => 0
  | .await map events => if map = t then events else 0

/-- The number of events of a map that a node waits for in all. -/
def awaited (t : String) (ops : List (NodeOp κ)) : ℕ :=
  (ops.map (NodeOp.awaits t)).foldr max 0

@[simp]
theorem puts_nil : puts t ([] : List (NodeOp κ)) = 0 := rfl

/-- The puts of two parts add up. -/
@[simp]
theorem puts_append (ops ops' : List (NodeOp κ)) :
    puts t (ops ++ ops') = puts t ops + puts t ops' :=
  List.countP_append

/-- Writes to one map. -/
theorem puts_map {ι : Type} (callback : Callback) (ip : ι → κ) (l : List ι) :
    puts t (l.map fun i => .putOpinion callback map (ip i)) = if map = t then l.length else 0 := by
  rw [puts, List.countP_map]
  split
  · next heq => exact List.countP_eq_length.mpr fun i _ => by simp [NodeOp.putsTo, heq]
  · next hne => exact List.countP_eq_zero.mpr fun i _ => by simp [NodeOp.putsTo, hne]

/-- Equally many writes to each of several maps. -/
theorem puts_flatMap {f : String → List (NodeOp κ)} {k : ℕ}
    (hf : ∀ map, puts t (f map) = if map = t then k else 0) (maps : List String) :
    puts t (maps.flatMap f) = maps.count t * k := by
  induction maps with
  | nil => simp
  | cons map maps ih =>
    rw [List.flatMap_cons, puts_append, hf, ih, List.count_cons]
    by_cases hmap : map = t
    · simp only [hmap, beq_self_eq_true, if_true, Nat.add_mul, Nat.one_mul]
      exact Nat.add_comm _ _
    · simp [hmap]

@[simp]
theorem awaited_nil : awaited t ([] : List (NodeOp κ)) = 0 := rfl

/-- Of two waits the longer one counts. -/
@[simp]
theorem awaited_append (ops ops' : List (NodeOp κ)) :
    awaited t (ops ++ ops') = max (awaited t ops) (awaited t ops') := by
  induction ops with
  | nil => simp [awaited]
  | cons op ops ih =>
    unfold awaited at ih ⊢
    rw [List.cons_append, List.map_cons, List.map_cons, List.foldr_cons, List.foldr_cons, ih,
      Nat.max_assoc]

/-- Reading entries waits for the last of them. -/
theorem awaited_readEntries (readOffset count : ℕ) :
    awaited t (readEntries map readOffset count : List (NodeOp κ)) =
      if map = t ∧ count ≠ 0 then readOffset + count else 0 := by
  induction count with
  | zero => simp [readEntries]
  | succ count ih =>
    have hsplit : (readEntries map readOffset (count + 1) : List (NodeOp κ)) =
        readEntries map readOffset count ++ [.await map (readOffset + count + 1)] := by
      rw [readEntries, List.range_succ, List.map_append]
      rfl
    rw [hsplit, awaited_append, ih]
    by_cases hmap : map = t
    · have hlast : awaited t [(NodeOp.await map (readOffset + count + 1) : NodeOp κ)] =
          readOffset + count + 1 := by simp [awaited, NodeOp.awaits, hmap]
      have hnew : map = t ∧ count + 1 ≠ 0 := ⟨hmap, Nat.succ_ne_zero count⟩
      have hold : (if map = t ∧ count ≠ 0 then readOffset + count else 0) ≤ readOffset + count := by
        split <;> omega
      rw [hlast, if_pos hnew]
      exact Nat.max_eq_right (by omega)
    · simp [awaited, NodeOp.awaits, hmap]

/-- Waiting for equally many events of several maps. -/
theorem awaited_flatMap {f : String → List (NodeOp κ)} {k : ℕ}
    (hf : ∀ map, awaited t (f map) = if map = t then k else 0) (maps : List String) :
    awaited t (maps.flatMap f) = if t ∈ maps then k else 0 := by
  induction maps with
  | nil => simp
  | cons map maps ih =>
    rw [List.flatMap_cons, awaited_append, hf, ih]
    by_cases hmap : map = t
    · by_cases ht : t ∈ maps
      · simp [hmap, ht]
      · simp [hmap, ht]
    · simp [hmap, Ne.symm hmap]

end Counting

/-! ## The warmup -/

section Warmup

variable {t : String} {ipSet : List κ}

/-- The number of warmup writes, and of warmup reads, of a map. -/
def warmups (ipSet : List κ) (warmupWrites : ℤ) : ℕ := ipSet.length + warmupWrites.toNat

/-- The writer writes its warmup into its own map only. -/
theorem WriterNode.puts_setup (map : String) (draw : ℕ → κ) (numberOfWarmupWrites : ℤ) :
    puts t (setup map ipSet draw numberOfWarmupWrites) =
      if map = t then warmups ipSet numberOfWarmupWrites else 0 := by
  rw [setup, puts_append, writeWarmup, puts_map .setup (fun ip => ip), writeEntries, puts_map,
    List.length_range, warmups]
  split <;> rfl

/-- The writer writes its warmup into each of its maps. -/
theorem MultiMapWriterNode.puts_timestampedSetup (maps : List String) (draw : String → ℕ → κ)
    (warmupWrites : ℤ) :
    puts t (timestampedSetup maps ipSet draw warmupWrites) =
      maps.count t * warmups ipSet warmupWrites := by
  refine puts_flatMap (fun map => ?_) maps
  rw [puts_append, puts_map .setup (fun ip => ip), puts_map, List.length_range, warmups]
  split <;> rfl

/-- The reader waits for its own map's warmup. -/
theorem ReaderNode.awaited_setup (map : String) (numberOfWarmupReads : ℤ) :
    awaited t (setup map ipSet numberOfWarmupReads) =
      if map = t then warmups ipSet numberOfWarmupReads else 0 := by
  rw [setup, awaited_append, awaited_readEntries, awaited_readEntries, warmups]
  by_cases hmap : map = t
  · simp only [hmap, true_and, if_true]
    split <;> split <;> omega
  · simp [hmap]

/-- The reader waits for each map's warmup. -/
theorem MultiMapReaderNode.awaited_timestampedSetup (maps : List String)
    (warmupWrites tableSize : ℤ) :
    awaited t (timestampedSetup maps warmupWrites tableSize : List (NodeOp κ)) =
      if t ∈ maps then (totalWarmup warmupWrites tableSize).toNat else 0 := by
  rw [timestampedSetup, List.map_eq_flatMap]
  refine awaited_flatMap (fun map => ?_) maps
  simp [awaited, NodeOp.awaits]

end Warmup

end LatencyNodes
