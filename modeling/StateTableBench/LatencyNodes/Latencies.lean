import StateTableBench.LatencyNodes.Nodes
import StateTableBench.LatencyNodes.Observer
import StateTableBench.Collections.Interleaving
import StateTableBench.MergedMap.Subscribers
import StateTableBench.ArpMergedMap.Wire

/-!
# The latencies that a reader records

A `MultiMapReaderNode` subscribes to several maps, each of which has one writer. It knows the writes
only by counting: the events of a map are the `tableSize` writes that load it, then the random
warmup writes, then the benchmark writes.

`Setting.measures_iff`: whatever the interleaving of the maps, the latches open at the right
events and each cell of `latencies` gets the latency of its benchmark write, exactly if there is no
map at all or the number of events of a map is the value of an `int`.
-/

open ArpMergedMap MergedMap

namespace LatencyNodes

variable {κ MAC : Type}

section Writes

variable {t : String}

/-- An operation as a write to the map `t`. -/
def NodeOp.putTo (t : String) : NodeOp κ → Option (Callback × κ)
  | .putOpinion callback map ip => if map = t then some (callback, ip) else none
  | .await _ _ => none

/-- The writes to one map, in order. -/
def putsOf (t : String) (ops : List (NodeOp κ)) : List (Callback × κ) :=
  ops.filterMap (NodeOp.putTo t)

/-- The puts of two parts are one after the other. -/
theorem putsOf_append (ops ops' : List (NodeOp κ)) :
    putsOf t (ops ++ ops') = putsOf t ops ++ putsOf t ops' :=
  List.filterMap_append

theorem putsOf_map {ι : Type} (callback : Callback) (map : String) (ip : ι → κ) (l : List ι) :
    putsOf t (l.map fun i => .putOpinion callback map (ip i)) =
      if map = t then l.map fun i => (callback, ip i) else [] := by
  rw [putsOf, List.filterMap_map]
  split_ifs with hmap
  · simp [NodeOp.putTo, hmap]
  · simp [NodeOp.putTo, hmap]

/-- Of the writes to several maps, those to `t` are repeated as often as `t` occurs. -/
theorem putsOf_flatMap {f : String → List (NodeOp κ)}
    (hf : ∀ map, map ≠ t → putsOf t (f map) = []) (maps : List String) :
    putsOf t (maps.flatMap f) = (List.replicate (maps.count t) (putsOf t (f t))).flatten := by
  induction maps with
  | nil => rfl
  | cons map maps ih =>
    rw [List.flatMap_cons, putsOf_append, ih, List.count_cons]
    by_cases hmap : map = t
    · simp [hmap, List.replicate_succ]
    · simp [hmap, hf map hmap]

/-- The setup writes to a map that occurs once among the maps of the writer. -/
theorem putsOf_timestampedSetup {maps : List String} (ht : maps.count t = 1) (ipSet : List κ)
    (draw : String → ℕ → κ) (warmupWrites : ℤ) :
    putsOf t (MultiMapWriterNode.timestampedSetup maps ipSet draw warmupWrites) =
      (ipSet ++ (List.range warmupWrites.toNat).map (draw t)).map fun ip => (.setup, ip) := by
  rw [MultiMapWriterNode.timestampedSetup, putsOf_flatMap, ht]
  · simp only [putsOf_append, putsOf_map .setup t (fun ip => ip), putsOf_map .setup t (draw t)]
    simp [Function.comp_def]
  · intro map hmap
    simp only [putsOf_append, putsOf_map .setup map (fun ip => ip),
      putsOf_map .setup map (draw map)]
    simp [hmap]

/-- The benchmark writes to it: one in each round. -/
theorem putsOf_timestampedRun {maps : List String} (ht : maps.count t = 1)
    (draw : String → ℕ → κ) (warmupWrites benchmarkWrites : ℤ) :
    putsOf t (MultiMapWriterNode.timestampedRun maps draw warmupWrites benchmarkWrites) =
      (List.range benchmarkWrites.toNat).map fun written =>
        (.run, draw t (warmupWrites.toNat + written)) := by
  -- a round writes once to each map of the writer
  have hround : ∀ written, putsOf t (maps.map fun map =>
      (NodeOp.putOpinion .run map (draw map (warmupWrites.toNat + written)) : NodeOp κ)) =
        [(.run, draw t (warmupWrites.toNat + written))] := by
    intro written
    rw [List.map_eq_flatMap, putsOf_flatMap, ht]
    · simp [putsOf, NodeOp.putTo]
    · intro map hmap
      simp [putsOf, NodeOp.putTo, hmap]
  rw [MultiMapWriterNode.timestampedRun, putsOf, List.filterMap_flatMap, List.map_eq_flatMap]
  exact congrArg (List.flatMap · _) (funext hround)

end Writes

/-- If a list has first only elements that fail a test and then only elements that pass it, then
filtering drops the first part. -/
theorem filter_eq_drop {α : Type} {f : α → Bool} {a b : ℕ} {l : List α}
    (h : l.map f = List.replicate a false ++ List.replicate b true) : l.filter f = l.drop a := by
  induction a generalizing l with
  | zero =>
    rw [List.drop_zero, List.filter_eq_self]
    intro x hx
    have hmem := List.mem_map_of_mem (f := f) hx
    rw [h, List.replicate_zero, List.nil_append] at hmem
    exact List.eq_of_mem_replicate hmem
  | succ a ih =>
    -- the first element fails the test and is dropped
    cases l with
    | nil => rfl
    | cons x l =>
      rw [List.map_cons, List.replicate_succ, List.cons_append] at h
      obtain ⟨hx, hl⟩ := List.cons.inj h
      rw [List.filter_cons_of_neg (by simp [hx]), List.drop_succ_cons, ih hl]

/-! ## Writers and their streams -/

/-- A write to a map, with the `MAC` and the time that `createEntry` gets. -/
structure Put (κ MAC : Type) where
  callback : Callback
  ip : κ
  mac : MAC
  sentAt : Int64

/-- The entry that is written. -/
def Put.entry (put : Put κ MAC) : ArpCacheEntry MAC := createEntry put.mac put.sentAt

/-- The maps of a reader and their writers. -/
structure Setting (n : ℕ) (κ MAC : Type) where
  tableSize : Int32
  warmupWrites : Int32
  benchmarkWrites : Int32
  tableSize_pos : 1 ≤ tableSize
  warmupWrites_nonneg : 0 ≤ warmupWrites
  benchmarkWrites_nonneg : 0 ≤ benchmarkWrites
  /-- The maps of the reader. -/
  map : Fin n → String
  /-- The owner under which a map is written. -/
  owner : Fin n → String
  /-- The maps of the writer of a map. -/
  writerMaps : Fin n → List String
  written_once : ∀ i, (writerMaps i).count (map i) = 1
  /-- The addresses of the table. -/
  address : ℕ → κ
  /-- The addresses that the writer of a map picks at random. -/
  draw : Fin n → String → ℕ → κ
  /-- The random `MAC` of each write to a map. -/
  mac : Fin n → ℕ → MAC
  /-- The time of each write to a map. -/
  sentAt : Fin n → ℕ → Int64

namespace Setting

variable {n : ℕ} (S : Setting n κ MAC)

/-- The number of events of a map before the benchmark. -/
def warmup : ℕ := S.tableSize.toInt.toNat + S.warmupWrites.toInt.toNat

/-- The number of benchmark writes to a map. -/
def benchmark : ℕ := S.benchmarkWrites.toInt.toNat

/-- The writes of the writer of a map to this map. -/
def writes (i : Fin n) : List (Callback × κ) :=
  let ipSet := distributeRandomIPSet S.tableSize.toInt S.address
  putsOf (S.map i)
    (MultiMapWriterNode.timestampedSetup (S.writerMaps i) ipSet (S.draw i) S.warmupWrites.toInt ++
      MultiMapWriterNode.timestampedRun (S.writerMaps i) (S.draw i) S.warmupWrites.toInt
        S.benchmarkWrites.toInt)

/-- These writes with their contents. -/
def stream (i : Fin n) : List (Put κ MAC) :=
  (S.writes i).mapIdx fun k write => ⟨write.1, write.2, S.mac i k, S.sentAt i k⟩

theorem toInt_nonneg :
    0 ≤ S.tableSize.toInt ∧ 0 ≤ S.warmupWrites.toInt ∧ 0 ≤ S.benchmarkWrites.toInt := by
  have hpos : 1 ≤ S.tableSize.toInt := Int32.le_iff_toInt_le.mp S.tableSize_pos
  exact ⟨by omega, Int32.le_iff_toInt_le.mp S.warmupWrites_nonneg,
    Int32.le_iff_toInt_le.mp S.benchmarkWrites_nonneg⟩

theorem warmup_pos : 0 < S.warmup := by
  have hpos : 1 ≤ S.tableSize.toInt := Int32.le_iff_toInt_le.mp S.tableSize_pos
  unfold warmup
  omega

/-- First the warmup, then the benchmark. -/
theorem map_callback_stream (i : Fin n) :
    (S.stream i).map Put.callback =
      List.replicate S.warmup .setup ++ List.replicate S.benchmark .run := by
  -- the contents of the writes do not matter
  have hwrites : (S.stream i).map Put.callback = (S.writes i).map Prod.fst := by
    apply List.ext_getElem?
    intro k
    simp [stream, Function.comp_def]
  rw [hwrites, writes, putsOf_append, putsOf_timestampedSetup (S.written_once i),
    putsOf_timestampedRun (S.written_once i), List.map_append, List.map_map, List.map_map]
  simp [Function.comp_def, warmup, benchmark, distributeRandomIPSet]

/-- Each writer writes the warmup and the benchmark. -/
theorem length_stream (i : Fin n) : (S.stream i).length = S.warmup + S.benchmark := by
  have hlength := congrArg List.length (S.map_callback_stream i)
  simpa using hlength

end Setting

/-- A write that the bus hands to the reader, and the time at which the observer is called. -/
structure Delivery (κ MAC : Type) where
  put : Put κ MAC
  receivedAt : Int64

/-- The receive time minus the send time. -/
def Delivery.latency (d : Delivery κ MAC) : Int64 := d.receivedAt - d.put.sentAt

namespace Setting

variable {n : ℕ} (S : Setting n κ MAC)

/-- The bus delivers the writes to each map once and in order. Deliveries of different maps may be
interleaved in any way. -/
def Delivers (events : List (Fin n × Delivery κ MAC)) : Prop :=
  ∀ i, (Interleaving.of i events).map Delivery.put <+: S.stream i

/-- The deliveries of the benchmark writes to a map. -/
def benchmarkDeliveries (i : Fin n) (events : List (Fin n × Delivery κ MAC)) :
    List (Delivery κ MAC) :=
  (Interleaving.of i events).filter fun d => d.put.callback = .run

section Deliveries

variable {S} {events : List (Fin n × Delivery κ MAC)}

/-- What was delivered before was delivered rightly. -/
theorem Delivers.of_concat {event : Fin n × Delivery κ MAC}
    (h : S.Delivers (events ++ [event])) : S.Delivers events :=
  fun i => ((Interleaving.of_isPrefix (List.prefix_append events [event]) i).map _).trans (h i)

/-- When everything is delivered, the benchmark writes are what comes after the warmup. -/
theorem benchmarkDeliveries_eq_drop {i : Fin n}
    (hall : (Interleaving.of i events).map Delivery.put = S.stream i) :
    benchmarkDeliveries i events = (Interleaving.of i events).drop S.warmup := by
  apply filter_eq_drop (b := S.benchmark)
  -- the callbacks of the deliveries are those of the stream
  have hcallbacks := S.map_callback_stream i
  rw [← hall, List.map_map] at hcallbacks
  have hrun := congrArg (List.map fun callback => decide (callback = Callback.run)) hcallbacks
  simpa [Function.comp_def] using hrun

/-- The observers of different maps count down a latch one after the other. -/
theorem countDown_behind (k : ℕ) (events : List (Fin n × Delivery κ MAC)) (i : Fin n)
    (d : Delivery κ MAC) :
    countDown (decide ((Interleaving.of i events).length + 1 = k)) (Interleaving.behind k events) =
      Interleaving.behind k (events ++ [(i, d)]) := by
  rw [Interleaving.behind_concat, countDown]
  simp only [decide_eq_true_eq]

variable (S)

theorem stream_ne_nil (i : Fin n) : S.stream i ≠ [] := by
  apply List.ne_nil_of_length_pos
  rw [S.length_stream]
  exact Nat.add_pos_left S.warmup_pos _

/-- The delivery of the first write to a map. -/
def firstDelivery (i : Fin n) : Delivery κ MAC := ⟨(S.stream i).head (S.stream_ne_nil i), 0⟩

/-- Each map delivers its first write. -/
def firstDeliveries : List (Fin n × Delivery κ MAC) :=
  (List.finRange n).map fun i => (i, S.firstDelivery i)

theorem of_firstDeliveries (i : Fin n) :
    Interleaving.of i S.firstDeliveries = [S.firstDelivery i] :=
  Interleaving.of_map_of_nodup (List.nodup_finRange n) S.firstDelivery (List.mem_finRange i)

/-- The first event of every writer may come first. -/
theorem delivers_firstDeliveries : S.Delivers S.firstDeliveries := by
  intro i
  rw [of_firstDeliveries, List.map_singleton]
  exact ⟨(S.stream i).tail, List.cons_head_tail (S.stream_ne_nil i)⟩

end Deliveries

end Setting

/-! ## The reader -/

/-- A reader with its maps. The row `latencies[i]` is the one of the `i`-th observer. -/
structure MultiMapReaderNode (H T : Type → Type → Type) (n : ℕ) (κ MAC : Type) where
  maps : Fin n → MergedMap H T κ (ArpCacheEntry MAC)
  observers : Fin n → ArpMergedMapObserver
  latches : Latches

section Reader

variable {H T : Type → Type → Type} [FiniteMap H] [FiniteMap T] [DecidableEq κ] [DecidableEq MAC]
variable {n : ℕ}

/-- The constructor, which subscribes the observers to the maps; `none` if it throws. -/
def MultiMapReaderNode.init (benchmarkWrites warmupWrites tableSize : Int32) :
    Option (MultiMapReaderNode H T n κ MAC) := do
  let latencies ← (Mpi.newArray benchmarkWrites (0 : Int64)).toOption
  let totalWarmup := warmupWrites + tableSize
  let totalExpected := totalWarmup + benchmarkWrites
  return {
    maps := fun _ => .init
    observers := fun _ => .init latencies totalWarmup totalExpected
    latches := ⟨n, n⟩ }

/-- The `i`-th map handles an opinion and calls its observer with what it emits. -/
def MultiMapReaderNode.onNewOpinion (i : Fin n) (op : Opinion κ (ArpCacheEntry MAC)) (time : Int64)
    (node : MultiMapReaderNode H T n κ MAC) : Option (MultiMapReaderNode H T n κ MAC) := do
  let events := emitted (onNewOpinionWrites arpOrdering (node.maps i) op)
  let (observer, latches) ← events.foldlM
    (fun s event => ArpMergedMapObserver.onNext event.2 time s) (node.observers i, node.latches)
  return {
    maps := Function.update node.maps i (MergedMap.onNewOpinion arpOrdering (node.maps i) op)
    observers := Function.update node.observers i observer
    latches := latches }

end Reader

namespace Setting

variable {n : ℕ} (S : Setting n κ MAC)
variable (H T : Type → Type → Type) [FiniteMap H] [FiniteMap T]

section Totals

variable {S} in
/-- The totals of the reader, if they are values of an `int`. -/
theorem toInt_totals (hfits : S.warmup + S.benchmark < 2 ^ 31) :
    (S.warmupWrites + S.tableSize).toInt = S.warmup ∧
      (S.warmupWrites + S.tableSize + S.benchmarkWrites).toInt =
        (S.warmup + S.benchmark : ℕ) := by
  obtain ⟨htable, hwarmup, hbench⟩ := S.toInt_nonneg
  have hsum : (S.warmupWrites + S.tableSize).toInt = S.warmup := by
    rw [warmup, Nat.add_comm]
    exact Int32.toInt_add_natCast (Int.toNat_of_nonneg hwarmup).symm
      (Int.toNat_of_nonneg htable).symm (by unfold warmup at hfits; omega)
  exact ⟨hsum, Int32.toInt_add_natCast hsum (Int.toNat_of_nonneg hbench).symm hfits⟩

/-- One of the totals is negative if they are not. -/
theorem totals_neg (hlarge : 2 ^ 31 ≤ S.warmup + S.benchmark) :
    2 ^ 31 ≤ S.warmup ∧ (S.warmupWrites + S.tableSize).toInt < 0 ∨
      (S.warmupWrites + S.tableSize + S.benchmarkWrites).toInt < 0 := by
  obtain ⟨htable, hwarmup, hbench⟩ := S.toInt_nonneg
  have htable_lt := S.tableSize.toInt_lt
  have hwarmup_lt := S.warmupWrites.toInt_lt
  have hbench_lt := S.benchmarkWrites.toInt_lt
  have hsum : S.warmupWrites.toInt + S.tableSize.toInt = S.warmup := by
    rw [warmup]
    omega
  -- either the first sum overflows already, or only the second one does
  by_cases hfits : S.warmup < 2 ^ 31
  · right
    have hfitsInt : FitsInt (S.warmupWrites.toInt + S.tableSize.toInt) := ⟨by omega, by omega⟩
    apply Int32.toInt_add_neg
    · rw [Int32.toInt_add_of_fitsInt hfitsInt, hsum]
      unfold benchmark at hlarge
      omega
    · rw [Int32.toInt_add_of_fitsInt hfitsInt, hsum]
      omega
  · exact .inl ⟨by omega, Int32.toInt_add_neg (by omega) (by omega)⟩

end Totals

/-- The reader as its constructor leaves it. -/
theorem init_eq :
    MultiMapReaderNode.init S.benchmarkWrites S.warmupWrites S.tableSize =
      some ({
        maps := fun _ => .init
        observers := fun _ => .init (List.replicate S.benchmark 0) (S.warmupWrites + S.tableSize)
          (S.warmupWrites + S.tableSize + S.benchmarkWrites)
        latches := ⟨n, n⟩ } : MultiMapReaderNode H T n κ MAC) := by
  obtain ⟨-, -, hbench⟩ := S.toInt_nonneg
  rw [MultiMapReaderNode.init, Mpi.newArray_eq_ok (Int.toNat_of_nonneg hbench).symm]
  rfl

variable [DecidableEq κ] [DecidableEq MAC]

/-- The bus delivers a write. -/
def deliver (node : MultiMapReaderNode H T n κ MAC) (event : Fin n × Delivery κ MAC) :
    Option (MultiMapReaderNode H T n κ MAC) :=
  let (i, d) := event
  node.onNewOpinion i ⟨d.put.ip, some d.put.entry, S.owner i⟩ d.receivedAt

/-- The reader after a sequence of deliveries, if no call has thrown. -/
def run (events : List (Fin n × Delivery κ MAC)) : Option (MultiMapReaderNode H T n κ MAC) := do
  let node ← MultiMapReaderNode.init S.benchmarkWrites S.warmupWrites S.tableSize
  events.foldlM (S.deliver H T) node

/-- The latches and the rows are as they should be after a sequence of deliveries. -/
structure Measured (events : List (Fin n × Delivery κ MAC))
    (node : MultiMapReaderNode H T n κ MAC) : Prop where
  /-- The warmup latch opens when every map has delivered its warmup. -/
  warmupLatch : node.latches.warmupLatch = 0 ↔
    ∀ i, S.warmup ≤ (Interleaving.of i events).length
  /-- The other one opens when every map has delivered everything. -/
  finishedLatch : node.latches.finishedLatch = 0 ↔
    ∀ i, S.warmup + S.benchmark ≤ (Interleaving.of i events).length
  /-- A map that has delivered everything has delivered its benchmark writes, one after the other,
  and the row has the latencies of these deliveries. -/
  latencies : ∀ i, S.warmup + S.benchmark ≤ (Interleaving.of i events).length →
    (benchmarkDeliveries i events).map Delivery.put =
        (S.stream i).filter (fun put => put.callback = .run) ∧
      (node.observers i).latencies = (benchmarkDeliveries i events).map Delivery.latency ∧
      (node.observers i).latencies.length = S.benchmark

/-- Whatever the interleaving, no call throws and the reader measures what it should. -/
def Measures : Prop :=
  ∀ events, S.Delivers events → ∃ node, S.run H T events = some node ∧ S.Measured H T events node

/-! ## The totals fit -/

variable {S H T}
variable {events : List (Fin n × Delivery κ MAC)} {node : MultiMapReaderNode H T n κ MAC}

/-- The invariant of a run. -/
structure Inv (S : Setting n κ MAC) (events : List (Fin n × Delivery κ MAC))
    (node : MultiMapReaderNode H T n κ MAC) : Prop where
  singleOwner : ∀ i, SingleOwner (S.owner i) (node.maps i)
  observes : ∀ i, Observes S.warmup S.benchmark ((Interleaving.of i events).map Delivery.latency)
    (node.observers i)
  warmupLatch : node.latches.warmupLatch = Interleaving.behind S.warmup events
  finishedLatch : node.latches.finishedLatch =
    Interleaving.behind (S.warmup + S.benchmark) events

/-- A delivery is one call of `onNext`. -/
theorem deliver_eq {i : Fin n} (hsingle : SingleOwner (S.owner i) (node.maps i))
    (d : Delivery κ MAC) :
    S.deliver H T node (i, d) =
      (ArpMergedMapObserver.onNext (some d.put.entry) d.receivedAt
        (node.observers i, node.latches)).map fun s =>
          { maps := Function.update node.maps i (MergedMap.onNewOpinion arpOrdering (node.maps i)
              ⟨d.put.ip, some d.put.entry, S.owner i⟩)
            observers := Function.update node.observers i s.1
            latches := s.2 } := by
  rw [deliver, MultiMapReaderNode.onNewOpinion, hsingle.emitted]
  simp only [List.foldlM_cons, List.foldlM_nil]
  cases ArpMergedMapObserver.onNext (some d.put.entry) d.receivedAt
    (node.observers i, node.latches) <;> rfl

/-- The maps keep their owners. -/
theorem singleOwner_update (hsingle : ∀ i, SingleOwner (S.owner i) (node.maps i)) (i : Fin n)
    (ip : κ) (entry : ArpCacheEntry MAC) :
    ∀ j, SingleOwner (S.owner j) (Function.update node.maps i
      (MergedMap.onNewOpinion arpOrdering (node.maps i) ⟨ip, some entry, S.owner i⟩) j) :=
  (Function.forall_update_iff node.maps fun j map => SingleOwner (S.owner j) map).mpr
    ⟨(hsingle i).onNewOpinion arpOrdering _ rfl, fun j _ => hsingle j⟩

/-- A further event is recorded at its place. -/
theorem Inv.deliver (h : Inv S events node) (hfits : S.warmup + S.benchmark < 2 ^ 31) {i : Fin n}
    {d : Delivery κ MAC} (hlt : (Interleaving.of i events).length < S.warmup + S.benchmark) :
    ∃ node', S.deliver H T node (i, d) = some node' ∧ Inv S (events ++ [(i, d)]) node' := by
  obtain ⟨observer', hnext, hobserves⟩ := (h.observes i).onNext (by simpa using hlt) hfits
    d.put.entry d.receivedAt node.latches
  rw [List.length_map, h.warmupLatch, h.finishedLatch, countDown_behind S.warmup events i d,
    countDown_behind (S.warmup + S.benchmark) events i d] at hnext
  -- the other maps and their observers stay as they are
  rw [deliver_eq (h.singleOwner i), hnext]
  refine ⟨_, rfl, singleOwner_update h.singleOwner i d.put.ip d.put.entry, ?_, rfl, rfl⟩
  refine (Function.forall_update_iff node.observers fun j observer => Observes S.warmup S.benchmark
    ((Interleaving.of j (events ++ [(i, d)])).map Delivery.latency) observer).mpr ⟨?_, ?_⟩
  · rw [Interleaving.of_concat_self, List.map_append]
    exact hobserves
  · intro j hji
    rw [Interleaving.of_concat_of_ne hji]
    exact h.observes j

omit [DecidableEq MAC] in
/-- The reader is constructed, with nothing recorded. -/
theorem inv_init (hfits : S.warmup + S.benchmark < 2 ^ 31) :
    ∃ node : MultiMapReaderNode H T n κ MAC,
      MultiMapReaderNode.init S.benchmarkWrites S.warmupWrites S.tableSize = some node ∧
        Inv S [] node := by
  obtain ⟨hwarmup, hexpected⟩ := toInt_totals hfits
  rw [S.init_eq H T]
  refine ⟨_, rfl, fun i => singleOwner_init _, fun i => ?_, ?_, ?_⟩
  · exact observes_init S.warmup_pos hwarmup hexpected
  · rw [Interleaving.behind_nil S.warmup_pos, Fintype.card_fin]
  · rw [Interleaving.behind_nil (Nat.add_pos_left S.warmup_pos _), Fintype.card_fin]

/-- The run lemma: no call throws, and the invariant holds after every sequence of deliveries. -/
theorem exists_run_inv (hfits : S.warmup + S.benchmark < 2 ^ 31) (hdel : S.Delivers events) :
    ∃ node, S.run H T events = some node ∧ Inv S events node := by
  obtain ⟨node₀, hinit, hinv₀⟩ := inv_init (H := H) (T := T) hfits
  rw [run, hinit, Option.bind_eq_bind, Option.bind_some]
  induction events using List.reverseRecOn with
  | nil => exact ⟨node₀, rfl, hinv₀⟩
  | append_singleton events event ih =>
    obtain ⟨node, hrun, hinv⟩ := ih hdel.of_concat
    obtain ⟨i, d⟩ := event
    -- the stream has room for this delivery, so the map has not delivered everything before
    have hlt : (Interleaving.of i events).length < S.warmup + S.benchmark := by
      have hle := (hdel i).length_le
      rw [Interleaving.of_concat_self, List.length_map, List.length_append, List.length_singleton,
        S.length_stream] at hle
      exact hle
    obtain ⟨node', hdeliver, hinv'⟩ := hinv.deliver hfits hlt
    refine ⟨node', ?_, hinv'⟩
    rw [List.foldlM_append, hrun]
    simpa using hdeliver

omit [FiniteMap T] [DecidableEq MAC] in
/-- What the invariant says about the latches and the rows. -/
theorem Inv.measured (h : Inv S events node) (hdel : S.Delivers events) :
    S.Measured H T events node where
  warmupLatch := by rw [h.warmupLatch, Interleaving.behind_eq_zero_iff]
  finishedLatch := by rw [h.finishedLatch, Interleaving.behind_eq_zero_iff]
  latencies := by
    intro i hlen
    -- what is delivered is an initial part of the stream, and it is long enough
    have hall : (Interleaving.of i events).map Delivery.put = S.stream i := by
      apply (hdel i).eq_of_length_le
      rwa [S.length_stream, List.length_map]
    have hlength : (Interleaving.of i events).length = S.warmup + S.benchmark := by
      rw [← S.length_stream i, ← hall, List.length_map]
    have hrow : (node.observers i).latencies =
        (benchmarkDeliveries i events).map Delivery.latency := by
      -- no cell of the row is left
      have hfull : S.benchmark - (S.warmup + S.benchmark - S.warmup) = 0 := by omega
      rw [(h.observes i).latencies, List.length_map, hlength, hfull, List.replicate_zero,
        List.append_nil, benchmarkDeliveries_eq_drop hall, List.map_drop]
    refine ⟨?_, hrow, ?_⟩
    · rw [← hall, List.filter_map]
      rfl
    · rw [hrow, benchmarkDeliveries_eq_drop hall, List.length_map, List.length_drop, hlength,
        Nat.add_sub_cancel_left]

/-! ## When the totals overflow -/

/-- If a total is at most one, the first event of each map counts down the latch. -/
theorem latches_of_foldlM {totalWarmup totalExpected : Int32} {row : List Int64}
    {deliveryOf : Fin n → Delivery κ MAC} {l : List (Fin n)} (hnd : l.Nodup)
    {node node' : MultiMapReaderNode H T n κ MAC}
    (hsingle : ∀ i, SingleOwner (S.owner i) (node.maps i))
    (hfresh : ∀ i ∈ l, node.observers i = .init row totalWarmup totalExpected)
    (hrun : (l.map fun i => (i, deliveryOf i)).foldlM (S.deliver H T) node = some node') :
    (totalWarmup ≤ 1 → node'.latches.warmupLatch = node.latches.warmupLatch - l.length) ∧
      (totalExpected ≤ 1 →
        node'.latches.finishedLatch = node.latches.finishedLatch - l.length) := by
  induction l generalizing node with
  | nil =>
    obtain rfl : node = node' := by simpa using hrun
    exact ⟨fun _ => rfl, fun _ => rfl⟩
  | cons i l ih =>
    rw [List.map_cons, List.foldlM_cons, deliver_eq (hsingle i),
      hfresh i List.mem_cons_self] at hrun
    obtain ⟨node₁, hstep, hrun⟩ := Option.bind_eq_some_iff.mp hrun
    obtain ⟨⟨observer, latches⟩, hnext, rfl⟩ := Option.map_eq_some_iff.mp hstep
    obtain ⟨hi, hnd⟩ := List.nodup_cons.mp hnd
    have hlatches := ArpMergedMapObserver.latches_onNext_init hnext
    -- the maps that are still to come have not been touched
    have hfresh' : ∀ j ∈ l, Function.update node.observers i observer j =
        .init row totalWarmup totalExpected := by
      intro j hj
      rw [Function.update_of_ne (ne_of_mem_of_not_mem hj hi)]
      exact hfresh j (List.mem_cons_of_mem i hj)
    obtain ⟨hwarmup, hexpected⟩ := ih hnd (singleOwner_update hsingle i _ _) hfresh' hrun
    refine ⟨fun hle => ?_, fun hle => ?_⟩
    · rw [hwarmup hle, hlatches, List.length_cons]
      simp only [countDown, hle, decide_true, if_true]
      omega
    · rw [hexpected hle, hlatches, List.length_cons]
      simp only [countDown, hle, decide_true, if_true]
      omega

/-- If the totals overflow, already the first event of every map breaks the measurement. -/
theorem not_measures (hn : n ≠ 0) (hlarge : 2 ^ 31 ≤ S.warmup + S.benchmark) :
    ¬S.Measures H T := by
  intro hmeasures
  obtain ⟨node, hrun, hmeasured⟩ := hmeasures S.firstDeliveries S.delivers_firstDeliveries
  rw [run, S.init_eq H T, Option.bind_eq_bind, Option.bind_some] at hrun
  obtain ⟨hwarmup, hexpected⟩ := latches_of_foldlM (List.nodup_finRange n)
    (fun i => singleOwner_init (S.owner i)) (fun i _ => rfl) hrun
  rw [List.length_finRange, Nat.sub_self] at hwarmup hexpected
  -- a latch that is open now says that a map has delivered more than it has
  let i : Fin n := ⟨0, Nat.pos_of_ne_zero hn⟩
  have hlength : (Interleaving.of i S.firstDeliveries).length = 1 := by
    rw [S.of_firstDeliveries, List.length_singleton]
  rcases S.totals_neg hlarge with ⟨hwarmup_large, hneg⟩ | hneg
  · have hopen := hmeasured.warmupLatch.mp (hwarmup (Int32.le_one_of_toInt_neg hneg)) i
    omega
  · have hopen := hmeasured.finishedLatch.mp (hexpected (Int32.le_one_of_toInt_neg hneg)) i
    omega

/-- For every number of maps, every size of the table and every number of writes: the reader
measures the latency of each benchmark write in every interleaving exactly if it has no map, or the
number of the events of a map is the value of an `int`. -/
theorem measures_iff : S.Measures H T ↔ n = 0 ∨ S.warmup + S.benchmark < 2 ^ 31 := by
  constructor
  · intro hmeasures
    by_contra hnot
    push Not at hnot
    exact not_measures hnot.1 hnot.2 hmeasures
  · rintro (rfl | hfits) events hdel
    · -- without a map there is no event, and the latches are open from the start
      obtain rfl : events = [] := List.eq_nil_iff_forall_not_mem.mpr fun event => event.1.elim0
      rw [run, S.init_eq H T]
      exact ⟨_, rfl, by simp, by simp, fun i => i.elim0⟩
    · obtain ⟨node, hrun, hinv⟩ := exists_run_inv (H := H) (T := T) hfits hdel
      exact ⟨node, hrun, hinv.measured hdel⟩

/-- One map with one address and `2 ^ 31 - 1` warmup writes. -/
def overflowing : Setting 1 ℕ ℕ where
  tableSize := 1
  warmupWrites := 2147483647
  benchmarkWrites := 1
  tableSize_pos := by decide
  warmupWrites_nonneg := by decide
  benchmarkWrites_nonneg := by decide
  map _ := "map"
  owner _ := "node"
  writerMaps _ := ["map"]
  written_once _ := by decide
  address k := k
  draw _ _ _ := 0
  mac _ k := k
  sentAt _ _ := 0

/-- `totalWarmup` is negative, and the first event indexes outside the row. -/
theorem not_measures_overflowing :
    overflowing.Delivers overflowing.firstDeliveries ∧
      overflowing.run AssocMap AssocMap overflowing.firstDeliveries = none ∧
      ¬overflowing.Measures AssocMap AssocMap := by
  have hthrows : overflowing.run AssocMap AssocMap overflowing.firstDeliveries = none := by
    -- one map, so one delivery
    have hfirst : overflowing.firstDeliveries = [(0, overflowing.firstDelivery 0)] := rfl
    rw [run, init_eq, hfirst, Option.bind_eq_bind, Option.bind_some, List.foldlM_cons,
      deliver_eq (singleOwner_init _)]
    rfl
  refine ⟨delivers_firstDeliveries _, hthrows, fun hmeasures => ?_⟩
  obtain ⟨node, hrun, -⟩ := hmeasures _ (delivers_firstDeliveries _)
  rw [hthrows] at hrun
  cases hrun

end Setting

end LatencyNodes
