import StateTableBench.MapSetBenchmark.LatencyBench
import StateTableBench.MergedMap.Size
import StateTableBench.MergedMap.Subscribers

/-!
# The latency benchmark on a merged map

`LatencyBench.run` fills a merged map, and then writes to it in `arpMergedMapBench`, for the warmup
and for the measurement. Each operation puts an opinion for a key of the map and takes event number
`mapSize + i` of a new observer for its notification, where `mapSize` is the size that the map had
when the observer subscribed. The put travels through Kafka and the subscription through the
scheduler of the map, so the thread of the benchmark, the subscription and the arrival of the
opinions interleave. Nothing is lost and nobody else writes to the topic, but its name and the owner
are always the same and all its messages are read, so those of earlier runs come first.

`always_correct`: if no opinion is on its way when the wait for the population ends, each operation
is notified for the key that it has put, and a run that comes to its end has a latency for each of
its operations. Otherwise such opinions are counted among the notifications. On a new topic, where
no wait times out, this cannot happen and no notification is missing.
-/

open FiniteMap

namespace MapSetBenchmark

namespace LatencyBench

open MergedMap

/-- Where the thread of the benchmark is. -/
inductive Pc (K : Type)
  /-- In the loop of `populateArpMergedMap`, or in the wait behind it. -/
  | populateArpMergedMap
  /-- At `arpMergedMap.size()`, in the warmup or in the measurement. -/
  | readSize (measured : Bool)
  /-- In the wait for the contents of the map. -/
  | awaitContent (measured : Bool) (mapSize : ℤ)
  /-- At the beginning of an iteration of the loop. -/
  | loop (measured : Bool) (mapSize : ℤ) (i : ℕ)
  /-- In the wait for the notification of a put. -/
  | awaitNotification (measured : Bool) (mapSize : ℤ) (i : ℕ) (ip : K)
  | finished
  /-- An exception was caught by `run`. -/
  | threw
deriving DecidableEq

/-- The benchmark and the map. -/
structure ArpRun (H T : Type → Type → Type) (K V : Type) where
  map : MergedMap H T K V
  /-- The puts that have not been handed to the map yet. -/
  inFlight : List (K × V)
  /-- The events of the current observer, once it is attached. -/
  observer : Option (List (K × Option V))
  arpTableKeys : List K
  pc : Pc K
  /-- No opinion was on its way to the map when the wait for the population ended. -/
  populated : Bool
  /-- The number of latencies of the warmup. -/
  warmup : ℕ
  /-- The number of latencies of the measurement. -/
  measured : ℕ
  /-- How often the notification was one for an incorrect key. -/
  incorrect : ℕ

/-- What the thread of the benchmark is given from outside in one step. -/
structure Answers (K V : Type) where
  /-- The address returned by `randomIP`. -/
  ip : K
  /-- The entry returned by `randomArpEntry`. -/
  entry : V
  /-- The value returned by `rnd.nextInt`. -/
  index : ℕ
  /-- The wait has timed out. -/
  timedOut : Bool

inductive ArpAction (K V : Type)
  /-- The scheduler of the map hands the next opinion to `onNewOpinion`. -/
  | handOver
  /-- The scheduler of the map executes the subscription of the current observer. -/
  | attach
  /-- A step of the thread of the benchmark. -/
  | bench (answers : Answers K V)

namespace ArpRun

variable {H T : Type → Type → Type} [FiniteMap H] [FiniteMap T]
variable {K V : Type} [DecidableEq K] [DecidableEq V]

/-- An empty map, with what earlier runs have left in the topic, and the observer of the population
on its way. -/
def init (leftover : List (K × V)) : ArpRun H T K V where
  map := MergedMap.init
  inFlight := leftover
  observer := none
  arpTableKeys := []
  pc := .populateArpMergedMap
  populated := false
  warmup := 0
  measured := 0
  incorrect := 0

/-- The number of events that the current observer has received. -/
def received (s : ArpRun H T K V) : ℕ := (s.observer.getD []).length

/-- `obs.getOnNextEvents().get(index)`, or `none` where it throws. -/
def getOnNextEvent (s : ArpRun H T K V) (index : ℤ) : Option (K × Option V) :=
  if 0 ≤ index then (s.observer.getD [])[index.toNat]? else none

/-- `putOpinion` -/
def putOpinion (s : ArpRun H T K V) (ip : K) (entry : V) : ArpRun H T K V :=
  { s with inFlight := s.inFlight ++ [(ip, entry)] }

/-- `latencies.add` -/
def addLatency (s : ArpRun H T K V) : Bool → ArpRun H T K V
  | false => { s with warmup := s.warmup + 1 }
  | true => { s with measured := s.measured + 1 }

section Step

variable (crStrategy : V → V → Ordering) (owner : String) (dataSize writeCount : ℤ)

/-- The number of operations. -/
def opCount : Bool → ℤ
  | false => WARMUP_OP_COUNT
  | true => writeCount

/-- A step of the thread of the benchmark. -/
def bench (s : ArpRun H T K V) (answers : Answers K V) : ArpRun H T K V :=
  match s.pc with
  | .populateArpMergedMap =>
    if (s.arpTableKeys.length : ℤ) < dataSize then
      { s.putOpinion answers.ip answers.entry with
        arpTableKeys := s.arpTableKeys ++ [answers.ip] }
    else if dataSize ≤ s.received ∨ answers.timedOut then
      { s with populated := s.inFlight.isEmpty, observer := none, pc := .readSize false }
    else s
  | .readSize measured => { s with pc := .awaitContent measured s.map.size }
  | .awaitContent measured mapSize =>
    if mapSize ≤ s.received ∨ answers.timedOut then { s with pc := .loop measured mapSize 0 }
    else s
  | .loop measured mapSize i =>
    if i < opCount writeCount measured then
      match s.arpTableKeys[answers.index]? with
      | some ip =>
        { s.putOpinion ip answers.entry with pc := .awaitNotification measured mapSize i ip }
      -- `nextInt` throws if there are no keys, and does not return such an index otherwise
      | none => if s.arpTableKeys = [] then { s with pc := .threw } else s
    else if measured then { s with pc := .finished }
    else { s with observer := none, pc := .readSize true }
  | .awaitNotification measured mapSize i ip =>
    if mapSize + i + 1 ≤ s.received ∨ answers.timedOut then
      match s.getOnNextEvent (mapSize + i) with
      | none => { s with pc := .threw }
      | some notif =>
        if ip = notif.1 then { s.addLatency measured with pc := .loop measured mapSize (i + 1) }
        else { s with incorrect := s.incorrect + 1, pc := .loop measured mapSize (i + 1) }
    else s
  | .finished => s
  | .threw => s

/-- One step of the benchmark or of the scheduler. -/
def step (s : ArpRun H T K V) : ArpAction K V → ArpRun H T K V
  | .handOver =>
    match s.inFlight with
    | [] => s
    | (ip, entry) :: rest =>
      { s with
        map := onNewOpinion crStrategy s.map ⟨ip, some entry, owner⟩
        inFlight := rest
        observer := s.observer.map
          (· ++ emitted (onNewOpinionWrites crStrategy s.map ⟨ip, some entry, owner⟩)) }
  | .attach =>
    match s.observer with
    | none => { s with observer := some (s.map.snapshot.map fun e => (e.1, some e.2)) }
    | some _ => s
  | .bench answers => s.bench dataSize writeCount answers

end Step

/-! ## What an addition does to a map with a single owner -/

section Addition

variable {crStrategy : V → V → Ordering} {owner : String} {m : MergedMap H T K V}

/-- A put of the single owner adds its key. -/
theorem containsKey_onNewOpinion (h : SingleOwner owner m) (ip k : K) (entry : V) :
    (onNewOpinion crStrategy m ⟨ip, some entry, owner⟩).containsKey k = true ↔
      k = ip ∨ m.containsKey k = true := by
  rw [containsKey, winners_onNewOpinion_some, if_pos (h.wins crStrategy ip entry)]
  by_cases hk : k = ip
  · simp [hk]
  · simp [get?_put, hk, containsKey]

/-- A put at a known key leaves the size. -/
theorem size_onNewOpinion_of_containsKey (h : m.Counted) {ip : K}
    (hip : m.containsKey ip = true) (entry : V) :
    (onNewOpinion crStrategy m ⟨ip, some entry, owner⟩).size = m.size := by
  have hne : isEmpty (m.opinions ip) = false := (h.shown_iff ip).mp hip
  rw [MergedMap.size, entryCount_onNewOpinion_some, hne]
  simp [MergedMap.size]

/-- A put adds at most one entry. -/
theorem size_onNewOpinion_le (ip : K) (entry : V) :
    (onNewOpinion crStrategy m ⟨ip, some entry, owner⟩).size ≤ m.size + 1 := by
  rw [MergedMap.size, entryCount_onNewOpinion_some, MergedMap.size]
  split <;> omega

omit [DecidableEq V] in
/-- The subscriber is first sent as many events as the map has entries. -/
theorem length_dump (h : m.Counted) :
    ((m.snapshot.map fun e => (e.1, some e.2) : List (K × Option V)).length : ℤ) = m.size := by
  rw [List.length_map]
  exact (sub_eq_zero.mp h.lead_eq_zero).symm

end Addition

/-! ## The invariant of a run with a population that is complete -/

/-- Every key that the benchmark may pick is in the map. -/
def Shown (s : ArpRun H T K V) : Prop := ∀ k ∈ s.arpTableKeys, s.map.containsKey k = true

/-- The observer has received the contents of the map and `i` notifications, or it has not been
attached before the first put. -/
def Caught (s : ArpRun H T K V) (mapSize : ℤ) (i : ℕ) : Prop :=
  (s.observer = none ∧ i = 0) ∨ ∃ events, s.observer = some events ∧ events.length = mapSize + i

/-- Nothing is on its way to the map, and `mapSize` is its size. -/
structure Calm (s : ArpRun H T K V) (mapSize : ℤ) (i : ℕ) : Prop where
  inFlight : s.inFlight = []
  shown : s.Shown
  mapSize_eq : mapSize = s.map.size
  caught : s.Caught mapSize i

/-- Where the put of an operation may be. -/
inductive Outstanding (s : ArpRun H T K V) (mapSize : ℤ) (i : ℕ) (ip : K) : Prop
  | inFlight (entry : V) : s.inFlight = [(ip, entry)] → s.Caught mapSize i →
      Outstanding s mapSize i ip
  /-- It came before the observer was attached. -/
  | unheard : s.inFlight = [] → i = 0 → s.Caught mapSize 0 → Outstanding s mapSize i ip
  | notified (events : List (K × Option V)) (entry : Option V) : s.inFlight = [] →
      s.observer = some events → (events.length : ℤ) = mapSize + i + 1 →
      events[(mapSize + i).toNat]? = some (ip, entry) → Outstanding s mapSize i ip

/-- What holds in each phase. -/
def Phase (s : ArpRun H T K V) : Prop :=
  match s.pc with
  | .populateArpMergedMap =>
    ∀ k ∈ s.arpTableKeys, s.map.containsKey k = true ∨ k ∈ s.inFlight.map Prod.fst
  | .readSize _ => s.Calm s.map.size 0
  | .awaitContent _ mapSize => s.Calm mapSize 0
  | .loop _ mapSize i => s.Calm mapSize i
  | .awaitNotification _ mapSize i ip =>
    s.Shown ∧ mapSize = s.map.size ∧ ip ∈ s.arpTableKeys ∧ s.Outstanding mapSize i ip
  | .finished => True
  | .threw => True

/-- The latencies so far: as many as there were operations. -/
def Tally (writeCount : ℤ) (s : ArpRun H T K V) : Prop :=
  match s.pc with
  | .populateArpMergedMap => s.warmup = 0 ∧ s.measured = 0
  | .readSize false => s.warmup = 0 ∧ s.measured = 0
  | .awaitContent false _ => s.warmup = 0 ∧ s.measured = 0
  | .loop false _ i => s.warmup = i ∧ s.measured = 0 ∧ i ≤ WARMUP_OP_COUNT.toNat
  | .awaitNotification false _ i _ => s.warmup = i ∧ s.measured = 0 ∧ i < WARMUP_OP_COUNT.toNat
  | .readSize true => s.warmup = WARMUP_OP_COUNT.toNat ∧ s.measured = 0
  | .awaitContent true _ => s.warmup = WARMUP_OP_COUNT.toNat ∧ s.measured = 0
  | .loop true _ i =>
    s.warmup = WARMUP_OP_COUNT.toNat ∧ s.measured = i ∧ i ≤ writeCount.toNat
  | .awaitNotification true _ i _ =>
    s.warmup = WARMUP_OP_COUNT.toNat ∧ s.measured = i ∧ i < writeCount.toNat
  | .finished => s.warmup = WARMUP_OP_COUNT.toNat ∧ s.measured = writeCount.toNat
  | .threw => True

/-- What is known while the population is going on, or after one that is complete. -/
def Known (writeCount : ℤ) (s : ArpRun H T K V) : Prop :=
  s.Phase ∧ s.Tally writeCount ∧ s.incorrect = 0

/-- Nothing is known after a population of which some opinions are on their way. -/
structure Inv (owner : String) (writeCount : ℤ) (s : ArpRun H T K V) : Prop where
  counted : s.map.Counted
  single : SingleOwner owner s.map
  not_populated : s.pc = .populateArpMergedMap → s.populated = false
  known : s.pc = .populateArpMergedMap ∨ s.populated = true → s.Known writeCount

section Invariant

variable {crStrategy : V → V → Ordering} {owner : String} {dataSize writeCount : ℤ}
variable {s : ArpRun H T K V}

omit [DecidableEq V] in
/-- The invariant holds before the population, whatever the topic holds. -/
theorem inv_init (leftover : List (K × V)) :
    (init leftover : ArpRun H T K V).Inv owner writeCount where
  counted := counted_init
  single := singleOwner_init owner
  not_populated _ := rfl
  known _ := by simp [Known, Phase, Tally, init]

/-! ### The scheduler -/

/-- The map and the observer after the put of an operation has been handed over. -/
theorem Outstanding.handOver (hsingle : SingleOwner owner s.map) {mapSize : ℤ} {i : ℕ}
    {ip : K} {entry : V} (hflight : s.inFlight = [(ip, entry)]) (hcaught : s.Caught mapSize i) :
    (s.step crStrategy owner dataSize writeCount .handOver).Outstanding mapSize i ip := by
  have hemitted : emitted (onNewOpinionWrites crStrategy s.map ⟨ip, some entry, owner⟩) =
    [(ip, some entry)] := hsingle.emitted crStrategy ip entry
  rcases hcaught with ⟨hnone, rfl⟩ | ⟨events, hsome, hlen⟩
  · -- nobody hears of it
    refine .unheard ?_ rfl (.inl ⟨?_, rfl⟩)
    · simp [step, hflight]
    · simp [step, hflight, hnone]
  · refine .notified (events ++ [(ip, some entry)]) (some entry) ?_ ?_ ?_ ?_
    · simp [step, hflight]
    · simp [step, hflight, hsome, hemitted]
    · simp [hlen]
    · have hindex : (mapSize + i).toNat = events.length := by omega
      rw [hindex, List.getElem?_append_right le_rfl]
      simp

/-- The oldest opinion in flight reaches the map and the observer. -/
theorem step_handOver {ip : K} {entry : V} {rest : List (K × V)}
    (hsingle : SingleOwner owner s.map) (hflight : s.inFlight = (ip, entry) :: rest) :
    s.step crStrategy owner dataSize writeCount .handOver =
      { s with
        map := onNewOpinion crStrategy s.map ⟨ip, some entry, owner⟩
        inFlight := rest
        observer := s.observer.map (· ++ [(ip, some entry)]) } := by
  simp [step, hflight, hsingle.emitted crStrategy]

/-- An opinion handed over keeps what holds in each phase. -/
theorem Phase.handOver (h : s.Phase) (hcounted : s.map.Counted)
    (hsingle : SingleOwner owner s.map) :
    (s.step crStrategy owner dataSize writeCount .handOver).Phase := by
  cases hflight : s.inFlight with
  | nil =>
    have hsame : s.step crStrategy owner dataSize writeCount .handOver = s := by
      simp [step, hflight]
    rwa [hsame]
  | cons put rest =>
    obtain ⟨ip, entry⟩ := put
    have hstep : s.step crStrategy owner dataSize writeCount .handOver = _ :=
      step_handOver hsingle hflight
    cases hpc : s.pc with
    | populateArpMergedMap =>
      simp only [Phase, hpc] at h
      rw [hstep]
      simp only [Phase, hpc]
      intro k hk
      rw [containsKey_onNewOpinion hsingle]
      rcases h k hk with hold | hmem
      · exact .inl (.inr hold)
      · rw [hflight, List.map_cons, List.mem_cons] at hmem
        exact hmem.imp (fun heq => .inl heq) id
    | readSize measured =>
      simp only [Phase, hpc] at h
      exact absurd (hflight.symm.trans h.inFlight) (List.cons_ne_nil _ _)
    | awaitContent measured mapSize =>
      simp only [Phase, hpc] at h
      exact absurd (hflight.symm.trans h.inFlight) (List.cons_ne_nil _ _)
    | loop measured mapSize i =>
      simp only [Phase, hpc] at h
      exact absurd (hflight.symm.trans h.inFlight) (List.cons_ne_nil _ _)
    | awaitNotification measured mapSize i ip' =>
      simp only [Phase, hpc] at h
      obtain ⟨hshown, hsize, hmem, hout⟩ := h
      cases hout with
      | inFlight entry' hone hcaught =>
        obtain ⟨hput, rfl⟩ := List.cons.inj (hflight.symm.trans hone)
        obtain ⟨rfl, rfl⟩ := Prod.mk.inj hput
        have hnext : (s.step crStrategy owner dataSize writeCount .handOver).Outstanding
          mapSize i ip := Outstanding.handOver hsingle hflight hcaught
        rw [hstep, hpc] at hnext
        rw [hstep]
        simp only [Phase, hpc]
        refine ⟨fun k hk => ?_, ?_, hmem, hnext⟩
        · rw [containsKey_onNewOpinion hsingle]
          exact .inr (hshown k hk)
        · rw [size_onNewOpinion_of_containsKey hcounted (hshown ip hmem), hsize]
      | unheard hnil => exact absurd (hflight.symm.trans hnil) (List.cons_ne_nil _ _)
      | notified _ _ hnil => exact absurd (hflight.symm.trans hnil) (List.cons_ne_nil _ _)
    | finished =>
      rw [hstep]
      simp [Phase, hpc]
    | threw =>
      rw [hstep]
      simp [Phase, hpc]

/-- Attaching the observer keeps what holds in each phase. -/
theorem Phase.attach (h : s.Phase) (hcounted : s.map.Counted) :
    (s.step crStrategy owner dataSize writeCount .attach).Phase := by
  cases hobs : s.observer with
  | some events =>
    have hsame : s.step crStrategy owner dataSize writeCount .attach = s := by
      simp [step, hobs]
    rwa [hsame]
  | none =>
    have hlen := length_dump hcounted
    have hstep : s.step crStrategy owner dataSize writeCount .attach =
        { s with observer := some (s.map.snapshot.map fun e => (e.1, some e.2)) } := by
      simp only [step, hobs]
    have hcaught : ∀ mapSize i, mapSize = s.map.size → s.Caught mapSize i →
        (s.step crStrategy owner dataSize writeCount .attach).Caught mapSize i := by
      rw [hstep]
      rintro mapSize i rfl (⟨-, rfl⟩ | ⟨events, hsome, -⟩)
      · exact .inr ⟨_, rfl, by rw [hlen]; simp⟩
      · cases hobs.symm.trans hsome
    rw [hstep] at hcaught ⊢
    cases hpc : s.pc with
    | populateArpMergedMap => simpa only [Phase, hpc] using h
    | readSize measured =>
      simp only [Phase, hpc] at h ⊢
      exact ⟨h.inFlight, h.shown, rfl, hpc ▸ hcaught _ _ rfl h.caught⟩
    | awaitContent measured mapSize =>
      simp only [Phase, hpc] at h ⊢
      exact ⟨h.inFlight, h.shown, h.mapSize_eq, hpc ▸ hcaught _ _ h.mapSize_eq h.caught⟩
    | loop measured mapSize i =>
      simp only [Phase, hpc] at h ⊢
      exact ⟨h.inFlight, h.shown, h.mapSize_eq, hpc ▸ hcaught _ _ h.mapSize_eq h.caught⟩
    | awaitNotification measured mapSize i ip =>
      simp only [Phase, hpc] at h ⊢
      obtain ⟨hshown, hsize, hmem, hout⟩ := h
      refine ⟨hshown, hsize, hmem, ?_⟩
      cases hout with
      | inFlight entry hone hbefore =>
        exact .inFlight entry hone (hpc ▸ hcaught _ _ hsize hbefore)
      | unheard hnil hi hbefore => exact .unheard hnil hi (hpc ▸ hcaught _ _ hsize hbefore)
      | notified events entry _ hsome => cases hobs.symm.trans hsome
    | finished => trivial
    | threw => trivial

/-! ### The thread of the benchmark -/

omit [FiniteMap H] [DecidableEq V] in
/-- A complete population leaves the map known. -/
theorem known_populate (hpc : s.pc = .populateArpMergedMap) (h : s.Known writeCount)
    (answers : Answers K V)
    (hnext : (s.bench dataSize writeCount answers).pc = .populateArpMergedMap ∨
      (s.bench dataSize writeCount answers).populated = true) :
    (s.bench dataSize writeCount answers).Known writeCount := by
  obtain ⟨hphase, htally, hincorrect⟩ := h
  simp only [Phase, hpc] at hphase
  simp only [Tally, hpc] at htally
  simp only [bench, hpc] at hnext ⊢
  split_ifs at hnext ⊢ with hloop hdone
  · -- another put
    refine ⟨?_, by simpa [Tally, hpc, putOpinion] using htally, hincorrect⟩
    simp only [Phase, putOpinion, hpc]
    intro k hk
    rw [List.map_append, List.mem_append]
    rcases List.mem_append.mp hk with hold | hnew
    · exact (hphase k hold).imp id .inl
    · exact .inr (.inr (by simpa using hnew))
  · -- the wait has ended, with nothing on its way
    have hnil : s.inFlight = [] := by simpa using hnext
    refine ⟨?_, by simpa [Tally] using htally, hincorrect⟩
    simp only [Phase]
    refine ⟨hnil, fun k hk => ?_, rfl, .inl ⟨rfl, rfl⟩⟩
    rcases hphase k hk with hold | hmem
    · exact hold
    · rw [hnil] at hmem
      exact absurd hmem List.not_mem_nil
  · exact ⟨by simpa only [Phase, hpc] using hphase,
      by simpa only [Tally, hpc] using htally, hincorrect⟩

omit [FiniteMap H] [DecidableEq V] in
/-- Reading the size keeps what is known. -/
theorem known_readSize {measured : Bool} (hpc : s.pc = .readSize measured)
    (h : s.Known writeCount) (answers : Answers K V) :
    (s.bench dataSize writeCount answers).Known writeCount := by
  obtain ⟨hphase, htally, hincorrect⟩ := h
  simp only [Phase, hpc] at hphase
  simp only [Tally, hpc] at htally
  simp only [bench, hpc]
  refine ⟨?_, ?_, hincorrect⟩
  · exact ⟨hphase.inFlight, hphase.shown, rfl, hphase.caught⟩
  · cases measured <;> exact htally

omit [FiniteMap H] [DecidableEq V] in
/-- Waiting for the contents keeps what is known. -/
theorem known_awaitContent {measured : Bool} {mapSize : ℤ}
    (hpc : s.pc = .awaitContent measured mapSize) (h : s.Known writeCount)
    (answers : Answers K V) :
    (s.bench dataSize writeCount answers).Known writeCount := by
  obtain ⟨hphase, htally, hincorrect⟩ := h
  simp only [bench, hpc]
  split_ifs with hdone
  · simp only [Phase, hpc] at hphase
    simp only [Tally, hpc] at htally
    refine ⟨?_, ?_, hincorrect⟩
    · exact ⟨hphase.inFlight, hphase.shown, hphase.mapSize_eq, hphase.caught⟩
    · cases measured
      · exact ⟨htally.1, htally.2, Nat.zero_le _⟩
      · exact ⟨htally.1, htally.2, Nat.zero_le _⟩
  · exact ⟨hphase, htally, hincorrect⟩

omit [FiniteMap H] [DecidableEq V] in
/-- Starting an operation keeps what is known. -/
theorem known_loop {measured : Bool} {mapSize : ℤ} {i : ℕ}
    (hpc : s.pc = .loop measured mapSize i) (h : s.Known writeCount)
    (answers : Answers K V) :
    (s.bench dataSize writeCount answers).Known writeCount := by
  obtain ⟨hphase, htally, hincorrect⟩ := id h
  simp only [Phase, hpc] at hphase
  simp only [Tally, hpc] at htally
  simp only [bench, hpc]
  by_cases hcount : (i : ℤ) < opCount writeCount measured
  · rw [if_pos hcount]
    cases hip : s.arpTableKeys[answers.index]? with
    | none =>
      by_cases hnone : s.arpTableKeys = []
      · simp only [if_pos hnone]
        exact ⟨trivial, trivial, hincorrect⟩
      · simp only [if_neg hnone]
        exact h
    | some ip =>
      refine ⟨⟨hphase.shown, hphase.mapSize_eq, List.mem_of_getElem? hip, ?_⟩, ?_, hincorrect⟩
      · exact .inFlight answers.entry (by simp [putOpinion, hphase.inFlight]) hphase.caught
      · cases measured
        · exact ⟨htally.1, htally.2.1, by simp only [opCount] at hcount; omega⟩
        · exact ⟨htally.1, htally.2.1, by simp only [opCount] at hcount; omega⟩
  · rw [if_neg hcount]
    cases measured with
    | true =>
      refine ⟨trivial, ⟨htally.1, ?_⟩, hincorrect⟩
      obtain ⟨-, hi, hle⟩ := htally
      simp only [opCount] at hcount
      show s.measured = writeCount.toNat
      omega
    | false =>
      obtain ⟨hi, hmeasured, hle⟩ := htally
      refine ⟨⟨hphase.inFlight, hphase.shown, rfl, .inl ⟨rfl, rfl⟩⟩, ⟨?_, hmeasured⟩, hincorrect⟩
      simp only [opCount] at hcount
      show s.warmup = WARMUP_OP_COUNT.toNat
      omega

omit [FiniteMap H] [FiniteMap T] [DecidableEq K] [DecidableEq V] in
theorem Caught.getOnNextEvent {mapSize : ℤ} {i : ℕ} (h : s.Caught mapSize i) :
    s.getOnNextEvent (mapSize + i) = none := by
  rcases h with ⟨hnone, -⟩ | ⟨events, hsome, hlen⟩
  · simp [ArpRun.getOnNextEvent, hnone]
  · simp only [ArpRun.getOnNextEvent, hsome, Option.getD_some]
    split_ifs with hpos
    · exact List.getElem?_eq_none (by omega)
    · rfl

omit [FiniteMap H] [FiniteMap T] [DecidableEq K] [DecidableEq V] in
/-- Event number `mapSize + i` is the notification of the put, or there is none. -/
theorem Outstanding.getOnNextEvent {mapSize : ℤ} {i : ℕ} {ip : K}
    (h : s.Outstanding mapSize i ip) {notif : K × Option V}
    (hnotif : s.getOnNextEvent (mapSize + i) = some notif) :
    ip = notif.1 ∧ s.inFlight = [] ∧ s.Caught mapSize (i + 1) := by
  cases h with
  | inFlight entry _ hcaught => cases hcaught.getOnNextEvent.symm.trans hnotif
  | unheard _ hi hcaught =>
    subst hi
    cases hcaught.getOnNextEvent.symm.trans hnotif
  | notified events entry hnil hsome hlen hevent =>
    have hput : notif = (ip, entry) := by
      simp only [ArpRun.getOnNextEvent, hsome, Option.getD_some] at hnotif
      split_ifs at hnotif
      exact Option.some.inj (hnotif.symm.trans hevent)
    exact ⟨by rw [hput], hnil, .inr ⟨events, hsome, by push_cast; omega⟩⟩

omit [FiniteMap H] [DecidableEq V] in
/-- The notification awaited is that of the operation. -/
theorem known_awaitNotification {measured : Bool} {mapSize : ℤ} {i : ℕ} {ip : K}
    (hpc : s.pc = .awaitNotification measured mapSize i ip) (h : s.Known writeCount)
    (answers : Answers K V) :
    (s.bench dataSize writeCount answers).Known writeCount := by
  obtain ⟨hphase, htally, hincorrect⟩ := id h
  simp only [Phase, hpc] at hphase
  simp only [Tally, hpc] at htally
  obtain ⟨hshown, hsize, -, hout⟩ := hphase
  simp only [bench, hpc]
  split_ifs with hdone
  · cases hnotif : s.getOnNextEvent (mapSize + i) with
    | none => exact ⟨trivial, trivial, hincorrect⟩
    | some notif =>
      obtain ⟨hip, hnil, hcaught⟩ := hout.getOnNextEvent hnotif
      simp only [if_pos hip]
      cases measured
      · refine ⟨⟨hnil, hshown, hsize, hcaught⟩, ⟨?_, htally.2.1, htally.2.2⟩, hincorrect⟩
        exact congrArg (· + 1) htally.1
      · refine ⟨⟨hnil, hshown, hsize, hcaught⟩, ⟨htally.1, ?_, htally.2.2⟩, hincorrect⟩
        exact congrArg (· + 1) htally.2.1
  · exact h

/-! ### Whole runs -/

omit [FiniteMap H] [FiniteMap T] [DecidableEq V] in
/-- The thread of the benchmark writes to the map through the bus only. -/
theorem map_bench (answers : Answers K V) :
    (s.bench dataSize writeCount answers).map = s.map := by
  simp only [bench, putOpinion, addLatency]
  grind

omit [FiniteMap H] [FiniteMap T] [DecidableEq V] in
/-- The population is not begun a second time. -/
theorem pc_bench (answers : Answers K V)
    (h : (s.bench dataSize writeCount answers).pc = .populateArpMergedMap) :
    s.pc = .populateArpMergedMap ∧
      (s.bench dataSize writeCount answers).populated = s.populated := by
  simp only [bench, putOpinion, addLatency] at h ⊢
  grind

omit [FiniteMap H] [FiniteMap T] [DecidableEq V] in
/-- Only the population changes the keys of the table. -/
theorem populated_bench (answers : Answers K V) (hpc : s.pc ≠ .populateArpMergedMap) :
    (s.bench dataSize writeCount answers).populated = s.populated ∧
      (s.bench dataSize writeCount answers).arpTableKeys = s.arpTableKeys := by
  simp only [bench, putOpinion, addLatency]
  grind

omit [DecidableEq V] in
/-- A step of the bench keeps the invariant. -/
theorem Inv.bench (h : s.Inv owner writeCount) (answers : Answers K V) :
    (s.bench dataSize writeCount answers).Inv owner writeCount where
  counted := by
    rw [map_bench]
    exact h.counted
  single := by
    rw [map_bench]
    exact h.single
  not_populated hnext := by
    obtain ⟨hpc, hsame⟩ := pc_bench answers hnext
    rw [hsame, h.not_populated hpc]
  known hnext := by
    by_cases hpc : s.pc = .populateArpMergedMap
    · exact known_populate hpc (h.known (.inl hpc)) answers hnext
    · have hpop : s.populated = true := by
        rw [← (populated_bench answers hpc).1]
        exact hnext.resolve_left fun hback => hpc (pc_bench answers hback).1
      have hknown : s.Known writeCount := h.known (.inr hpop)
      cases hat : s.pc with
      | populateArpMergedMap => exact absurd hat hpc
      | readSize measured => exact known_readSize hat hknown answers
      | awaitContent measured mapSize => exact known_awaitContent hat hknown answers
      | loop measured mapSize i => exact known_loop hat hknown answers
      | awaitNotification measured mapSize i ip => exact known_awaitNotification hat hknown answers
      | finished => simpa only [ArpRun.bench, hat] using hknown
      | threw => simpa only [ArpRun.bench, hat] using hknown

variable (crStrategy owner dataSize writeCount) in
/-- The scheduler of the map leaves the thread of the benchmark where it is. -/
theorem thread_step (s : ArpRun H T K V) {a : ArpAction K V} (ha : ∀ answers, a ≠ .bench answers) :
    (s.step crStrategy owner dataSize writeCount a).pc = s.pc ∧
      (s.step crStrategy owner dataSize writeCount a).populated = s.populated ∧
      (s.step crStrategy owner dataSize writeCount a).arpTableKeys = s.arpTableKeys ∧
      (s.step crStrategy owner dataSize writeCount a).warmup = s.warmup ∧
      (s.step crStrategy owner dataSize writeCount a).measured = s.measured ∧
      (s.step crStrategy owner dataSize writeCount a).incorrect = s.incorrect := by
  cases a with
  | handOver => cases hflight : s.inFlight <;> simp [step, hflight]
  | attach => cases hobs : s.observer <;> simp [step, hobs]
  | bench answers => exact absurd rfl (ha answers)

/-- What the scheduler has to keep for the invariant. -/
theorem Inv.of_thread_step (h : s.Inv owner writeCount) {a : ArpAction K V}
    (ha : ∀ answers, a ≠ .bench answers)
    (hcounted : (s.step crStrategy owner dataSize writeCount a).map.Counted)
    (hsingle : SingleOwner owner (s.step crStrategy owner dataSize writeCount a).map)
    (hphase : s.Phase → (s.step crStrategy owner dataSize writeCount a).Phase) :
    (s.step crStrategy owner dataSize writeCount a).Inv owner writeCount := by
  obtain ⟨hpc, hpop, -, hwarmup, hmeasured, hincorrect⟩ :=
    thread_step crStrategy owner dataSize writeCount s ha
  refine ⟨hcounted, hsingle, fun hat => ?_, fun hat => ?_⟩
  · rw [hpop]
    exact h.not_populated (hpc ▸ hat)
  · rw [hpc, hpop] at hat
    obtain ⟨hbefore, htally, hnone⟩ := h.known hat
    refine ⟨hphase hbefore, ?_, hincorrect.trans hnone⟩
    simpa only [Tally, hpc, hwarmup, hmeasured] using htally

/-- Every step keeps the invariant. -/
theorem Inv.step (h : s.Inv owner writeCount) (a : ArpAction K V) :
    (s.step crStrategy owner dataSize writeCount a).Inv owner writeCount := by
  cases a with
  | bench answers => exact h.bench answers
  | attach =>
    have hmap : (s.step crStrategy owner dataSize writeCount .attach).map = s.map := by
      cases hobs : s.observer <;> simp [ArpRun.step, hobs]
    exact h.of_thread_step nofun (hmap ▸ h.counted) (hmap ▸ h.single)
      fun hphase => hphase.attach h.counted
  | handOver =>
    refine h.of_thread_step nofun ?_ ?_ fun hphase => hphase.handOver h.counted h.single
    · cases hflight : s.inFlight with
      | nil => simpa [ArpRun.step, hflight] using h.counted
      | cons put rest => simpa [ArpRun.step, hflight] using h.counted.onNewOpinion _
    · cases hflight : s.inFlight with
      | nil => simpa [ArpRun.step, hflight] using h.single
      | cons put rest => simpa [ArpRun.step, hflight] using h.single.onNewOpinion _ _ rfl

/-- The invariant holds in every reachable state. -/
theorem inv_run (leftover : List (K × V)) (as : List (ArpAction K V)) :
    (as.foldl (step crStrategy owner dataSize writeCount)
      (init leftover : ArpRun H T K V)).Inv owner writeCount :=
  Run.inv_foldl (inv_init leftover) (fun _ a h => h.step a) as

/-! ### Runs on a new topic in which no wait times out -/

/-- The map and the observer have at most what has been put. -/
structure Few (dataSize : ℤ) (s : ArpRun H T K V) : Prop where
  size : s.map.size + s.inFlight.length ≤ s.arpTableKeys.length
  received : s.received + s.inFlight.length ≤ s.arpTableKeys.length
  keys : s.arpTableKeys.length ≤ dataSize.toNat

omit [DecidableEq K] [DecidableEq V] in
/-- On a new topic nothing has arrived. -/
theorem few_init : (init [] : ArpRun H T K V).Few dataSize where
  size := by simp [init, MergedMap.size, MergedMap.init]
  received := by simp [init, ArpRun.received]
  keys := Nat.zero_le _

/-- An opinion handed over is one that was put. -/
theorem Few.handOver (h : s.Few dataSize) (hsingle : SingleOwner owner s.map) :
    (s.step crStrategy owner dataSize writeCount .handOver).Few dataSize := by
  obtain ⟨hsize, hreceived, hkeys⟩ := id h
  cases hflight : s.inFlight with
  | nil => simpa only [ArpRun.step, hflight] using h
  | cons put rest =>
    obtain ⟨ip, entry⟩ := put
    rw [step_handOver hsingle hflight]
    rw [hflight, List.length_cons] at hsize hreceived
    refine ⟨?_, ?_, hkeys⟩
    · have hle : (onNewOpinion crStrategy s.map ⟨ip, some entry, owner⟩).size ≤
        s.map.size + 1 := size_onNewOpinion_le ip entry
      simp only
      omega
    · cases hobs : s.observer with
      | none => simp [ArpRun.received, hobs] at hreceived ⊢; omega
      | some events => simp [ArpRun.received, hobs] at hreceived ⊢; omega

/-- The observer is sent no more than was put. -/
theorem Few.attach (h : s.Few dataSize) (hcounted : s.map.Counted) :
    (s.step crStrategy owner dataSize writeCount .attach).Few dataSize := by
  cases hobs : s.observer with
  | some events => simpa only [ArpRun.step, hobs] using h
  | none =>
    have hlen := length_dump hcounted
    simp only [ArpRun.step, hobs]
    refine ⟨h.size, ?_, h.keys⟩
    have hsize := h.size
    simp only [ArpRun.received, Option.getD_some]
    omega

/-- What holds in addition in such a run. -/
structure InTime (owner : String) (dataSize writeCount : ℤ) (s : ArpRun H T K V) : Prop where
  inv : s.Inv owner writeCount
  not_threw : s.pc ≠ .threw
  few : s.pc = .populateArpMergedMap → s.Few dataSize
  populated : s.pc ≠ .populateArpMergedMap → s.populated = true ∧ s.arpTableKeys ≠ []

omit [DecidableEq V] in
/-- The wait ends with an event for each put. -/
theorem InTime.populate (h : s.InTime owner dataSize writeCount) (hpos : 0 < dataSize)
    {answers : Answers K V} (htime : answers.timedOut = false)
    (hpc : s.pc = .populateArpMergedMap) :
    (s.bench dataSize writeCount answers).InTime owner dataSize writeCount := by
  obtain ⟨hsize, hreceived, hkeys⟩ := h.few hpc
  suffices hrest : (s.bench dataSize writeCount answers).pc ≠ .threw ∧
      ((s.bench dataSize writeCount answers).pc = .populateArpMergedMap →
        (s.bench dataSize writeCount answers).Few dataSize) ∧
      ((s.bench dataSize writeCount answers).pc ≠ .populateArpMergedMap →
        (s.bench dataSize writeCount answers).populated = true ∧
          (s.bench dataSize writeCount answers).arpTableKeys ≠ []) from
    ⟨h.inv.bench answers, hrest.1, hrest.2.1, hrest.2.2⟩
  simp only [ArpRun.bench, hpc, htime, Bool.false_eq_true, or_false]
  split_ifs with hloop hdone
  · refine ⟨by simp [ArpRun.putOpinion, hpc], fun _ => ⟨?_, ?_, ?_⟩,
      fun hne => absurd (by simpa [ArpRun.putOpinion] using hpc) hne⟩
    · simp only [ArpRun.putOpinion, List.length_append, List.length_singleton]
      push_cast
      omega
    · simp only [ArpRun.received, ArpRun.putOpinion, List.length_append,
        List.length_singleton] at hreceived ⊢
      omega
    · simp only [List.length_append, List.length_singleton]
      omega
  · -- as many events as there were puts, so that nothing is on its way
    have hnil : s.inFlight = [] := List.length_eq_zero_iff.mp (by omega)
    refine ⟨nofun, nofun, fun _ => ⟨by simp [hnil], fun hnone => ?_⟩⟩
    rw [hnone, List.length_nil] at hreceived
    omega
  · exact ⟨h.not_threw, h.few, h.populated⟩

omit [DecidableEq V] in
/-- A step of the bench keeps this while no wait times out. -/
theorem InTime.bench (h : s.InTime owner dataSize writeCount) (hpos : 0 < dataSize)
    {answers : Answers K V} (htime : answers.timedOut = false) :
    (s.bench dataSize writeCount answers).InTime owner dataSize writeCount := by
  by_cases hpc : s.pc = .populateArpMergedMap
  · exact h.populate hpos htime hpc
  · obtain ⟨hpop, hkeys⟩ := h.populated hpc
    obtain ⟨hsamePop, hsameKeys⟩ : (s.bench dataSize writeCount answers).populated = s.populated ∧
        (s.bench dataSize writeCount answers).arpTableKeys = s.arpTableKeys :=
      populated_bench answers hpc
    refine ⟨h.inv.bench answers, ?_, fun hback => absurd (pc_bench answers hback).1 hpc,
      fun _ => ⟨hsamePop.trans hpop, by rwa [hsameKeys]⟩⟩
    have hphase : s.Phase := (h.inv.known (.inr hpop)).1
    cases hat : s.pc with
    | populateArpMergedMap => exact absurd hat hpc
    | readSize measured => simp [ArpRun.bench, hat]
    | awaitContent measured mapSize =>
      simp only [ArpRun.bench, hat]
      split_ifs
      · nofun
      · simp [hat]
    | loop measured mapSize i =>
      simp only [ArpRun.bench, hat, if_neg hkeys]
      grind
    | awaitNotification measured mapSize i ip =>
      simp only [Phase, hat] at hphase
      have hsize : 0 ≤ mapSize := by
        rw [hphase.2.1, ← length_dump h.inv.counted]
        exact Int.natCast_nonneg _
      simp only [ArpRun.bench, hat, htime, Bool.false_eq_true, or_false]
      split_ifs with hdone
      · have hevent : (s.getOnNextEvent (mapSize + i)).isSome = true := by
          rw [ArpRun.getOnNextEvent, if_pos (by omega)]
          simp only [received] at hdone
          rw [isSome_getElem?]
          omega
        obtain ⟨notif, hnotif⟩ := Option.isSome_iff_exists.mp hevent
        simp only [hnotif]
        split_ifs <;> nofun
      · simp [hat]
    | finished => simp [ArpRun.bench, hat]
    | threw => exact absurd hat h.not_threw

/-- Every step keeps this while no wait times out. -/
theorem InTime.step (h : s.InTime owner dataSize writeCount) (hpos : 0 < dataSize)
    {a : ArpAction K V} (htime : ∀ answers, a = .bench answers → answers.timedOut = false) :
    (s.step crStrategy owner dataSize writeCount a).InTime owner dataSize writeCount := by
  by_cases ha : ∃ answers, a = .bench answers
  · obtain ⟨answers, rfl⟩ := ha
    exact h.bench hpos (htime answers rfl)
  · obtain ⟨hpc, hpop, hkeys, -⟩ := thread_step crStrategy owner dataSize writeCount s
      fun answers hbench => ha ⟨answers, hbench⟩
    refine ⟨h.inv.step a, ?_, fun hat => ?_, ?_⟩
    · rw [hpc]
      exact h.not_threw
    · have hfew := h.few (hpc ▸ hat)
      cases a with
      | bench answers => exact absurd ⟨answers, rfl⟩ ha
      | handOver => exact hfew.handOver h.inv.single
      | attach => exact hfew.attach h.inv.counted
    · rw [hpc, hpop, hkeys]
      exact h.populated

end Invariant

/-- The thread of the benchmark, with address `ip`. -/
def sampleStep (ip : ℕ) (timedOut : Bool) : ArpAction ℕ ℕ := .bench ⟨ip, 0, 0, timedOut⟩

/-- A map with one entry, and the first operation of the warmup. -/
def sampleRun : List (ArpAction ℕ ℕ) :=
  [.attach, sampleStep 7 false, .handOver, sampleStep 7 false, sampleStep 7 false, .attach,
    sampleStep 7 false, sampleStep 7 false, .handOver, sampleStep 7 false]

-- two addresses were put, and the second one arrives after the wait for the population
example :
    ([.attach, sampleStep 7 false, sampleStep 8 false, .handOver, sampleStep 7 true,
      sampleStep 7 false, .attach, sampleStep 7 false, sampleStep 7 false, .handOver,
      sampleStep 7 false].foldl (step compare "node1" 2 5)
      (init [] : ArpRun AssocMap AssocMap ℕ ℕ)).incorrect = 1 := by decide

-- an earlier run has left two opinions in the topic, whose events end the wait for the population
example :
    ([.attach, sampleStep 7 false, sampleStep 8 false, .handOver, .handOver, sampleStep 7 false,
      sampleStep 7 false, .attach, sampleStep 7 false, .bench ⟨7, 0, 1, false⟩, .handOver,
      sampleStep 7 false].foldl (step compare "node1" 2 5)
      (init [(5, 0), (6, 0)] : ArpRun AssocMap AssocMap ℕ ℕ)).incorrect = 1 := by decide

end ArpRun

end LatencyBench

end MapSetBenchmark
