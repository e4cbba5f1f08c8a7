import StateTableBench.ArpMergedMap.EventualConsistency
import StateTableBench.LatencyNodes.Latencies

/-!
# From the writers to the latencies

`Setting.Delivers` is what a reader relies on: the bus delivers the writes to each map once and in
order. Here the buses are the deployments of the maps. The nodes open the maps and go through the
barrier at the start of `nodeTestCycle`; then the writers write, and all threads of all buses
interleave.

* `Wiring` — the maps of a reader, and who writes them under which name;
* `Wiring.step` — the barrier, a write, or a step of a thread of one of the buses;
* `Wiring.Sound` — what holds of the buses in every run;
* `Wiring.Reads` — what the reader has been handed is delivered as it expects;
* `Wiring.measures` — if the names of the maps are new and no send of a writer fails, then the
  reader measures, in every run.
-/

open ArpMergedMap MergedMap

namespace LatencyNodes

/-- The element of a list that comes after an initial part of its image. -/
theorem exists_of_concat_isPrefix_map {α β : Type} {f : α → β} {l : List β} {b : β} {m : List α}
    (h : l ++ [b] <+: m.map f) : ∃ a, m[l.length]? = some a ∧ f a = b := by
  obtain ⟨rest, hrest⟩ := h
  have hget : (m.map f)[l.length]? = some b := by
    rw [← hrest]
    simp
  simpa using hget

variable {H T : Type → Type → Type} [FiniteMap H] [FiniteMap T]
variable {IPv4Addr MAC Bytes : Type} [DecidableEq IPv4Addr] [DecidableEq MAC]
variable {F : Formats IPv4Addr MAC Bytes}
variable {n : ℕ} {ι : Type}

/-- A reader handles one more delivery. -/
theorem Setting.run_concat (S : Setting n IPv4Addr MAC)
    (events : List (Fin n × Delivery IPv4Addr MAC)) (event : Fin n × Delivery IPv4Addr MAC) :
    S.run H T (events ++ [event]) = (S.run H T events).bind (S.deliver H T · event) := by
  simp only [Setting.run, List.foldlM_append, List.foldlM_cons, List.foldlM_nil, bind_pure,
    Option.bind_eq_bind, Option.bind_assoc]

/-- The maps of a reader, with the nodes that open them. -/
structure Wiring (n : ℕ) (κ MAC ι : Type) extends Setting n κ MAC where
  /-- The name under which a node opens its maps. -/
  ownerOf : ι → String
  /-- The writer of a map. -/
  writer : Fin n → ι
  reader : ι
  owner_eq : ∀ i, owner i = ownerOf (writer i)
  isOwnerName : ∀ i, IsOwnerName (owner i)
  sentAt_nonneg : ∀ i k, 0 ≤ (sentAt i k).toInt

namespace Wiring

variable (W : Wiring n IPv4Addr MAC ι)

/-- What the writer of a map puts for one of its writes. -/
def opinion (i : Fin n) (put : Put IPv4Addr MAC) : Opinion IPv4Addr (ArpCacheEntry MAC) :=
  ⟨put.ip, some put.entry, W.owner i⟩

variable (H T F n ι) in
/-- The buses of the maps, and the observers of the reader. -/
structure State where
  bus : Fin n → Deployment H T F ι
  /-- The nodes have come through the barrier before the test. -/
  begun : Bool
  /-- The number of writes to each map. -/
  written : Fin n → ℕ
  /-- What the reader has besides its maps; `none` if a call has thrown. -/
  observers : Option ((Fin n → ArpMergedMapObserver) × Latches)
  /-- The opinions handed to the maps of the reader, with their times. -/
  handed : List (Fin n × Opinion IPv4Addr (ArpCacheEntry MAC) × Int64)

/-- The steps of the nodes. -/
inductive Action (n : ℕ) (ι IPv4Addr MAC : Type)
  /-- The nodes come through the barrier. -/
  | barrier
  /-- The writer of a map makes its next write. -/
  | put (i : Fin n)
  /-- A thread of the bus of a map makes a step. -/
  | thread (i : Fin n) (a : Deployment.Action ι IPv4Addr MAC) (ha : a.Internal) (time : Int64)

variable {W} (s : State H T F n ι)

/-- The reader: its maps are those of its buses. -/
def node (W : Wiring n IPv4Addr MAC ι) (s : State H T F n ι) :
    Option (MultiMapReaderNode H T n IPv4Addr MAC) :=
  s.observers.map fun (observers, latches) =>
    { maps := fun i => ((s.bus i).participant W.reader).map
      observers := observers
      latches := latches }

variable (H T F) in
/-- Nobody has opened a map yet, and the topics have what earlier runs have left there. The
constructor of the reader may throw. -/
def init (W : Wiring n IPv4Addr MAC ι) (earlier : Fin n → List Bytes) : State H T F n ι where
  bus := fun i => .init H T F ι (earlier i)
  begun := false
  written := fun _ => 0
  observers := (MultiMapReaderNode.init W.benchmarkWrites W.warmupWrites W.tableSize :
    Option (MultiMapReaderNode H T n IPv4Addr MAC)).map fun node => (node.observers, node.latches)
  handed := []

/-- The maps have been opened by their writers and by the reader. -/
def Opened (W : Wiring n IPv4Addr MAC ι) (s : State H T F n ι) : Prop :=
  ∀ i, ((s.bus i).participant (W.writer i)).subscribed = true ∧
    ((s.bus i).participant W.reader).subscribed = true

instance : Decidable (W.Opened s) := by
  unfold Opened
  infer_instance

variable [DecidableEq ι]

/-- The opinion that a step hands to the map of the reader. -/
def handedOver? (reader : ι) (s : Deployment H T F ι) :
    Deployment.Action ι IPv4Addr MAC → Option (Opinion IPv4Addr (ArpCacheEntry MAC))
  | .act p .handOver => if p = reader then (s.participant p).buffered.head? else none
  | _ => none

/-- One step of the nodes. A node that is not at the step does nothing. -/
def step (W : Wiring n IPv4Addr MAC ι) (s : State H T F n ι) :
    Action n ι IPv4Addr MAC → State H T F n ι
  | .barrier => if W.Opened s then { s with begun := true } else s
  | .put i =>
    match s.begun, (W.stream i)[s.written i]? with
    | true, some put =>
      { s with
        bus := Function.update s.bus i
          (Deployment.step W.ownerOf (s.bus i) (.act (W.writer i) (.putOpinion put.ip put.entry)))
        written := Function.update s.written i (s.written i + 1) }
    | _, _ => s
  | .thread i a _ time =>
    let bus := Function.update s.bus i (Deployment.step W.ownerOf (s.bus i) a)
    match handedOver? W.reader (s.bus i) a with
    | none => { s with bus := bus }
    | some op =>
      { s with
        bus := bus
        -- the map emits what has changed, and the observer is called
        observers := ((W.node s).bind (·.onNewOpinion i op time)).map fun node =>
          (node.observers, node.latches)
        handed := s.handed ++ [(i, op, time)] }

section Sound

/-- What holds of the bus of a map with a new name in every run: its records come from the writer,
after the barrier, and can be decoded, and no message has come before the reader listened. -/
structure SoundBus (W : Wiring n IPv4Addr MAC ι) (i : Fin n) (begun : Bool) (written : ℕ)
    (bus : Deployment H T F ι) : Prop where
  earlier_eq : bus.earlier = []
  consistent : bus.Consistent
  accounted : bus.Accounted
  records : bus.AllRecords fun p r =>
    begun = true ∧ p = W.writer i ∧ fromBytes F r.bytes = .ok r.opinion
  puts_eq : (bus.participant (W.writer i)).puts =
    ((W.stream i).take written).map (W.opinion i)
  opened : begun = true → (bus.participant (W.writer i)).subscribed = true ∧
    (bus.participant W.reader).subscribed = true
  unheard_eq : (bus.participant W.reader).unheard = []

/-- All buses are as they should be. -/
def Sound (W : Wiring n IPv4Addr MAC ι) (s : State H T F n ι) : Prop :=
  ∀ i, W.SoundBus i s.begun (s.written i) (s.bus i)

/-- Before anything is written the new buses are sound. -/
theorem sound_init {earlier : Fin n → List Bytes} (hnew : ∀ i, earlier i = []) :
    W.Sound (W.init H T F earlier) := fun i =>
  { earlier_eq := hnew i
    consistent := fun _ => Participant.consistent_init _
    accounted := fun _ _ => rfl
    records := by simp [init, Deployment.AllRecords, Deployment.init, Participant.init]
    puts_eq := by simp [init, Deployment.init, Participant.init]
    opened := fun h => nomatch h
    unheard_eq := rfl }

variable {s} {i : Fin n} {begun : Bool} {written : ℕ} {bus : Deployment H T F ι}

omit [DecidableEq IPv4Addr] [DecidableEq MAC] [DecidableEq ι] in
/-- The record of a write can be decoded. -/
theorem fromBytes_put (hF : F.Lawful) {put : Put IPv4Addr MAC} (hput : put ∈ W.stream i) :
    fromBytes F (Record.put F (W.ownerOf (W.writer i)) put.ip put.entry).bytes =
      .ok (W.opinion i put) := by
  have hsent : 0 ≤ put.sentAt.toInt := by
    simp only [Setting.stream, List.mem_mapIdx] at hput
    obtain ⟨k, _, rfl⟩ := hput
    exact W.sentAt_nonneg i k
  have hzero : 0 ≤ (0 : Int64).toInt := by decide
  have hvalue : put.entry.NonNegative := ⟨hzero, hsent, hzero⟩
  have hname := W.isOwnerName i
  rw [opinion, W.owner_eq i]
  rw [W.owner_eq i] at hname
  obtain ⟨bytes, hbytes, hok⟩ := fromBytes_serialize hF put.ip hvalue hname
  cases hbytes
  exact hok

/-- After the barrier the writer makes a write. -/
theorem SoundBus.put (hF : F.Lawful) (h : W.SoundBus i true written bus)
    {put : Put IPv4Addr MAC} (hput : (W.stream i)[written]? = some put) :
    W.SoundBus i true (written + 1)
      (bus.step W.ownerOf (.act (W.writer i) (.putOpinion put.ip put.entry))) := by
  have hsub := (h.opened rfl).1
  -- the writer gets a record to send, and nobody changes otherwise
  have hsame : ∀ q, ((bus.step W.ownerOf
      (.act (W.writer i) (.putOpinion put.ip put.entry))).participant q).subscribed =
        (bus.participant q).subscribed ∧
      ((bus.step W.ownerOf
      (.act (W.writer i) (.putOpinion put.ip put.entry))).participant q).unheard =
        (bus.participant q).unheard := by
    intro q
    by_cases hq : q = W.writer i
    · subst hq
      simp [Deployment.step, Participant.step, hsub]
    · simp [Deployment.step, hq]
  refine ⟨(Deployment.earlier_step _).trans h.earlier_eq, h.consistent.step _, h.accounted.step _,
    h.records.step _ ?_, ?_, fun _ => ?_, ?_⟩
  · intro p key value hact
    cases hact
    refine ⟨rfl, rfl, ?_⟩
    rw [fromBytes_put hF (List.mem_of_getElem? hput), opinion, W.owner_eq i]
    rfl
  · simp only [Deployment.step, Function.update_self, Participant.step, hsub, if_true]
    rw [h.puts_eq, List.take_add_one, hput, Option.toList_some, List.map_append,
      List.map_singleton, opinion, W.owner_eq i]
  · exact ⟨(hsame _).1.trans (h.opened rfl).1, (hsame _).1.trans (h.opened rfl).2⟩
  · exact (hsame _).2.trans h.unheard_eq

/-- The messages are those of this run. -/
theorem SoundBus.messages_eq (h : W.SoundBus i begun written bus) :
    bus.messages = bus.topic.map fun e => e.2.bytes := by
  rw [Deployment.messages, h.earlier_eq, List.nil_append]

/-- Before the barrier the topic has no message. -/
theorem SoundBus.messages_eq_nil (h : W.SoundBus i false written bus) : bus.messages = [] := by
  rw [h.messages_eq, List.map_eq_nil_iff, List.eq_nil_iff_forall_not_mem]
  intro e he
  cases (h.records.1 e he).1

/-- A thread makes a step. -/
theorem SoundBus.thread (h : W.SoundBus i begun written bus) {a : Deployment.Action ι IPv4Addr MAC}
    (ha : a.Internal) : W.SoundBus i begun written (bus.step W.ownerOf a) := by
  have hframe := Deployment.frame_step (s := bus) W.ownerOf ha
  refine ⟨(Deployment.earlier_step _).trans h.earlier_eq, h.consistent.step _, h.accounted.step _,
    h.records.step _ ?_, ?_, fun hbegun => ?_, ?_⟩
  · rintro p key value rfl
    exact ha.elim
  · exact (hframe _).puts_eq.trans h.puts_eq
  · exact ⟨(hframe _).subscribed (h.opened hbegun).1, (hframe _).subscribed (h.opened hbegun).2⟩
  · refine ((hframe _).unheard_eq ?_).trans h.unheard_eq
    cases begun with
    | true => exact .inl (h.opened rfl).2
    | false =>
      -- there is no message that the consumer could have taken
      have hreceived := (h.consistent W.reader).received
      rw [h.messages_eq_nil] at hreceived
      simp only [List.take_nil, KafkaBus.emitted_nil, List.append_eq_nil_iff,
        Option.toList_eq_nil_iff] at hreceived
      exact .inr hreceived.2.2

theorem SoundBus.begin (h : W.SoundBus i begun written bus)
    (hopened : (bus.participant (W.writer i)).subscribed = true ∧
      (bus.participant W.reader).subscribed = true) : W.SoundBus i true written bus where
  earlier_eq := h.earlier_eq
  consistent := h.consistent
  accounted := h.accounted
  records := h.records.mono fun _ _ hr => ⟨rfl, hr.2⟩
  puts_eq := h.puts_eq
  opened := fun _ => hopened
  unheard_eq := h.unheard_eq

/-- Every step keeps the buses as they should be. -/
theorem Sound.step (hF : F.Lawful) (h : W.Sound s) (a : Action n ι IPv4Addr MAC) :
    W.Sound (W.step s a) := by
  intro j
  cases a with
  | barrier =>
    simp only [Wiring.step]
    split
    · next hopened => exact (h j).begin (hopened j)
    · exact h j
  | put i =>
    simp only [Wiring.step]
    split
    · next put hbegun hput =>
      by_cases hj : j = i
      · subst hj
        have hbus := h j
        rw [hbegun] at hbus
        simpa [hbegun] using hbus.put hF hput
      · simpa [hj] using h j
    · exact h j
  | thread i a ha time =>
    have hbus : W.SoundBus j s.begun (s.written j)
        (Function.update s.bus i (Deployment.step W.ownerOf (s.bus i) a) j) := by
      by_cases hj : j = i
      · subst hj
        simpa using (h j).thread ha
      · simpa [hj] using h j
    simp only [Wiring.step]
    split <;> exact hbus

/-- What the reader has been handed is a part of the opinions in the topic. -/
theorem SoundBus.handed_isPrefix (h : W.SoundBus i begun written bus) :
    (bus.participant W.reader).handed <+: bus.topic.map fun e => e.2.opinion := by
  have hreceived := (h.consistent W.reader).received
  rw [h.unheard_eq, List.nil_append, h.messages_eq, ← List.map_take,
    KafkaBus.emitted_map fun e he => (h.records.1 e (List.mem_of_mem_take he)).2.2,
    List.append_assoc] at hreceived
  have htaken : (bus.participant W.reader).handed <+:
      (bus.topic.take (bus.participant W.reader).offset).map fun e => e.2.opinion := ⟨_, hreceived⟩
  exact htaken.trans ((List.take_prefix _ _).map _)

/-- If the producer of the writer has lost nothing, these are the first writes. -/
theorem SoundBus.topic_isPrefix (h : W.SoundBus i begun written bus)
    (hlost : (bus.participant (W.writer i)).lost = []) :
    (bus.topic.map fun e => e.2.opinion) ++
        (bus.participant (W.writer i)).outbox.map Record.opinion =
      ((W.stream i).take written).map (W.opinion i) := by
  have hsent := h.accounted (W.writer i) hlost
  rw [Deployment.sent, Interleaving.of_eq_map fun e he => (h.records.1 e he).2.1, List.map_map,
    h.puts_eq] at hsent
  exact hsent

end Sound

section Reads

/-- What the reader has been handed are deliveries of the writes, each once and in order, and the
reader is where they lead it. -/
structure Reads (W : Wiring n IPv4Addr MAC ι) (s : State H T F n ι)
    (events : List (Fin n × Delivery IPv4Addr MAC)) : Prop where
  handed_eq : s.handed = events.map fun e => (e.1, W.opinion e.1 e.2.put, e.2.receivedAt)
  delivers : W.Delivers events
  node_eq : W.node s = W.run H T events
  ofMap_eq : ∀ i, ((s.bus i).participant W.reader).handed =
    (Interleaving.of i events).map fun d => W.opinion i d.put

omit [DecidableEq ι] in
/-- Before anything is written the reader's accounts are empty. -/
theorem reads_init (earlier : Fin n → List Bytes) : W.Reads (W.init H T F earlier) [] where
  handed_eq := rfl
  delivers := fun _ => List.nil_prefix
  node_eq := by
    simp [node, init, Setting.run, W.toSetting.init_eq H T, Deployment.init, Participant.init]
  ofMap_eq := fun _ => rfl

variable {s} {i : Fin n} {events : List (Fin n × Delivery IPv4Addr MAC)}
variable {bus : Deployment H T F ι} {reader : ι}

omit [FiniteMap H] [FiniteMap T] [DecidableEq IPv4Addr] [DecidableEq MAC] in
/-- What is handed over is the first opinion in the buffer. -/
theorem handedOver?_eq_some {a : Deployment.Action ι IPv4Addr MAC}
    {op : Opinion IPv4Addr (ArpCacheEntry MAC)}
    (h : handedOver? reader bus a = some op) :
    a = .act reader .handOver ∧ ∃ rest, (bus.participant reader).buffered = op :: rest := by
  unfold handedOver? at h
  split at h
  · next p =>
    split at h
    · next hp =>
      subst hp
      exact ⟨rfl, List.head?_eq_some_iff.mp h⟩
    · cases h
  · cases h

variable (owner : ι → String)

/-- A step that hands an opinion to the reader. -/
theorem step_of_handedOver?_some {a : Deployment.Action ι IPv4Addr MAC}
    {op : Opinion IPv4Addr (ArpCacheEntry MAC)} (h : handedOver? reader bus a = some op) :
    ((bus.step owner a).participant reader).map =
        MergedMap.onNewOpinion arpOrdering (bus.participant reader).map op ∧
      ((bus.step owner a).participant reader).handed =
        (bus.participant reader).handed ++ [op] := by
  obtain ⟨rfl, rest, hbuffered⟩ := handedOver?_eq_some h
  simp [Deployment.step, Participant.step, hbuffered]

/-- Any other step leaves the map of the reader as it is. -/
theorem step_of_handedOver?_none {a : Deployment.Action ι IPv4Addr MAC}
    (h : handedOver? reader bus a = none) :
    ((bus.step owner a).participant reader).map = (bus.participant reader).map ∧
      ((bus.step owner a).participant reader).handed = (bus.participant reader).handed := by
  cases a with
  | send p =>
    cases hout : (bus.participant p).outbox with
    | nil =>
      rw [Deployment.step_send_nil hout]
      exact ⟨rfl, rfl⟩
    | cons record rest =>
      rw [Deployment.step_send hout]
      by_cases hp : reader = p
      · subst hp
        simp
      · simp [hp]
  | act p a =>
    by_cases hp : reader = p
    · subst hp
      by_cases ha : a = .handOver
      · subst ha
        -- the buffer is empty
        have hbuffered : (bus.participant reader).buffered = [] := by
          simpa [handedOver?] using h
        simp [Deployment.step, Participant.step, hbuffered]
      · simpa [Deployment.step] using Participant.step_of_ne_handOver (owner reader) ha
    · simp [Deployment.step, hp]

/-- When an opinion is handed over, the reader is called. -/
theorem node_of_handedOver?_some {a : Deployment.Action ι IPv4Addr MAC} (ha : a.Internal)
    (time : Int64) {op : Opinion IPv4Addr (ArpCacheEntry MAC)}
    (h : handedOver? W.reader (s.bus i) a = some op) :
    W.node (W.step s (.thread i a ha time)) = (W.node s).bind (·.onNewOpinion i op time) := by
  obtain ⟨hmap, -⟩ := step_of_handedOver?_some W.ownerOf h
  -- the map of the bus is the one that the reader has then
  have hmaps : (fun j => ((Function.update s.bus i (Deployment.step W.ownerOf (s.bus i) a) j)
      |>.participant W.reader).map) =
      Function.update (fun j => ((s.bus j).participant W.reader).map) i
        (MergedMap.onNewOpinion arpOrdering ((s.bus i).participant W.reader).map op) := by
    funext j
    by_cases hj : j = i
    · subst hj
      simpa using hmap
    · simp [hj]
  simp only [step, h, node, hmaps]
  cases s.observers with
  | none => rfl
  | some state =>
    obtain ⟨observers, latches⟩ := state
    simp only [Option.map_some, Option.bind_some, Option.map_map, MultiMapReaderNode.onNewOpinion]
    cases List.foldlM (m := Option) _ _ _ with
    | none => rfl
    | some state => rfl

/-- Any other step of a bus leaves the maps of the reader as they are. -/
theorem reader_of_handedOver?_none {a : Deployment.Action ι IPv4Addr MAC}
    (h : handedOver? W.reader (s.bus i) a = none) (j : Fin n) :
    ((Function.update s.bus i (Deployment.step W.ownerOf (s.bus i) a) j).participant W.reader).map =
        ((s.bus j).participant W.reader).map ∧
      ((Function.update s.bus i (Deployment.step W.ownerOf (s.bus i) a) j).participant
        W.reader).handed = ((s.bus j).participant W.reader).handed := by
  by_cases hj : j = i
  · subst hj
    rw [Function.update_self]
    exact step_of_handedOver?_none W.ownerOf h
  · rw [Function.update_of_ne hj]
    exact ⟨rfl, rfl⟩

omit [DecidableEq ι] in
/-- The reader reads on as long as its maps and observers stay as they are. -/
theorem Reads.congr (h : W.Reads s events) {s' : State H T F n ι} (hhanded : s'.handed = s.handed)
    (hobservers : s'.observers = s.observers)
    (hreader : ∀ j, ((s'.bus j).participant W.reader).map = ((s.bus j).participant W.reader).map ∧
      ((s'.bus j).participant W.reader).handed = ((s.bus j).participant W.reader).handed) :
    W.Reads s' events where
  handed_eq := hhanded.trans h.handed_eq
  delivers := h.delivers
  node_eq := by
    have hmaps : (fun j => ((s'.bus j).participant W.reader).map) =
        fun j => ((s.bus j).participant W.reader).map := funext fun j => (hreader j).1
    rw [← h.node_eq, node, node, hobservers, hmaps]
  ofMap_eq := fun j => (hreader j).2.trans (h.ofMap_eq j)

/-- The producers have lost none of the writes. -/
def Kept (W : Wiring n IPv4Addr MAC ι) (s : State H T F n ι) : Prop :=
  ∀ i, ((s.bus i).participant (W.writer i)).lost = []

/-- What is lost stays lost. -/
theorem Kept.of_step {a : Action n ι IPv4Addr MAC} (h : W.Kept (W.step s a)) : W.Kept s := by
  intro j
  have hj := h j
  cases a with
  | barrier =>
    simp only [step] at hj
    split at hj <;> exact hj
  | put i =>
    simp only [step] at hj
    split at hj
    · next put hbegun hput =>
      by_cases hji : j = i
      · subst hji
        simp only [Function.update_self, Deployment.step, Participant.step] at hj
        split at hj <;> exact hj
      · simpa [hji] using hj
    · exact hj
  | thread i a ha time =>
    have hbus : ((Function.update s.bus i (Deployment.step W.ownerOf (s.bus i) a) j).participant
        (W.writer j)).lost = [] := by
      simp only [step] at hj
      split at hj <;> exact hj
    by_cases hji : j = i
    · subst hji
      rw [Function.update_self] at hbus
      exact List.prefix_nil.mp
        (hbus ▸ (Deployment.frame_step W.ownerOf ha (W.writer j)).lost_isPrefix)
    · simpa [hji] using hbus

/-- What the reader has been handed are the first writes. -/
theorem SoundBus.handed_isPrefix_stream {begun : Bool} {written : ℕ}
    (h : W.SoundBus i begun written bus) (hlost : (bus.participant (W.writer i)).lost = []) :
    (bus.participant W.reader).handed <+: (W.stream i).map (W.opinion i) := by
  have htopic : (bus.topic.map fun e => e.2.opinion) <+:
      ((W.stream i).take written).map (W.opinion i) := ⟨_, h.topic_isPrefix hlost⟩
  exact (h.handed_isPrefix.trans htopic).trans ((List.take_prefix _ _).map _)

omit [DecidableEq IPv4Addr] [DecidableEq MAC] [DecidableEq ι] in
/-- The bus delivers one more write. -/
theorem delivers_concat (hdel : W.Delivers events) {put : Put IPv4Addr MAC} (time : Int64)
    (hput : (W.stream i)[(Interleaving.of i events).length]? = some put) :
    W.Delivers (events ++ [(i, ⟨put, time⟩)]) := by
  intro j
  by_cases hj : j = i
  · subst hj
    obtain ⟨rest, hrest⟩ := hdel j
    have htake : (Interleaving.of j events).map Delivery.put =
        (W.stream j).take (Interleaving.of j events).length := by
      rw [← hrest, List.take_left' (List.length_map _)]
    rw [Interleaving.of_concat_self, List.map_append, List.map_singleton, htake]
    have hnext := List.take_add_one (l := W.stream j) (i := (Interleaving.of j events).length)
    rw [hput, Option.toList_some] at hnext
    rw [← hnext]
    exact List.take_prefix _ _
  · rw [Interleaving.of_concat_of_ne hj]
    exact hdel j

/-- The reader is handed the next write of a map. -/
theorem Reads.handOver (h : W.Reads s events) {a : Deployment.Action ι IPv4Addr MAC}
    (ha : a.Internal) (time : Int64) {op : Opinion IPv4Addr (ArpCacheEntry MAC)}
    (hop : handedOver? W.reader (s.bus i) a = some op)
    (hwrites : ((Deployment.step W.ownerOf (s.bus i) a).participant W.reader).handed <+:
      (W.stream i).map (W.opinion i)) :
    ∃ events', W.Reads (W.step s (.thread i a ha time)) events' := by
  obtain ⟨-, hhanded⟩ := step_of_handedOver?_some W.ownerOf hop
  rw [hhanded, h.ofMap_eq i] at hwrites
  obtain ⟨put, hput, rfl⟩ := exists_of_concat_isPrefix_map hwrites
  rw [List.length_map] at hput
  refine ⟨events ++ [(i, ⟨put, time⟩)], ?_, delivers_concat h.delivers time hput, ?_, fun j => ?_⟩
  · simp only [Wiring.step, hop, h.handed_eq, List.map_append, List.map_singleton]
  · -- the call of the reader is the one for this delivery
    rw [node_of_handedOver?_some ha time hop, h.node_eq, Setting.run_concat]
    rfl
  · simp only [Wiring.step, hop]
    by_cases hj : j = i
    · subst hj
      rw [Function.update_self, hhanded, h.ofMap_eq j, Interleaving.of_concat_self, List.map_append,
        List.map_singleton]
    · rw [Function.update_of_ne hj, Interleaving.of_concat_of_ne hj]
      exact h.ofMap_eq j

/-- A step hands the reader the next write of a map, or nothing. -/
theorem Reads.step (hF : F.Lawful) (hs : W.Sound s) (h : W.Reads s events)
    (a : Action n ι IPv4Addr MAC) (hkept : W.Kept (W.step s a)) :
    ∃ events', W.Reads (W.step s a) events' := by
  cases a with
  | barrier =>
    refine ⟨events, ?_⟩
    simp only [Wiring.step]
    split
    · exact h.congr rfl rfl fun _ => ⟨rfl, rfl⟩
    · exact h
  | put i =>
    refine ⟨events, ?_⟩
    simp only [Wiring.step]
    split
    · exact h.congr rfl rfl (reader_of_handedOver?_none rfl)
    · exact h
  | thread i a ha time =>
    cases hop : handedOver? W.reader (s.bus i) a with
    | none =>
      refine ⟨events, ?_⟩
      simp only [Wiring.step, hop]
      exact h.congr rfl rfl (reader_of_handedOver?_none hop)
    | some op =>
      refine h.handOver ha time hop ?_
      have hsound := hs.step hF (.thread i a ha time) i
      have hlost := hkept i
      simp only [Wiring.step, hop, Function.update_self] at hsound hlost
      exact hsound.handed_isPrefix_stream hlost

end Reads

variable {s}

/-- The run lemma: the buses stay as they should be, and as long as no write is lost, the reader is
handed the writes. -/
theorem sound_foldl (W : Wiring n IPv4Addr MAC ι) (hF : F.Lawful) {earlier : Fin n → List Bytes}
    (hnew : ∀ i, earlier i = []) (as : List (Action n ι IPv4Addr MAC)) :
    W.Sound (as.foldl W.step (W.init H T F earlier)) :=
  Run.inv_foldl (sound_init hnew) (fun _ a h => h.step hF a) as

theorem exists_reads (W : Wiring n IPv4Addr MAC ι) (hF : F.Lawful) {earlier : Fin n → List Bytes}
    (hnew : ∀ i, earlier i = []) (as : List (Action n ι IPv4Addr MAC))
    (hkept : W.Kept (as.foldl W.step (W.init H T F earlier))) :
    ∃ events, W.Reads (as.foldl W.step (W.init H T F earlier)) events := by
  induction as using List.reverseRecOn with
  | nil => exact ⟨[], reads_init earlier⟩
  | append_singleton as a ih =>
    rw [List.foldl_append, List.foldl_cons, List.foldl_nil] at hkept ⊢
    obtain ⟨events, hreads⟩ := ih hkept.of_step
    exact hreads.step hF (sound_foldl W hF hnew as) a hkept

/-- All writes have been made, and no thread has anything left to do. -/
def Finished (W : Wiring n IPv4Addr MAC ι) (s : State H T F n ι) : Prop :=
  ∀ i, s.written i = (W.stream i).length ∧ (s.bus i).Quiet W.ownerOf

/-- Then everything has been delivered. -/
theorem Reads.all_delivered {events : List (Fin n × Delivery IPv4Addr MAC)} (h : W.Reads s events)
    (hs : W.Sound s) (hkept : W.Kept s) (hfinished : W.Finished s) (i : Fin n) :
    (Interleaving.of i events).map Delivery.put = W.stream i := by
  obtain ⟨hwritten, hquiet⟩ := hfinished i
  have hsent := (hs i).topic_isPrefix (hkept i)
  rw [hquiet.outbox_eq_nil, List.map_nil, List.append_nil, hwritten, List.take_length] at hsent
  -- the reader is idle, so it has been handed the whole topic
  have hidle := (hquiet.idle (hs i).consistent W.reader).2
  have hhanded := ((hs i).consistent W.reader).received_of_idle hidle
  rw [(hs i).unheard_eq, List.nil_append, (hs i).messages_eq,
    KafkaBus.emitted_map fun e he => ((hs i).records.1 e he).2.2, hsent, h.ofMap_eq i] at hhanded
  refine (h.delivers i).eq_of_length_le ?_
  have hlength := congrArg List.length hhanded
  rw [List.length_map, List.length_map] at hlength
  rw [List.length_map, hlength]

/-- After the barrier, the next write is put. -/
theorem step_put {i : Fin n} (put : Put IPv4Addr MAC) (hbegun : s.begun = true)
    (hput : (W.stream i)[s.written i]? = some put) :
    (W.step s (.put i)).begun = true ∧ (W.step s (.put i)).written i = s.written i + 1 ∧
      (W.step s (.put i)).bus i = Deployment.step W.ownerOf (s.bus i)
        (.act (W.writer i) (.putOpinion put.ip put.entry)) := by
  simp [step, hbegun, hput]

/-- The threads of the buses move neither the benches nor their accounts. -/
theorem step_thread (i : Fin n) (a : Deployment.Action ι IPv4Addr MAC) (ha : a.Internal)
    (time : Int64) :
    (W.step s (.thread i a ha time)).begun = s.begun ∧
      (W.step s (.thread i a ha time)).written = s.written ∧
      (W.step s (.thread i a ha time)).bus =
        Function.update s.bus i (Deployment.step W.ownerOf (s.bus i) a) := by
  simp only [step]
  split <;> exact ⟨rfl, rfl, rfl⟩

/-- The threads of a bus on their own. -/
theorem foldl_threads (i : Fin n)
    (as : List ({a : Deployment.Action ι IPv4Addr MAC // a.Internal} × Int64)) :
    let s' := (as.map fun a => .thread i a.1.1 a.1.2 a.2).foldl W.step s
    s'.begun = s.begun ∧ s'.written = s.written ∧
      s'.bus i = (as.map fun a => a.1.1).foldl (Deployment.step W.ownerOf) (s.bus i) := by
  induction as generalizing s with
  | nil => exact ⟨rfl, rfl, rfl⟩
  | cons a as ih =>
    obtain ⟨hbegun, hwritten, hbus⟩ := step_thread (W := W) (s := s) i a.1.1 a.1.2 a.2
    obtain ⟨hbegun', hwritten', hbus'⟩ := ih (s := W.step s (.thread i a.1.1 a.1.2 a.2))
    refine ⟨hbegun'.trans hbegun, hwritten'.trans hwritten, hbus'.trans ?_⟩
    rw [hbus, Function.update_self]
    rfl

theorem one_le_sampleSize : (1 : Int32) ≤ 1 := by decide

theorem zero_le_sampleWrites : (0 : Int32) ≤ 1 := by decide

/-- One map with one address and one benchmark write, and two nodes. -/
def sample : Wiring 1 (Octets 4) (Octets 6) Bool where
  tableSize := 1
  warmupWrites := 0
  benchmarkWrites := 1
  tableSize_pos := one_le_sampleSize
  warmupWrites_nonneg := by decide
  benchmarkWrites_nonneg := zero_le_sampleWrites
  map _ := "auto0_0"
  owner _ := "node1"
  writerMaps _ := ["auto0_0"]
  written_once _ := by decide
  address _ := sampleAddress
  draw _ _ _ := sampleAddress
  mac _ _ := (sampleEntry 0).macAddr
  sentAt _ _ := 5
  ownerOf := Deployment.twoOwners
  writer _ := true
  reader := false
  owner_eq _ := rfl
  isOwnerName _ := ⟨by decide, by decide⟩
  sentAt_nonneg _ _ := by decide

/-- A step of the thread of a bus, with a time. -/
abbrev SampleStep : Type := {a : Deployment.Action Bool (Octets 4) (Octets 6) // a.Internal} × Int64

/-- Both nodes open the map. -/
def sampleOpening : List SampleStep :=
  [(⟨.act true .startConsumer, trivial⟩, 0), (⟨.act true .subscribe, trivial⟩, 0),
    (⟨.act false .startConsumer, trivial⟩, 0), (⟨.act false .subscribe, trivial⟩, 0)]

/-- A node receives a message. -/
def sampleReception (p : Bool) (time : Int64) : List SampleStep :=
  [(⟨.act p .take, trivial⟩, 0), (⟨.act p .emit, trivial⟩, 0), (⟨.act p .handOver, trivial⟩, time)]

/-- The two writes are sent and received. -/
def sampleDelivery : List SampleStep :=
  [(⟨.send true, trivial⟩, 0), (⟨.send true, trivial⟩, 0)] ++ sampleReception false 8 ++
    sampleReception false 9 ++ sampleReception true 0 ++ sampleReception true 0

/-- Both nodes open the map, and the writer makes its two writes. -/
def sampleRun : List (Action 1 Bool (Octets 4) (Octets 6)) :=
  sampleOpening.map (fun a => .thread 0 a.1.1 a.1.2 a.2) ++ [.barrier, .put 0, .put 0] ++
    sampleDelivery.map (fun a => .thread 0 a.1.1 a.1.2 a.2)

/-- The writes of the sample. -/
def samplePut (callback : Callback) : Put (Octets 4) (Octets 6) :=
  ⟨callback, sampleAddress, (sampleEntry 0).macAddr, 5⟩

theorem stream_sample (i : Fin 1) : sample.stream i = [samplePut .setup, samplePut .run] := rfl

/-- Where the bus ends: its nodes have been handed both writes. -/
def sampleBus : Deployment AssocMap AssocMap dottedFormats Bool where
  earlier := []
  topic := List.replicate 2 (true, .put dottedFormats "node1" sampleAddress (sampleEntry 5))
  participant := fun b =>
    { outbox := [], started := true, subscribed := true, offset := 2, inHand := none
      ended := false, buffered := []
      map := onNewOpinion arpOrdering (onNewOpinion arpOrdering MergedMap.init
        Deployment.sampleOpinion) Deployment.sampleOpinion
      puts := if b then List.replicate 2 Deployment.sampleOpinion else []
      lost := [], unheard := [], handed := List.replicate 2 Deployment.sampleOpinion }

/-- Where the sample run leads. -/
theorem foldl_sampleRun :
    let s := sampleRun.foldl sample.step (sample.init AssocMap AssocMap dottedFormats fun _ => [])
    s.written 0 = 2 ∧ s.bus 0 = sampleBus := by
  intro s
  -- the nodes open the map, and come through the barrier
  obtain ⟨-, hwritten₁, hbus₁⟩ := foldl_threads (W := sample)
    (s := sample.init AssocMap AssocMap dottedFormats fun _ => []) 0 sampleOpening
  set s₁ := (sampleOpening.map fun a => .thread 0 a.1.1 a.1.2 a.2).foldl sample.step
    (sample.init AssocMap AssocMap dottedFormats fun _ => [])
  have hopened : sample.Opened s₁ := by
    intro i
    rw [Subsingleton.elim i 0, hbus₁]
    simp [sampleOpening, init, Deployment.step, Participant.step, Deployment.init,
      Participant.init, sample]
  -- the writer makes both writes
  have hbarrier : sample.step s₁ .barrier = { s₁ with begun := true } := by
    rw [step, if_pos hopened]
  obtain ⟨hbegun₂, hwritten₂, hbus₂⟩ := step_put (W := sample) (s := { s₁ with begun := true })
    (i := 0) (samplePut .setup) rfl (by rw [hwritten₁, stream_sample]; rfl)
  set s₂ := sample.step { s₁ with begun := true } (.put 0)
  obtain ⟨-, hwritten₃, hbus₃⟩ := step_put (W := sample) (s := s₂) (i := 0)
    (samplePut .run) hbegun₂ (by rw [hwritten₂, hwritten₁, stream_sample]; rfl)
  -- and the threads of the bus deliver them
  obtain ⟨-, hwritten, hbus⟩ := foldl_threads (W := sample) (s := sample.step s₂ (.put 0)) 0
    sampleDelivery
  have hs : s = (sampleDelivery.map fun a => Action.thread 0 a.1.1 a.1.2 a.2).foldl sample.step
      (sample.step s₂ (.put 0)) := by
    simp only [s, s₁, s₂, sampleRun, List.foldl_append, List.foldl_cons, List.foldl_nil, ← hbarrier]
  rw [hs, hwritten, hwritten₃, hwritten₂, hbus, hbus₃, hbus₂, hwritten₁, hbus₁]
  refine ⟨rfl, ?_⟩
  have hdecode : ∀ callback, fromBytes dottedFormats (Record.put dottedFormats
      (Deployment.twoOwners true) (samplePut callback).ip (samplePut callback).entry).bytes =
        .ok Deployment.sampleOpinion := fun _ => Deployment.fromBytes_put_sample
  simp [sampleOpening, sampleDelivery, sampleReception, init, Deployment.step, Participant.step,
    Deployment.init, Participant.init, Deployment.messages, sample, hdecode, sampleBus]
  refine ⟨⟨rfl, rfl⟩, funext fun b => ?_⟩
  cases b <;> rfl

end Wiring

end LatencyNodes
