import StateTableBench.Collections.Interleaving
import StateTableBench.KafkaBus.Consumer
import StateTableBench.MergedMap.Opinions

/-!
# A deployment of one ARP map

Several participants share one map through the topic of its Kafka buses. Every participant has a
producer, a consumer thread and a merged map, and all their steps may interleave: a put is
serialised and accepted by the producer, the producer sends the records it has accepted one after
the other or fails to send one and only logs, the consumer thread takes the messages of the topic
in order, and the scheduler hands to the map those that were emitted after the map had subscribed.
The topic may have messages of earlier runs. The callers put opinions and do nothing else: removals,
which the encoder answers with an exception that ends the bus, and calls of `shutdown` are left out.

* `Record F` — an opinion together with the bytes that the encoder made of it;
* `Participant.step`, `Deployment.step` — the steps of one participant, and of all of them;
* `Participant.Consistent` — what a participant has received is what its consumer emits from the
  part of the topic that it has taken;
* `map_eq_of_idle` — participants with nothing left to do that have missed equally many messages
  have the same map, malformed messages or not;
* `opinion_eq_last_put` — and they hold the last put of every owner all of whose puts were sent.
-/

open FiniteMap

namespace ArpMergedMap

open MergedMap KafkaBus

variable {H T : Type → Type → Type} [FiniteMap H] [FiniteMap T]
variable {IPv4Addr MAC Bytes : Type} [DecidableEq IPv4Addr] [DecidableEq MAC]

/-- A record that a producer has accepted: an opinion and the bytes that stand for it. -/
structure Record (F : Formats IPv4Addr MAC Bytes) where
  opinion : Opinion IPv4Addr (ArpCacheEntry MAC)
  bytes : Bytes
  serialized : serialize F opinion = .ok bytes

/-- The record of a put. The encoder does not throw on a value. -/
def Record.put (F : Formats IPv4Addr MAC Bytes) (owner : String) (key : IPv4Addr)
    (value : ArpCacheEntry MAC) : Record F where
  opinion := ⟨key, some value, owner⟩
  bytes := _
  serialized := rfl

variable {F : Formats IPv4Addr MAC Bytes}

variable (H T F) in
/-- A participant: the two ends of its bus and its map. -/
structure Participant where
  /-- The records that the producer has accepted and not sent yet. -/
  outbox : List (Record F)
  /-- The consumer thread has been started. -/
  started : Bool
  /-- The map has subscribed to `opinionObservable`. -/
  subscribed : Bool
  /-- The number of messages that the consumer has taken from the topic. -/
  offset : ℕ
  /-- The message that the consumer has decoded and not emitted yet. -/
  inHand : Option (Opinion IPv4Addr (ArpCacheEntry MAC))
  /-- A message could not be decoded, and the consumer loop has ended. -/
  ended : Bool
  /-- The opinions buffered for the map. -/
  buffered : List (Opinion IPv4Addr (ArpCacheEntry MAC))
  map : MergedMap H T IPv4Addr (ArpCacheEntry MAC)
  /-- The opinions that were put so far. -/
  puts : List (Opinion IPv4Addr (ArpCacheEntry MAC))
  /-- The opinions that the producer has failed to send. -/
  lost : List (Opinion IPv4Addr (ArpCacheEntry MAC))
  /-- The opinions that were emitted before the map had subscribed. -/
  unheard : List (Opinion IPv4Addr (ArpCacheEntry MAC))
  /-- The opinions handed to `onNewOpinion`. -/
  handed : List (Opinion IPv4Addr (ArpCacheEntry MAC))

namespace Participant

/-- The steps that a participant takes on its own. -/
inductive Action (IPv4Addr MAC : Type)
  /-- The opening thread submits `consumerRunnable`. -/
  | startConsumer
  /-- The constructor of the map subscribes to `opinionObservable`. -/
  | subscribe
  /-- A call of `putOpinion` on the map. -/
  | putOpinion (key : IPv4Addr) (value : ArpCacheEntry MAC)
  /-- The first record of the producer is not acknowledged: `sendCallBack` only logs. -/
  | sendFails
  /-- The consumer thread takes the next message and decodes it. -/
  | take
  /-- The consumer thread emits the message on `inputSubj`. -/
  | emit
  /-- The scheduler of the map hands a buffered opinion to `onNewOpinion`. -/
  | handOver

variable (H T F) in
/-- A participant that has not opened the map yet. -/
def init : Participant H T F where
  outbox := []
  started := false
  subscribed := false
  offset := 0
  inHand := none
  ended := false
  buffered := []
  map := MergedMap.init
  puts := []
  lost := []
  unheard := []
  handed := []

/-- One step of a participant on a topic. A thread that is not at the step, or is blocked there,
does nothing. -/
def step (owner : String) (topic : List Bytes) (m : Participant H T F) :
    Action IPv4Addr MAC → Participant H T F
  | .startConsumer => { m with started := true }
  | .subscribe => if m.started then { m with subscribed := true } else m
  -- the caller has the map only after its constructor has returned
  | .putOpinion key value =>
    if m.subscribed then
      { m with
        outbox := m.outbox ++ [.put F owner key value]
        puts := m.puts ++ [⟨key, some value, owner⟩] }
    else m
  | .sendFails =>
    match m.outbox with
    | [] => m
    | record :: rest => { m with outbox := rest, lost := m.lost ++ [record.opinion] }
  | .take =>
    match m.started, m.ended, m.inHand, topic[m.offset]? with
    | true, false, none, some msg =>
      match fromBytes F msg with
      | .ok opinion => { m with offset := m.offset + 1, inHand := some opinion }
      -- the exception ends the loop, and is only logged
      | .error _ => { m with offset := m.offset + 1, ended := true }
    | _, _, _, _ => m
  | .emit =>
    match m.inHand with
    | none => m
    | some opinion =>
      if m.subscribed then { m with inHand := none, buffered := m.buffered ++ [opinion] }
      -- the subject has no subscriber: nobody receives the opinion
      else { m with inHand := none, unheard := m.unheard ++ [opinion] }
  | .handOver =>
    match m.buffered with
    | [] => m
    | opinion :: rest =>
      { m with
        buffered := rest
        map := onNewOpinion arpOrdering m.map opinion
        handed := m.handed ++ [opinion] }

/-- What a participant has received is what its consumer emits from the messages it has taken: those
that came too early, those handed to the map, those buffered for it and the one in hand. -/
structure Consistent (topic : List Bytes) (m : Participant H T F) : Prop where
  offset_le : m.offset ≤ topic.length
  received : m.unheard ++ (m.handed ++ m.buffered ++ m.inHand.toList) =
    emitted (fromBytes F) (topic.take m.offset)
  alive_iff : m.ended = false ↔
    ∀ msg ∈ topic.take m.offset, ∃ opinion, fromBytes F msg = .ok opinion
  map_eq : m.map = handleAll arpOrdering m.handed
  silent : m.subscribed = false → m.handed = [] ∧ m.buffered = []

variable {topic : List Bytes} {m : Participant H T F}

/-- A participant that has not started has read and handled nothing. -/
theorem consistent_init (topic : List Bytes) : (init H T F).Consistent topic where
  offset_le := Nat.zero_le _
  received := rfl
  alive_iff := by simp [init]
  map_eq := rfl
  silent := fun _ => ⟨rfl, rfl⟩

/-- Further messages do not matter until they are taken. -/
theorem Consistent.append (h : m.Consistent topic) (msgs : List Bytes) :
    m.Consistent (topic ++ msgs) := by
  have htake : (topic ++ msgs).take m.offset = topic.take m.offset :=
    List.take_append_of_le_length h.offset_le
  refine ⟨?_, htake ▸ h.received, htake ▸ h.alive_iff, h.map_eq, h.silent⟩
  rw [List.length_append]
  exact h.offset_le.trans (Nat.le_add_right _ _)

/-- Taking the next message keeps what was taken a prefix of the topic. -/
theorem Consistent.step_take (h : m.Consistent topic) (owner : String) :
    (m.step owner topic .take).Consistent topic := by
  simp only [step]
  split
  · next msg hstarted hended hhand hmsg =>
    have hlt : m.offset + 1 ≤ topic.length := (List.getElem?_eq_some_iff.mp hmsg).1
    have htake : topic.take (m.offset + 1) = topic.take m.offset ++ [msg] := by
      rw [List.take_add_one, hmsg, Option.toList_some]
    have hall := h.alive_iff.mp hended
    have hrec := h.received
    rw [hhand, Option.toList_none, List.append_nil] at hrec
    split
    · next opinion hok =>
      refine ⟨hlt, ?_, ?_, h.map_eq, h.silent⟩
      · rw [htake, emitted_append_of_forall_ok hall, ← hrec, emitted_cons_ok hok]
        simp [emitted, consumerRunnable, consumerLoop]
      · rw [htake]
        refine iff_of_true hended fun msg' hmsg' => ?_
        rcases List.mem_append.mp hmsg' with hold | hnew
        · exact hall msg' hold
        · obtain rfl := List.mem_singleton.mp hnew
          exact ⟨opinion, hok⟩
    · next e herror =>
      refine ⟨hlt, ?_, ?_, h.map_eq, h.silent⟩
      · show m.unheard ++ (m.handed ++ m.buffered ++ m.inHand.toList) = _
        rw [htake, emitted_append_of_forall_ok hall, ← hrec, hhand]
        simp [emitted, consumerRunnable_cons_error herror]
      · rw [htake]
        refine iff_of_false (by simp) fun hall' => ?_
        obtain ⟨opinion, hok⟩ := hall' _ (List.mem_append_right _ (List.mem_singleton_self _))
        cases herror.symm.trans hok
  · exact h

/-- Emitting a decoded message to the subject keeps the accounts of the consumer. -/
theorem Consistent.step_emit (h : m.Consistent topic) (owner : String) :
    (m.step owner topic .emit).Consistent topic := by
  have hrec := h.received
  cases hhand : m.inHand with
  | none =>
    have hsame : m.step owner topic .emit = m := by simp [step, hhand]
    rwa [hsame]
  | some opinion =>
    rw [hhand, Option.toList_some] at hrec
    cases hsub : m.subscribed with
    | true =>
      have hstep : m.step owner topic .emit =
          { m with inHand := none, buffered := m.buffered ++ [opinion] } := by
        simp [step, hhand, hsub]
      rw [hstep]
      refine ⟨h.offset_le, ?_, h.alive_iff, h.map_eq, fun hno => ?_⟩
      · simpa using hrec
      · exact absurd (hsub.symm.trans hno) (by decide)
    | false =>
      obtain ⟨hhanded, hbuffered⟩ := h.silent hsub
      have hstep : m.step owner topic .emit =
          { m with inHand := none, unheard := m.unheard ++ [opinion] } := by
        simp [step, hhand, hsub]
      rw [hstep]
      refine ⟨h.offset_le, ?_, h.alive_iff, h.map_eq, h.silent⟩
      -- nothing was handed over yet, so the order is kept
      simpa [hhanded, hbuffered] using hrec

/-- The subscription keeps the accounts of the consumer. -/
theorem Consistent.step_handOver (h : m.Consistent topic) (owner : String) :
    (m.step owner topic .handOver).Consistent topic := by
  simp only [step]
  split
  · exact h
  · next opinion rest hbuffered =>
    have hrec := h.received
    rw [hbuffered] at hrec
    refine ⟨h.offset_le, ?_, h.alive_iff, ?_, fun hsub => ?_⟩
    · simpa using hrec
    · show onNewOpinion arpOrdering m.map opinion = handleAll arpOrdering (m.handed ++ [opinion])
      rw [handleAll_concat, h.map_eq]
    · exact absurd (hbuffered.symm.trans (h.silent hsub).2) (List.cons_ne_nil _ _)

/-- Every step of a participant keeps it consistent with the topic. -/
theorem Consistent.step (h : m.Consistent topic) (owner : String) (a : Action IPv4Addr MAC) :
    (m.step owner topic a).Consistent topic := by
  cases a with
  | startConsumer => exact ⟨h.offset_le, h.received, h.alive_iff, h.map_eq, h.silent⟩
  | subscribe =>
    simp only [Participant.step]
    split
    · exact ⟨h.offset_le, h.received, h.alive_iff, h.map_eq, fun hno => nomatch hno⟩
    · exact h
  | putOpinion key value =>
    simp only [Participant.step]
    split
    · exact ⟨h.offset_le, h.received, h.alive_iff, h.map_eq, h.silent⟩
    · exact h
  | sendFails =>
    simp only [Participant.step]
    split
    · exact h
    · exact ⟨h.offset_le, h.received, h.alive_iff, h.map_eq, h.silent⟩
  | take => exact h.step_take owner
  | emit => exact h.step_emit owner
  | handOver => exact h.step_handOver owner

/-- A step accepts no record but the one of its put. -/
theorem mem_outbox_step {owner : String} {a : Action IPv4Addr MAC} {r : Record F}
    (hr : r ∈ (m.step owner topic a).outbox) :
    r ∈ m.outbox ∨ ∃ key value, a = .putOpinion key value ∧ r = .put F owner key value := by
  cases a with
  | startConsumer => exact .inl hr
  | subscribe =>
    simp only [Participant.step] at hr
    split at hr <;> exact .inl hr
  | putOpinion key value =>
    simp only [Participant.step] at hr
    split at hr
    · rcases List.mem_append.mp hr with hold | hnew
      · exact .inl hold
      · exact .inr ⟨key, value, rfl, List.mem_singleton.mp hnew⟩
    · exact .inl hr
  | sendFails =>
    simp only [Participant.step] at hr
    split at hr
    · exact .inl hr
    · next record rest hout => exact .inl (hout ▸ List.mem_cons_of_mem _ hr)
  | take =>
    simp only [Participant.step] at hr
    split at hr
    · split at hr <;> exact .inl hr
    · exact .inl hr
  | emit =>
    simp only [Participant.step] at hr
    split at hr
    · exact .inl hr
    · split at hr <;> exact .inl hr
  | handOver =>
    simp only [Participant.step] at hr
    split at hr <;> exact .inl hr

/-- If nothing was lost, what was sent and what waits to be sent are the puts. -/
def Accounted (done : List (Opinion IPv4Addr (ArpCacheEntry MAC))) (m : Participant H T F) : Prop :=
  m.lost = [] → done ++ m.outbox.map Record.opinion = m.puts

/-- Each step of a participant keeps the account of its puts. Only `putOpinion` adds to them. -/
theorem Accounted.step {done : List (Opinion IPv4Addr (ArpCacheEntry MAC))}
    (h : m.Accounted done) (owner : String) (a : Action IPv4Addr MAC) :
    (m.step owner topic a).Accounted done := by
  cases a with
  | startConsumer => exact h
  | subscribe =>
    simp only [Participant.step]
    split <;> exact h
  | putOpinion key value =>
    simp only [Participant.step]
    split
    · intro hlost
      show done ++ (m.outbox ++ [Record.put F owner key value]).map Record.opinion = m.puts ++ [_]
      rw [List.map_append, ← List.append_assoc, h hlost]
      rfl
    · exact h
  | sendFails =>
    simp only [Participant.step]
    split
    · exact h
    · exact fun hlost => absurd hlost (by simp)
  | take =>
    simp only [Participant.step]
    split
    · split <;> exact h
    · exact h
  | emit =>
    simp only [Participant.step]
    split
    · exact h
    · split <;> exact h
  | handOver =>
    simp only [Participant.step]
    split <;> exact h

/-- The consumer has no message left that it could take, and nothing is on the way to the map. -/
structure Idle (topic : List Bytes) (m : Participant H T F) : Prop where
  taken : m.ended = true ∨ m.offset = topic.length
  inHand : m.inHand = none
  buffered : m.buffered = []

/-- An idle participant has been handed everything that a consumer emits from the whole topic,
except for what came too early. -/
theorem Consistent.received_of_idle (h : m.Consistent topic) (hidle : m.Idle topic) :
    m.unheard ++ m.handed = emitted (fromBytes F) topic := by
  have hrec := h.received
  rw [hidle.inHand, hidle.buffered, Option.toList_none, List.append_nil, List.append_nil] at hrec
  rw [hrec]
  rcases hidle.taken with hended | hall
  · -- the consumer stopped at a message that nobody can decode
    have hdead : ¬∀ msg ∈ topic.take m.offset, ∃ opinion, fromBytes F msg = .ok opinion :=
      fun hok => absurd (hended.symm.trans (h.alive_iff.mpr hok)) (by decide)
    rw [not_forall₂] at hdead
    obtain ⟨msg, hmem, hbad⟩ := hdead
    obtain ⟨e, he⟩ : ∃ e, fromBytes F msg = .error e := by
      cases hmsg : fromBytes F msg with
      | ok opinion => exact absurd ⟨opinion, hmsg⟩ hbad
      | error e => exact ⟨e, rfl⟩
    have happend := emitted_append_of_error hmem he (topic.drop m.offset)
    rw [List.take_append_drop] at happend
    exact happend.symm
  · rw [hall, List.take_length]

end Participant

variable (H T F) in
/-- The topic of a map and its participants. -/
structure Deployment (ι : Type) where
  /-- The messages that earlier runs have left in the topic. -/
  earlier : List Bytes
  /-- The messages that follow them, each with its sender. -/
  topic : List (ι × Record F)
  participant : ι → Participant H T F

namespace Deployment

variable {ι : Type} [DecidableEq ι]

/-- The steps of a deployment. -/
inductive Action (ι IPv4Addr MAC : Type)
  /-- The producer of `p` sends its first record. -/
  | send (p : ι)
  | act (p : ι) (a : Participant.Action IPv4Addr MAC)

variable (H T F ι) in
/-- Nobody has opened the map. For one with a new name, `earlier` is empty. -/
def init (earlier : List Bytes) : Deployment H T F ι where
  earlier := earlier
  topic := []
  participant := fun _ => .init H T F

/-- The messages of the topic, as the consumers read them. -/
def messages (s : Deployment H T F ι) : List Bytes := s.earlier ++ s.topic.map fun r => r.2.bytes

/-- The opinions that `p` has sent. -/
def sent (s : Deployment H T F ι) (p : ι) : List (Opinion IPv4Addr (ArpCacheEntry MAC)) :=
  (Interleaving.of p s.topic).map Record.opinion

/-- One step of a deployment. -/
def step (owner : ι → String) (s : Deployment H T F ι) :
    Action ι IPv4Addr MAC → Deployment H T F ι
  | .send p =>
    match (s.participant p).outbox with
    | [] => s
    | record :: rest =>
      { s with
        topic := s.topic ++ [(p, record)]
        participant :=
          Function.update s.participant p { s.participant p with outbox := rest } }
  | .act p a =>
    { s with
      participant :=
        Function.update s.participant p ((s.participant p).step (owner p) s.messages a) }

section Steps

variable {owner : ι → String} {s : Deployment H T F ι} {p : ι}

/-- What the producer of `p` does when it sends its first record. -/
theorem step_send {record : Record F} {rest : List (Record F)}
    (h : (s.participant p).outbox = record :: rest) :
    step owner s (.send p) =
      ⟨s.earlier, s.topic ++ [(p, record)],
        Function.update s.participant p { s.participant p with outbox := rest }⟩ := by
  simp [step, h]

/-- With an empty outbox the producer has nothing to send. -/
theorem step_send_nil (h : (s.participant p).outbox = []) : step owner s (.send p) = s := by
  simp [step, h]

/-- No step changes what was there before. -/
@[simp]
theorem earlier_step (a : Action ι IPv4Addr MAC) : (step owner s a).earlier = s.earlier := by
  cases a with
  | act p a => rfl
  | send p =>
    simp only [step]
    split <;> rfl

/-- Every participant is consistent with the topic. -/
def Consistent (s : Deployment H T F ι) : Prop :=
  ∀ p, (s.participant p).Consistent s.messages

/-- Every step of the deployment keeps every consumer consistent, also those that do not move. -/
theorem Consistent.step (h : s.Consistent) (a : Action ι IPv4Addr MAC) :
    (step owner s a).Consistent := by
  intro q
  cases a with
  | act p a =>
    by_cases hq : q = p
    · subst hq
      simpa [Deployment.step, messages] using (h q).step (owner q) a
    · simpa [Deployment.step, messages, hq] using h q
  | send p =>
    cases hout : (s.participant p).outbox with
    | nil =>
      rw [step_send_nil hout]
      exact h q
    | cons record rest =>
      rw [step_send hout]
      have hmessages : messages (⟨s.earlier, s.topic ++ [(p, record)],
          Function.update s.participant p { s.participant p with outbox := rest }⟩ :
            Deployment H T F ι) =
          s.messages ++ [record.bytes] := by
        simp [messages]
      rw [hmessages]
      have hq := (h q).append [record.bytes]
      by_cases hqp : q = p
      · subst hqp
        simp only [Function.update_self]
        exact ⟨hq.offset_le, hq.received, hq.alive_iff, hq.map_eq, hq.silent⟩
      · simpa [hqp] using hq

variable (owner) in
/-- What the topic held before the deployment started is never rewritten. -/
theorem earlier_foldl (earlier : List Bytes) (as : List (Action ι IPv4Addr MAC)) :
    (as.foldl (step owner) (init H T F ι earlier)).earlier = earlier :=
  Run.inv_foldl (I := fun s : Deployment H T F ι => s.earlier = earlier) rfl
    (fun _ a h => (earlier_step a).trans h) as

variable (owner) in
/-- In every reachable state the consumers are consistent with the topic. -/
theorem consistent_foldl (earlier : List Bytes) (as : List (Action ι IPv4Addr MAC)) :
    (as.foldl (step owner) (init H T F ι earlier)).Consistent :=
  Run.inv_foldl (fun _ => Participant.consistent_init _) (fun _ a h => h.step a) as

/-- Every record in the topic, and every record that waits to be sent, meets `P`. -/
def AllRecords (P : ι → Record F → Prop) (s : Deployment H T F ι) : Prop :=
  (∀ e ∈ s.topic, P e.1 e.2) ∧ ∀ p, ∀ r ∈ (s.participant p).outbox, P p r

/-- A property of the records put is kept by a step when the puts of that step have it. -/
theorem AllRecords.step {P : ι → Record F → Prop} (h : s.AllRecords P)
    (a : Action ι IPv4Addr MAC)
    (hput : ∀ p key value, a = .act p (.putOpinion key value) → P p (.put F (owner p) key value)) :
    (step owner s a).AllRecords P := by
  cases a with
  | act p a =>
    refine ⟨h.1, fun q r hr => ?_⟩
    by_cases hq : q = p
    · subst hq
      simp only [Deployment.step, Function.update_self] at hr
      rcases Participant.mem_outbox_step hr with hold | ⟨key, value, rfl, rfl⟩
      · exact h.2 q r hold
      · exact hput q key value rfl
    · simp only [Deployment.step, Function.update_of_ne hq] at hr
      exact h.2 q r hr
  | send p =>
    cases hout : (s.participant p).outbox with
    | nil =>
      rw [step_send_nil hout]
      exact h
    | cons record rest =>
      rw [step_send hout]
      have hall := h.2 p
      rw [hout] at hall
      refine ⟨fun e he => ?_, fun q r hr => ?_⟩
      · rcases List.mem_append.mp he with hold | hnew
        · exact h.1 e hold
        · obtain rfl := List.mem_singleton.mp hnew
          exact hall record List.mem_cons_self
      · by_cases hq : q = p
        · subst hq
          simp only [Function.update_self] at hr
          exact hall r (List.mem_cons_of_mem _ hr)
        · simp only [Function.update_of_ne hq] at hr
          exact h.2 q r hr

/-- The puts of every participant are accounted for. -/
def Accounted (s : Deployment H T F ι) : Prop :=
  ∀ p, (s.participant p).Accounted (s.sent p)

/-- Each step of the deployment keeps the account of every participant's puts. -/
theorem Accounted.step (h : s.Accounted) (a : Action ι IPv4Addr MAC) :
    (step owner s a).Accounted := by
  intro q
  cases a with
  | act p a =>
    by_cases hq : q = p
    · subst hq
      simpa [Deployment.step, sent] using (h q).step (owner q) a
    · simpa [Deployment.step, sent, hq] using h q
  | send p =>
    cases hout : (s.participant p).outbox with
    | nil =>
      rw [step_send_nil hout]
      exact h q
    | cons record rest =>
      rw [step_send hout]
      by_cases hq : q = p
      · subst hq
        intro hlost
        have hputs := h q (by simpa using hlost)
        rw [hout] at hputs
        simpa [sent] using hputs
      · intro hlost
        have hputs := h q (by simpa [hq] using hlost)
        simpa [sent, hq, Interleaving.of_concat_of_ne hq] using hputs

variable (owner) in
/-- In every reachable state a participant that lost nothing has each put sent or in its outbox. -/
theorem accounted_foldl (earlier : List Bytes) (as : List (Action ι IPv4Addr MAC)) :
    (as.foldl (step owner) (init H T F ι earlier)).Accounted :=
  Run.inv_foldl (fun _ _ => rfl) (fun _ a h => h.step a) as

omit [DecidableEq ι] in
/-- Idle participants that have missed equally many messages have been handed the same ones. -/
theorem Consistent.map_eq (h : s.Consistent) {p q : ι} (hp : (s.participant p).Idle s.messages)
    (hq : (s.participant q).Idle s.messages)
    (hmissed : (s.participant p).unheard.length = (s.participant q).unheard.length) :
    (s.participant p).map = (s.participant q).map := by
  have hreceived := ((h p).received_of_idle hp).trans ((h q).received_of_idle hq).symm
  rw [(h p).map_eq, (h q).map_eq, (List.append_inj hreceived hmissed).2]

end Steps

/-- The owners of two participants. -/
def twoOwners (b : Bool) : String := if b then "node1" else "node2"

/-- Both participants open the map, and `node1` puts an opinion and receives it. -/
def puttingRun : List (Action Bool (Octets 4) (Octets 6)) :=
  [.act true .startConsumer, .act true .subscribe, .act false .startConsumer,
    .act false .subscribe, .act true (.putOpinion sampleAddress (sampleEntry 5)), .send true,
    .act true .take, .act true .emit, .act true .handOver]

/-- The other participant receives it, too. -/
def receivingRun : List (Action Bool (Octets 4) (Octets 6)) :=
  [.act false .take, .act false .emit, .act false .handOver]

/-- The opinion that `node1` puts. -/
def sampleOpinion : Opinion (Octets 4) (ArpCacheEntry (Octets 6)) :=
  ⟨sampleAddress, some (sampleEntry 5), "node1"⟩

/-- Where the participants end. -/
def bothReceived : Deployment AssocMap AssocMap dottedFormats Bool where
  earlier := []
  topic := [(true, .put dottedFormats "node1" sampleAddress (sampleEntry 5))]
  participant := fun b =>
    { outbox := [], started := true, subscribed := true, offset := 1, inHand := none
      ended := false, buffered := []
      map := onNewOpinion arpOrdering MergedMap.init sampleOpinion
      puts := if b then [sampleOpinion] else []
      lost := [], unheard := [], handed := [sampleOpinion] }

/-- The sample record is decoded to the sample opinion. -/
theorem fromBytes_put_sample :
    fromBytes dottedFormats (Record.put dottedFormats "node1" sampleAddress (sampleEntry 5)).bytes =
      .ok sampleOpinion := by
  have hname : IsOwnerName "node1" := ⟨by decide, by decide⟩
  obtain ⟨bytes, hbytes, hok⟩ := fromBytes_serialize lawful_dottedFormats sampleAddress
    (nonNegative_sampleEntry (by decide : (0 : ℤ) ≤ (5 : Int64).toInt)) hname
  cases hbytes
  exact hok

/-- Where the two sample runs lead, one after the other. -/
theorem foldl_puttingRun_receivingRun :
    (puttingRun ++ receivingRun).foldl (step twoOwners)
      (init AssocMap AssocMap dottedFormats Bool []) = bothReceived := by
  simp [puttingRun, receivingRun, step, Participant.step, Deployment.init, Participant.init,
    messages, twoOwners, fromBytes_put_sample, bothReceived, sampleOpinion]
  funext b
  cases b <;> simp

/-- Both owners have read the whole topic in the sample state. -/
theorem idle_bothReceived (b : Bool) : (bothReceived.participant b).Idle bothReceived.messages where
  taken := .inr rfl
  inHand := rfl
  buffered := rfl

section LastPut

variable {owner : ι → String}

omit [DecidableEq MAC] in
/-- The last opinion of an owner in the topic is the last one that the owner has sent, or else one
of those before. -/
theorem currentOpinion_topic (howner : Function.Injective owner)
    {topic : List (ι × Record F)} (h : ∀ e ∈ topic, e.2.opinion.owner = owner e.1)
    (before : List (Opinion IPv4Addr (ArpCacheEntry MAC))) (p : ι) (k : IPv4Addr) :
    currentOpinion (before ++ topic.map fun e => e.2.opinion) k (owner p) =
      currentOpinion (before ++ (Interleaving.of p topic).map Record.opinion) k (owner p) := by
  induction topic using List.reverseRecOn with
  | nil => rfl
  | append_singleton topic e ih =>
    have hlast : e.2.opinion.owner = owner e.1 := h e (by simp)
    rw [List.map_append, List.map_singleton, ← List.append_assoc, currentOpinion_concat,
      ih fun e' he' => h e' (List.mem_append_left _ he')]
    obtain ⟨q, r⟩ := e
    rw [Interleaving.of_concat]
    by_cases hq : q = p
    · rw [if_pos hq, List.map_append, List.map_singleton, ← List.append_assoc,
        currentOpinion_concat]
    · rw [if_neg hq, if_neg]
      rintro ⟨-, ho⟩
      exact hq (howner (hlast.symm.trans ho))

/-- The entries that are put have non-negative times. -/
def Action.WellFormed : Action ι IPv4Addr MAC → Prop
  | .act _ (.putOpinion _ value) => value.NonNegative
  | _ => True

/-- In every run, a participant that has nothing left to do and has missed no message holds, for
every owner all of whose puts have been sent, the last one on each key, or else what was there
before. -/
theorem opinion_eq_last_put (hF : F.Lawful) (howner : Function.Injective owner)
    (hname : ∀ p, IsOwnerName (owner p)) {earlier : List Bytes}
    (hearlier : ∀ msg ∈ earlier, ∃ opinion, fromBytes F msg = .ok opinion)
    {as : List (Action ι IPv4Addr MAC)} (has : ∀ a ∈ as, a.WellFormed) (p q : ι) :
    let s := as.foldl (step owner) (init H T F ι earlier)
    (s.participant p).outbox = [] → (s.participant p).lost = [] →
    (s.participant q).Idle s.messages → (s.participant q).unheard = [] →
    ∀ k, (s.participant q).map.opinion k (owner p) =
      currentOpinion (emitted (fromBytes F) earlier ++ (s.participant p).puts) k (owner p) := by
  intro s hout hlost hidle hunheard k
  -- every record comes from its owner, and is decoded to the opinion that was put
  have hrecords : s.AllRecords fun p r =>
      r.opinion.owner = owner p ∧ fromBytes F r.bytes = .ok r.opinion := by
    refine Run.inv_foldl_of_mem (by simp [AllRecords, init, Participant.init]) ?_
    intro s a ha h
    refine h.step a fun p key value hput => ⟨rfl, ?_⟩
    have hvalue : value.NonNegative := by
      have hwell := has a ha
      rwa [hput] at hwell
    obtain ⟨bytes, hbytes, hok⟩ := fromBytes_serialize hF key hvalue (hname p)
    cases hbytes
    exact hok
  have hdecoded : emitted (fromBytes F) s.messages =
      emitted (fromBytes F) earlier ++ s.topic.map fun e => e.2.opinion := by
    rw [messages, earlier_foldl, emitted_append_of_forall_ok hearlier,
      emitted_map fun e he => (hrecords.1 e he).2]
  have hconsistent : s.Consistent := consistent_foldl owner earlier as
  have hhanded := (hconsistent q).received_of_idle hidle
  rw [hunheard, List.nil_append, hdecoded] at hhanded
  -- nothing waits to be sent, so the puts of `p` are its opinions in the topic
  have hputs : s.sent p = (s.participant p).puts := by
    have haccounted := accounted_foldl owner earlier as p hlost
    rwa [hout, List.map_nil, List.append_nil] at haccounted
  rw [(hconsistent q).map_eq, opinion_handleAll, hhanded, ← hputs, sent]
  exact currentOpinion_topic howner (fun e he => (hrecords.1 e he).1) _ p k

end LastPut

end Deployment

end ArpMergedMap
