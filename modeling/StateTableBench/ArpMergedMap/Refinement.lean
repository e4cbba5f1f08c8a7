import StateTableBench.ArpMergedMap.Deployment
import StateTableBench.KafkaBus.Opening

/-!
# A participant of a deployment opens its map

`KafkaBus.Opening` describes how one participant opens a map, with abstract messages and a topic to
which others publish. A deployment has the bytes of the messages, the producers and all the
participants. `opening` forgets all of this but one participant: the topic is what its consumer
would still emit.

`refines_opening`: what happens to a participant in a run of a deployment is a run of
`KafkaBus.Opening` with the same steps of its threads, so what is proved there holds here.
-/

namespace ArpMergedMap

open MergedMap KafkaBus

variable {H T : Type → Type → Type} [FiniteMap H] [FiniteMap T]
variable {IPv4Addr MAC Bytes : Type} [DecidableEq IPv4Addr] [DecidableEq MAC]
variable {F : Formats IPv4Addr MAC Bytes}

namespace Deployment

variable {ι : Type} [DecidableEq ι]

/-- A deployment as participant `p` sees it. The consumer emits nothing after a message that it
could not decode. -/
def opening (s : Deployment H T F ι) (p : ι) : Opening (Opinion IPv4Addr (ArpCacheEntry MAC)) where
  topic :=
    if (s.participant p).ended then []
    else emitted (fromBytes F) (s.messages.drop (s.participant p).offset)
  started := (s.participant p).started
  subscribed := (s.participant p).subscribed
  inHand := (s.participant p).inHand
  buffered := (s.participant p).buffered
  handed := (s.participant p).handed
  taken := emitted (fromBytes F) (s.messages.take (s.participant p).offset)

/-- The steps of the threads of `p` that `Opening` has too. -/
def Action.opening? (p : ι) : Action ι IPv4Addr MAC →
    Option (Opening.Action (Opinion IPv4Addr (ArpCacheEntry MAC)))
  | .send _ => none
  | .act q a =>
    if q = p then
      match a with
      | .startConsumer => some .startConsumer
      | .subscribe => some .subscribe
      | .take => some .take
      | .emit => some .emit
      | .handOver => some .handOver
      | .putOpinion _ _ => none
      | .sendFails => none
    else none

/-- The steps that are not those of other participants. -/
def thread? {μ : Type} : Opening.Action μ → Option (Opening.Action μ)
  | .publish _ => none
  | a => some a

section Simulation

variable {owner : ι → String} {s : Deployment H T F ι} {p : ι}

omit [DecidableEq ι] in
/-- A new message of the topic is published to `p`, unless its consumer does not get to it. -/
theorem exists_publish (h : s.Consistent) (msg : Bytes) :
    ∃ bs : List (Opening.Action (Opinion IPv4Addr (ArpCacheEntry MAC))),
      bs.foldl Opening.step (s.opening p) = { s.opening p with
        topic :=
          if (s.participant p).ended then []
          else emitted (fromBytes F) ((s.messages ++ [msg]).drop (s.participant p).offset) } ∧
      bs.filterMap thread? = [] := by
  cases hended : (s.participant p).ended with
  | true => exact ⟨[], by simp [opening, hended], rfl⟩
  | false =>
    have hdrop : (s.messages ++ [msg]).drop (s.participant p).offset =
        s.messages.drop (s.participant p).offset ++ [msg] :=
      List.drop_append_of_le_length (h p).offset_le
    by_cases hok : ∀ msg' ∈ s.messages.drop (s.participant p).offset,
        ∃ opinion, fromBytes F msg' = .ok opinion
    · cases hmsg : fromBytes F msg with
      | ok opinion =>
        refine ⟨[.publish opinion], ?_, rfl⟩
        have hone : emitted (fromBytes F) [msg] = [opinion] := by
          rw [emitted_cons_ok hmsg]
          rfl
        rw [hdrop, emitted_append_of_forall_ok hok, hone]
        simp [Opening.step, opening, hended]
      | error e =>
        refine ⟨[], ?_, rfl⟩
        have hnone : emitted (fromBytes F) [msg] = [] := by
          rw [emitted, consumerRunnable_cons_error hmsg]
          rfl
        rw [hdrop, emitted_append_of_forall_ok hok, hnone]
        simp [opening, hended]
    · -- the consumer will stop before the new message
      obtain ⟨bad, hmem, hbad⟩ : ∃ bad ∈ s.messages.drop (s.participant p).offset,
          ¬∃ opinion, fromBytes F bad = .ok opinion := by simpa using hok
      obtain ⟨e, he⟩ : ∃ e, fromBytes F bad = .error e := by
        cases hfrom : fromBytes F bad with
        | ok opinion => exact absurd ⟨opinion, hfrom⟩ hbad
        | error e => exact ⟨e, rfl⟩
      refine ⟨[], ?_, rfl⟩
      rw [hdrop, emitted_append_of_error hmem he]
      simp [opening, hended]

/-- A producer sends a message. -/
theorem simulates_send (h : s.Consistent) (q : ι) :
    ∃ bs : List (Opening.Action (Opinion IPv4Addr (ArpCacheEntry MAC))),
      bs.foldl Opening.step (s.opening p) = (step owner s (.send q)).opening p ∧
      bs.filterMap thread? = [] := by
  cases hout : (s.participant q).outbox with
  | nil => exact ⟨[], by rw [step_send_nil hout]; rfl, rfl⟩
  | cons record rest =>
    obtain ⟨bs, hbs, hthread⟩ := exists_publish (p := p) h record.bytes
    refine ⟨bs, hbs.trans ?_, hthread⟩
    have hmessages : messages (⟨s.earlier, s.topic ++ [(q, record)],
        Function.update s.participant q { s.participant q with outbox := rest }⟩ :
          Deployment H T F ι) =
        s.messages ++ [record.bytes] := by
      simp [messages]
    have htake : (s.messages ++ [record.bytes]).take (s.participant p).offset =
        s.messages.take (s.participant p).offset :=
      List.take_append_of_le_length (h p).offset_le
    rw [step_send hout]
    by_cases hpq : p = q
    · subst hpq
      simp [opening, hmessages, htake]
    · simp [opening, hmessages, htake, hpq]

/-- The consumer of `p` takes a message. -/
theorem simulates_take (h : s.Consistent) :
    (s.opening p).step .take = (step owner s (.act p .take)).opening p := by
  have hmessages : messages (step owner s (.act p .take)) = s.messages := rfl
  have hself : (step owner s (.act p .take)).participant p =
      (s.participant p).step (owner p) s.messages .take := by
    simp [step]
  -- the consumer does nothing in the deployment where it does nothing in `Opening`
  by_cases hidle : (s.participant p).started = false ∨ (s.participant p).ended = true ∨
      (s.participant p).inHand ≠ none ∨ s.messages[(s.participant p).offset]? = none
  · have hsame : (s.participant p).step (owner p) s.messages .take = s.participant p := by
      simp only [Participant.step]
      grind
    have hopening : (step owner s (.act p .take)).opening p = s.opening p := by
      simp only [opening, hmessages, hself, hsame]
    rw [hopening]
    rcases hidle with hstarted | hended | hhand | hend
    · simp [Opening.step, opening, hstarted]
    · simp [Opening.step, opening, hended]
    · obtain ⟨opinion, hopinion⟩ := Option.ne_none_iff_exists'.mp hhand
      simp [Opening.step, opening, hopinion]
    · have hdrop : s.messages.drop (s.participant p).offset = [] :=
        List.drop_eq_nil_of_le (List.getElem?_eq_none_iff.mp hend)
      simp [Opening.step, opening, hdrop]
  · simp only [not_or, Bool.not_eq_false, Bool.not_eq_true, not_not] at hidle
    obtain ⟨hstarted, hended, hhand, hsome⟩ := hidle
    obtain ⟨msg, hmsg⟩ := Option.ne_none_iff_exists'.mp hsome
    have hlt := (List.getElem?_eq_some_iff.mp hmsg).1
    have hdrop : s.messages.drop (s.participant p).offset =
        msg :: s.messages.drop ((s.participant p).offset + 1) := by
      rw [List.drop_eq_getElem_cons hlt, (List.getElem?_eq_some_iff.mp hmsg).2]
    have htake : s.messages.take ((s.participant p).offset + 1) =
        s.messages.take (s.participant p).offset ++ [msg] := by
      rw [List.take_add_one, hmsg, Option.toList_some]
    have hall := (h p).alive_iff.mp hended
    cases hfrom : fromBytes F msg with
    | ok opinion =>
      have hnext : (s.participant p).step (owner p) s.messages .take =
          { s.participant p with
            offset := (s.participant p).offset + 1, inHand := some opinion } := by
        simp [Participant.step, hstarted, hended, hhand, hmsg, hfrom]
      simp [Opening.step, opening, hmessages, hself, hnext, hstarted, hended, hhand, hdrop, htake,
        emitted_cons_ok hfrom, emitted_append_of_forall_ok hall]
    | error e =>
      have hnone : ∀ rest, emitted (fromBytes F) (msg :: rest) = [] := fun rest => by
        rw [emitted, consumerRunnable_cons_error hfrom]
        rfl
      have hnext : (s.participant p).step (owner p) s.messages .take =
          { s.participant p with offset := (s.participant p).offset + 1, ended := true } := by
        simp [Participant.step, hstarted, hended, hhand, hmsg, hfrom]
      simp [Opening.step, opening, hmessages, hself, hnext, hstarted, hended, hhand, hdrop, htake,
        hnone, emitted_append_of_forall_ok hall]

/-- Any step of `p` itself. -/
theorem simulates_act (h : s.Consistent) (a : Participant.Action IPv4Addr MAC) :
    ∃ bs : List (Opening.Action (Opinion IPv4Addr (ArpCacheEntry MAC))),
      bs.foldl Opening.step (s.opening p) = (step owner s (.act p a)).opening p ∧
      bs.filterMap thread? = (Action.opening? p (.act p a)).toList := by
  have hmessages : messages (step owner s (.act p a)) = s.messages := rfl
  have hself : (step owner s (.act p a)).participant p =
      (s.participant p).step (owner p) s.messages a := by
    simp [step]
  cases a with
  | startConsumer =>
    refine ⟨[.startConsumer], ?_, by simp [thread?, Action.opening?]⟩
    simp [Opening.step, opening, hmessages, hself, Participant.step]
  | subscribe =>
    refine ⟨[.subscribe], ?_, by simp [thread?, Action.opening?]⟩
    by_cases hstarted : (s.participant p).started = true
    · simp [Opening.step, opening, hmessages, hself, Participant.step, hstarted]
    · simp [Opening.step, opening, hmessages, hself, Participant.step, hstarted]
  | putOpinion key value =>
    refine ⟨[], ?_, by simp [Action.opening?]⟩
    by_cases hsubscribed : (s.participant p).subscribed = true
    · simp [opening, hmessages, hself, Participant.step, hsubscribed]
    · simp [opening, hmessages, hself, Participant.step, hsubscribed]
  | sendFails =>
    refine ⟨[], ?_, by simp [Action.opening?]⟩
    cases hout : (s.participant p).outbox with
    | nil => simp [opening, hmessages, hself, Participant.step, hout]
    | cons record rest => simp [opening, hmessages, hself, Participant.step, hout]
  | take => exact ⟨[.take], simulates_take h, by simp [thread?, Action.opening?]⟩
  | emit =>
    refine ⟨[.emit], ?_, by simp [thread?, Action.opening?]⟩
    cases hhand : (s.participant p).inHand with
    | none => simp [Opening.step, opening, hmessages, hself, Participant.step, hhand]
    | some opinion =>
      by_cases hsubscribed : (s.participant p).subscribed = true
      · simp [Opening.step, opening, hmessages, hself, Participant.step, hhand, hsubscribed]
      · simp [Opening.step, opening, hmessages, hself, Participant.step, hhand, hsubscribed]
  | handOver =>
    refine ⟨[.handOver], ?_, by simp [thread?, Action.opening?]⟩
    cases hbuffered : (s.participant p).buffered with
    | nil => simp [Opening.step, opening, hmessages, hself, Participant.step, hbuffered]
    | cons opinion rest =>
      simp [Opening.step, opening, hmessages, hself, Participant.step, hbuffered]

/-- A step of another participant. -/
theorem simulates_act_of_ne {q : ι} (hq : q ≠ p) (a : Participant.Action IPv4Addr MAC) :
    (step owner s (.act q a)).opening p = s.opening p := by
  have hmessages : messages (step owner s (.act q a)) = s.messages := rfl
  have hother : (step owner s (.act q a)).participant p = s.participant p := by
    simp [step, hq.symm]
  simp only [opening, hmessages, hother]

end Simulation

/-- What happens to a participant in a run of a deployment is a run of `KafkaBus.Opening`, which
begins with the messages of earlier runs, with the steps of the threads of the participant in the
same order, and publications in between. -/
theorem refines_opening (owner : ι → String) (earlier : List Bytes)
    (as : List (Action ι IPv4Addr MAC)) (p : ι) :
    ∃ bs : List (Opening.Action (Opinion IPv4Addr (ArpCacheEntry MAC))),
      bs.foldl Opening.step (Opening.init (emitted (fromBytes F) earlier)) =
        (as.foldl (step owner) (init H T F ι earlier)).opening p ∧
      bs.filterMap thread? = as.filterMap (Action.opening? p) := by
  have hinit : Opening.init (emitted (fromBytes F) earlier) =
      (init H T F ι earlier).opening p := by
    simp [opening, init, Participant.init, messages, Opening.init]
  rw [hinit]
  have hstart : (init H T F ι earlier).Consistent := fun _ => Participant.consistent_init _
  refine Run.exists_simulation (fun s => s.opening p) hstart (fun s a h => h.step a)
    (fun s a h => ?_) as
  cases a with
  | send q => exact simulates_send h q
  | act q a =>
    by_cases hq : q = p
    · subst hq
      exact simulates_act h a
    · refine ⟨[], (simulates_act_of_ne hq a).symm, ?_⟩
      simp [Action.opening?, hq]

end Deployment

end ArpMergedMap
