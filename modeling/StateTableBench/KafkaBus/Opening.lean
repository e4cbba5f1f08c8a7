import StateTableBench.Transition.Run
import Mathlib.Tactic.Common

/-!
# Opening a map

The constructor of `KafkaBus` starts the consumer thread, which takes messages from the topic
and emits them on `inputSubj`. Only later does the constructor of `MergedMap` subscribe to
`opinionObservable`. An rx `PublishSubject` delivers an item to the subscribers it has at that
moment, and `onBackpressureBuffer` buffers from the subscription on, so a message that is emitted
in between reaches nobody.

`always_lossless_iff`: over every interleaving, nothing is lost exactly when no message is
emitted before the subscription.
-/

namespace KafkaBus

/-- The state of a bus while the map on it is being opened. -/
structure Opening (μ : Type) where
  /-- The messages of the topic that the consumer has not taken yet. -/
  topic : List μ
  /-- The consumer thread has been started. -/
  started : Bool
  /-- The map has subscribed to `opinionObservable`. -/
  subscribed : Bool
  /-- The message that the consumer has taken and not emitted yet. -/
  inHand : Option μ
  /-- The messages buffered for the map. -/
  buffered : List μ
  /-- The messages handed to `onNewOpinion`, in order. -/
  handed : List μ
  /-- All messages that the consumer has taken, in order. -/
  taken : List μ
deriving DecidableEq

namespace Opening

variable {μ : Type}

/-- The steps of the threads involved. -/
inductive Action (μ : Type)
  /-- Another participant publishes a message. -/
  | publish (msg : μ)
  /-- The opening thread submits `consumerRunnable`. -/
  | startConsumer
  /-- The opening thread subscribes the map to `opinionObservable`. -/
  | subscribe
  /-- The consumer thread takes the next message from `consumerIterator`. -/
  | take
  /-- The consumer thread emits the message it has taken on `inputSubj`. -/
  | emit
  /-- The scheduler of the map hands a buffered message to `onNewOpinion`. -/
  | handOver

/-- A bus on a topic that already holds some messages. -/
def init (topic : List μ) : Opening μ where
  topic
  started := false
  subscribed := false
  inHand := none
  buffered := []
  handed := []
  taken := []

/-- One step. A thread that is not at the step, or is blocked there, does nothing. -/
def step (s : Opening μ) : Action μ → Opening μ
  | .publish msg => { s with topic := s.topic ++ [msg] }
  | .startConsumer => { s with started := true }
  -- the bus is passed to the constructor of the map, so its own constructor has finished
  | .subscribe => if s.started then { s with subscribed := true } else s
  | .take =>
    match s.started, s.inHand, s.topic with
    | true, none, msg :: rest =>
      { s with topic := rest, inHand := some msg, taken := s.taken ++ [msg] }
    | _, _, _ => s
  | .emit =>
    match s.inHand with
    | none => s
    | some msg =>
      if s.subscribed then { s with inHand := none, buffered := s.buffered ++ [msg] }
      -- the subject has no subscriber: nobody receives the message
      else { s with inHand := none }
  | .handOver =>
    match s.buffered with
    | [] => s
    | msg :: rest => { s with buffered := rest, handed := s.handed ++ [msg] }

/-- What was handed over, what is buffered and what the consumer is about to emit are exactly
the messages taken so far, in log order. -/
def Lossless (s : Opening μ) : Prop := s.handed ++ s.buffered ++ s.inHand.toList = s.taken

/-- The step emits a message although nobody has subscribed. -/
def EmitsUnheard (s : Opening μ) (a : Action μ) : Prop :=
  a = .emit ∧ s.inHand ≠ none ∧ s.subscribed = false

/-- Taking a message off the topic loses nothing. -/
theorem Lossless.step_take {s : Opening μ} (h : s.Lossless) : (s.step .take).Lossless := by
  unfold Lossless at h ⊢
  simp only [step]
  split
  · next hhand htopic =>
    have hempty : s.inHand.toList = [] := by rw [hhand, Option.toList_none]
    rw [hempty, List.append_nil] at h
    simp [← h]
  · exact h

/-- Handing a message to the subscriber loses nothing. -/
theorem Lossless.step_handOver {s : Opening μ} (h : s.Lossless) :
    (s.step .handOver).Lossless := by
  unfold Lossless at h ⊢
  simp only [step]
  split
  · exact h
  · next msg rest hbuf =>
    rw [← h, hbuf]
    simp

/-- Emitting a message keeps the map up to date exactly when somebody hears it. -/
theorem Lossless.step_emit_iff {s : Opening μ} (h : s.Lossless) :
    (s.step .emit).Lossless ↔ ¬EmitsUnheard s .emit := by
  unfold Lossless at h ⊢
  cases hhand : s.inHand with
  | none =>
    have hsame : s.step .emit = s := by simp [step, hhand]
    rw [hsame]
    exact iff_of_true h fun hu => hu.2.1 hhand
  | some msg =>
    rw [hhand, Option.toList_some] at h
    cases hsub : s.subscribed with
    | true =>
      refine iff_of_true ?_ fun hu => ?_
      · simp [step, hhand, hsub, ← h]
      · exact absurd (hsub.symm.trans hu.2.2) (by decide)
    | false =>
      refine iff_of_false ?_ (not_not.mpr ⟨rfl, by simp [hhand], hsub⟩)
      -- the message was taken, and is now nowhere
      simp [step, hhand, hsub, ← h]

/-- From a state without loss, a step loses a message exactly if it emits it unheard. -/
theorem lossless_step_iff (s : Opening μ) (a : Action μ) (h : s.Lossless) :
    (s.step a).Lossless ↔ ¬EmitsUnheard s a := by
  cases a with
  | emit => exact h.step_emit_iff
  | take => exact iff_of_true h.step_take fun hu => nomatch hu.1
  | handOver => exact iff_of_true h.step_handOver fun hu => nomatch hu.1
  | publish msg => exact iff_of_true h fun hu => nomatch hu.1
  | startConsumer => exact iff_of_true h fun hu => nomatch hu.1
  | subscribe =>
    refine iff_of_true ?_ fun hu => nomatch hu.1
    show (if s.started then { s with subscribed := true } else s).Lossless
    split <;> exact h

/-- In a run of the threads, whatever the topic holds, no message is lost at any moment exactly
when no message is emitted before the map has subscribed. -/
theorem always_lossless_iff (topic : List μ) (run : List (Action μ)) :
    Run.Always step (init topic) Lossless run ↔
      Run.EachStep step (init topic) (fun s a => ¬EmitsUnheard s a) run := by
  have hinit : (init topic).Lossless := rfl
  exact Run.always_iff hinit lossless_step_iff run

/-- The consumer is faster than the constructor of the map: a message that the topic already
held is lost for good, and the consumer has nothing left in its hands. -/
theorem not_always_lossless_earlyEmit :
    let run : List (Action ℕ) := [.startConsumer, .take, .emit, .subscribe]
    let s := run.foldl step (init [7])
    ¬Run.Always step (init [7]) Lossless run ∧
      s.inHand = none ∧ s.handed ++ s.buffered ≠ s.taken := by
  intro run s
  have hlost : s.inHand = none ∧ s.handed ++ s.buffered ≠ s.taken := by decide
  refine ⟨fun hall => ?_, hlost⟩
  have hend : s.Lossless := hall run (List.prefix_refl run)
  rw [Lossless, hlost.1, Option.toList_none, List.append_nil] at hend
  exact hlost.2 hend

end Opening

end KafkaBus
