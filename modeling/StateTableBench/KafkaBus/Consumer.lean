import StateTableBench.ArpMergedMap.Wire
import Mathlib.Tactic.Common

/-!
# The consumer loop

The consumer thread decodes one message after the other and emits it on `inputSubj`. The loop is
inside the `try` block, and the handler only logs: `shutdown()` is commented out, and neither
`onError` nor `onCompleted` is signalled. So the first message that cannot be decoded ends the
loop without the map noticing.

`consumerRunnable_handled_iff`: this goes unnoticed without harm exactly when no decodable
message follows one that cannot be decoded.
-/

namespace KafkaBus

/-- What a subject signals to its subscribers. -/
inductive Signal (α : Type)
  | onNext (item : α)
  | onError
  | onCompleted
deriving DecidableEq

/-- The item of a signal, if it carries one. -/
def Signal.item? {α : Type} : Signal α → Option α
  | .onNext item => some item
  | .onError => none
  | .onCompleted => none

section Consumer

variable {Bytes ε α : Type} (decode : Bytes → Except ε α)

/-- The body of the `try` block: the signals sent until the messages are used up or an exception
is thrown, and that exception. -/
def consumerLoop : List Bytes → List (Signal α) × Option ε
  | [] => ([], none)
  | msg :: rest =>
    match decode msg with
    | .error e => ([], some e)
    | .ok message =>
      let (signals, failure) := consumerLoop rest
      (.onNext message :: signals, failure)

/-- The signals on `inputSubj`. The exception of the loop is caught, logged and dropped. -/
def consumerRunnable (msgs : List Bytes) : List (Signal α) := (consumerLoop decode msgs).1

/-- The items of all decodable messages, in order. -/
def decodable (msgs : List Bytes) : List α := msgs.filterMap fun msg => (decode msg).toOption

/-- The items that the consumer emits. -/
def emitted (msgs : List Bytes) : List α := (consumerRunnable decode msgs).filterMap Signal.item?

/-- Every decodable message was emitted, or the subscribers were told of the end. -/
def Handled (msgs : List Bytes) : Prop :=
  emitted decode msgs = decodable decode msgs ∨
    .onError ∈ consumerRunnable decode msgs ∨ .onCompleted ∈ consumerRunnable decode msgs

variable {decode}

/-- A message that decodes is handed to the subject and the loop goes on. -/
theorem consumerRunnable_cons_ok {msg : Bytes} {message : α} (h : decode msg = .ok message)
    (rest : List Bytes) :
    consumerRunnable decode (msg :: rest) = .onNext message :: consumerRunnable decode rest := by
  simp [consumerRunnable, consumerLoop, h]

/-- The first message that does not decode ends the loop. -/
theorem consumerRunnable_cons_error {msg : Bytes} {e : ε} (h : decode msg = .error e)
    (rest : List Bytes) : consumerRunnable decode (msg :: rest) = [] := by
  simp [consumerRunnable, consumerLoop, h]

/-- The consumer never signals the end of the stream. -/
theorem exists_item_of_mem_consumerRunnable {msgs : List Bytes} {s : Signal α}
    (h : s ∈ consumerRunnable decode msgs) : ∃ message, s = .onNext message := by
  induction msgs with
  | nil => simp [consumerRunnable, consumerLoop] at h
  | cons msg rest ih =>
    cases hmsg : decode msg with
    | error e => simp [consumerRunnable_cons_error hmsg] at h
    | ok message =>
      rw [consumerRunnable_cons_ok hmsg, List.mem_cons] at h
      exact h.elim (fun hs => ⟨message, hs⟩) ih

/-- Without messages nothing is emitted. -/
@[simp]
theorem emitted_nil : emitted decode [] = [] := rfl

/-- A message that decodes is emitted first. -/
theorem emitted_cons_ok {msg : Bytes} {message : α} (h : decode msg = .ok message)
    (rest : List Bytes) : emitted decode (msg :: rest) = message :: emitted decode rest := by
  rw [emitted, consumerRunnable_cons_ok h]
  rfl

/-- Messages that all decode are emitted before what follows them. -/
theorem emitted_append_of_forall_ok {msgs : List Bytes}
    (h : ∀ msg ∈ msgs, ∃ message, decode msg = .ok message) (rest : List Bytes) :
    emitted decode (msgs ++ rest) = emitted decode msgs ++ emitted decode rest := by
  induction msgs with
  | nil => rfl
  | cons msg msgs ih =>
    obtain ⟨message, hok⟩ := h msg List.mem_cons_self
    rw [List.cons_append, emitted_cons_ok hok, emitted_cons_ok hok, List.cons_append,
      ih fun msg' hmsg' => h msg' (List.mem_cons_of_mem _ hmsg')]

/-- If every message can be decoded, all their items are emitted. -/
theorem emitted_map {ρ : Type} {records : List ρ} {bytes : ρ → Bytes} {item : ρ → α}
    (h : ∀ r ∈ records, decode (bytes r) = .ok (item r)) :
    emitted decode (records.map bytes) = records.map item := by
  induction records with
  | nil => rfl
  | cons r records ih =>
    rw [List.map_cons, emitted_cons_ok (h r List.mem_cons_self), List.map_cons,
      ih fun r' hr' => h r' (List.mem_cons_of_mem _ hr')]

/-- Nothing that follows a message which cannot be decoded is emitted. -/
theorem emitted_append_of_error {msgs : List Bytes} {msg : Bytes} {e : ε} (hmem : msg ∈ msgs)
    (h : decode msg = .error e) (rest : List Bytes) :
    emitted decode (msgs ++ rest) = emitted decode msgs := by
  induction msgs with
  | nil => cases hmem
  | cons first msgs ih =>
    cases hfirst : decode first with
    | error e => rw [List.cons_append, emitted, emitted, consumerRunnable_cons_error hfirst,
        consumerRunnable_cons_error hfirst]
    | ok message =>
      rcases List.mem_cons.mp hmem with rfl | hmem
      · cases hfirst.symm.trans h
      · rw [List.cons_append, emitted_cons_ok hfirst, emitted_cons_ok hfirst, ih hmem]

/-- The messages are handled exactly if everything decodable is emitted. -/
theorem handled_iff (msgs : List Bytes) :
    Handled decode msgs ↔ emitted decode msgs = decodable decode msgs := by
  -- the handler only logs, so the second alternative never occurs
  refine ⟨fun h => h.resolve_right ?_, .inl⟩
  rintro (h | h)
  all_goals
    obtain ⟨_, hitem⟩ := exists_item_of_mem_consumerRunnable h
    cases hitem

/-- Nothing is decodable exactly if every message fails to decode. -/
theorem decodable_eq_nil_iff {msgs : List Bytes} :
    decodable decode msgs = [] ↔ ∀ msg ∈ msgs, ∃ e, decode msg = .error e := by
  rw [decodable, List.filterMap_eq_nil_iff]
  refine forall₂_congr fun msg _ => ?_
  cases decode msg <;> simp [Except.toOption]

/-- All decodable messages are emitted exactly when none of them follows an undecodable one. -/
theorem emitted_eq_decodable_iff (msgs : List Bytes) :
    emitted decode msgs = decodable decode msgs ↔
      ∀ pre msg post, msgs = pre ++ msg :: post → (∃ e, decode msg = .error e) →
        ∀ msg' ∈ post, ∃ e, decode msg' = .error e := by
  induction msgs with
  | nil => simp [emitted, decodable, consumerRunnable, consumerLoop]
  | cons first rest ih =>
    cases hfirst : decode first with
    | error e =>
      -- the loop ends here: nothing that follows is emitted
      have hem : emitted decode (first :: rest) = [] := by
        rw [emitted, consumerRunnable_cons_error hfirst, List.filterMap_nil]
      have hdec : decodable decode (first :: rest) = decodable decode rest := by
        simp [decodable, hfirst, Except.toOption]
      rw [hem, hdec, eq_comm, decodable_eq_nil_iff]
      constructor
      · intro hall pre msg post heq _ msg' hmsg'
        cases pre with
        | nil =>
          obtain ⟨rfl, rfl⟩ := List.cons.inj heq
          exact hall msg' hmsg'
        | cons x pre =>
          obtain ⟨rfl, rfl⟩ := List.cons.inj heq
          exact hall msg' (by simp [hmsg'])
      · exact fun hall => hall [] first rest rfl ⟨e, hfirst⟩
    | ok message =>
      have hdec : decodable decode (first :: rest) = message :: decodable decode rest := by
        simp [decodable, hfirst, Except.toOption]
      rw [emitted_cons_ok hfirst, hdec, List.cons_inj_right, ih]
      constructor
      · intro hall pre msg post heq hmsg
        cases pre with
        | nil =>
          -- the first message can be decoded, so it is not the one that fails
          obtain ⟨rfl, rfl⟩ := List.cons.inj heq
          obtain ⟨e, he⟩ := hmsg
          cases hfirst.symm.trans he
        | cons x pre => exact hall pre msg post (List.cons.inj heq).2 hmsg
      · exact fun hall pre msg post heq => hall (first :: pre) msg post (by rw [heq]; rfl)

end Consumer

open ArpMergedMap

/-- For every stream of Kafka messages of an ARP map, all decodable messages are emitted or the
subscribers are told of the end exactly when no decodable message follows an undecodable one. -/
theorem consumerRunnable_handled_iff {IPv4Addr MAC Bytes : Type} (F : Formats IPv4Addr MAC Bytes)
    (msgs : List Bytes) :
    Handled (fromBytes F) msgs ↔
      ∀ pre msg post, msgs = pre ++ msg :: post → (∃ e, fromBytes F msg = .error e) →
        ∀ msg' ∈ post, ∃ e, fromBytes F msg' = .error e :=
  (handled_iff msgs).trans (emitted_eq_decodable_iff msgs)

/-! ### A message that freezes the map -/

/-- A text that is no message of the map. -/
def garbage : ByteArray := dottedFormats.stringToBytes "garbage"

/-- The opinion of `node1` that `10.0.0.1` has the MAC `02:00:00:00:00:01`. -/
def sampleMessage : ByteArray :=
  dottedFormats.stringToBytes (dottedFormats.ipToString sampleAddress ++ "-" ++
    dottedFormats.encode (sampleEntry 0) ++ "-" ++ "node1")

theorem not_handled_garbage : ¬Handled (fromBytes dottedFormats) [garbage, sampleMessage] := by
  rw [handled_iff, emitted_eq_decodable_iff]
  intro hall
  have hgarbage : ∃ e, fromBytes dottedFormats garbage = .error e := by
    refine exists_error_of_not_mem ?_
    rw [garbage, lawful_dottedFormats.stringFromBytes_stringToBytes]
    decide
  obtain ⟨bytes, hbytes, hok⟩ := fromBytes_serialize lawful_dottedFormats sampleAddress
    (nonNegative_sampleEntry (by decide : (0 : ℤ) ≤ (0 : Int64).toInt))
    (⟨by decide, by decide⟩ : IsOwnerName "node1")
  obtain rfl : sampleMessage = bytes := Except.ok.inj hbytes
  obtain ⟨e, he⟩ := hall [] garbage [sampleMessage] rfl hgarbage sampleMessage (by simp)
  cases hok.symm.trans he

end KafkaBus
