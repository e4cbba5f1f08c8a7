import StateTableBench.Transition.Run
import Mathlib.Data.List.NodupEquivFin
import Mathlib.Tactic.Common

/-!
# Subscribers to all bridges

All observers that are passed to `subscribeAll(Bridge.class, …)` are subscribed to the one subject
`brStream`. Each call also installs a monitor of its own, which publishes there the creations and
deletions of all networks it observes.

`always_eachHearsOnce_iff`: so an observer hears of a network once as long as only one monitor
observes it, and as long as no observer subscribes between its first state and its deletion.
-/

namespace ZoomStorage.Subscriptions

/-- `EntityIdSetEvent` -/
inductive Event (N : Type)
  | create (id : N)
  | delete (id : N)
deriving DecidableEq

/-- The observer of one network: where its create event is in the stream, once its `id` is set, and
whether the network's observable has completed. -/
structure Item where
  created : Option ℕ := none
  completed : Bool := false

/-- The `i`-th call of `subscribeAll` passes the `i`-th observer and installs the `i`-th monitor. -/
structure State (N : Type) where
  networks : List N
  deleted : List N
  /-- What has been published by `brStream`. -/
  published : List (Event N)
  /-- How much had been published when each observer subscribed. -/
  observers : List ℕ
  /-- The items that each monitor has subscribed to the networks. -/
  items : ℕ → N → Option Item

/-- What is done with networks, calls of `subscribeAll`, and what the observable of a network
delivers to the item of a monitor. -/
inductive Action (N : Type)
  | createNetwork (n : N)
  | updateNetwork (n : N)
  | deleteNetwork (n : N)
  | subscribeAll
  | onNext (m : ℕ) (n : N)
  | onCompleted (m : ℕ) (n : N)
deriving DecidableEq

section Steps

variable {N : Type} [DecidableEq N]

/-- Nothing is stored, and nobody has subscribed. -/
def init : State N := ⟨[], [], [], [], fun _ _ => none⟩

def State.setItem (s : State N) (m : ℕ) (n : N) (item : Item) : ℕ → N → Option Item :=
  fun m' n' => if m' = m ∧ n' = n then some item else s.items m' n'

/-- The item publishes a create event, and sets its `id`. -/
def State.publishCreate (s : State N) (m : ℕ) (n : N) : State N :=
  { s with
    published := s.published ++ [.create n]
    items := s.setItem m n ⟨some s.published.length, false⟩ }

def State.publishDelete (s : State N) (m : ℕ) (n : N) (i : ℕ) : State N :=
  { s with
    published := s.published ++ [.delete n]
    items := s.setItem m n ⟨some i, true⟩ }

/-- The states of a network may reach the items at any time until its observable completes, which it
does only after the network has been deleted. What is not possible changes nothing. -/
def step (s : State N) : Action N → State N
  | .createNetwork n =>
    -- the keys are random, and are not used again
    if n ∈ s.networks ∨ n ∈ s.deleted then s
    -- every monitor that is installed subscribes an item to the new network
    else { s with
      networks := n :: s.networks
      items := fun m n' =>
        if m < s.observers.length ∧ n' = n then some {} else s.items m n' }
  | .updateNetwork _ => s
  | .deleteNetwork n =>
    if n ∈ s.networks then
      { s with networks := s.networks.filter (· ≠ n), deleted := n :: s.deleted }
    else s
  | .subscribeAll =>
    -- the observer subscribes to the subject, and its monitor to all networks that there are
    { s with
      observers := s.observers ++ [s.published.length]
      items := fun m n =>
        if m = s.observers.length ∧ n ∈ s.networks then some {} else s.items m n }
  | .onNext m n =>
    -- only the first state sets the `id`
    match s.items m n with
    | some ⟨none, false⟩ => s.publishCreate m n
    | _ => s
  | .onCompleted m n =>
    if n ∈ s.deleted then
      -- without an `id` nothing is published
      match s.items m n with
      | some ⟨some i, false⟩ => s.publishDelete m n i
      | some ⟨none, false⟩ => { s with items := s.setItem m n ⟨none, true⟩ }
      | _ => s
    else s

/-- What is delivered to an observer. -/
def State.heard (s : State N) (pos : ℕ) : List (Event N) := s.published.drop pos

/-- At most one create event and at most one delete event, which comes after the create event. -/
structure HearsOnce (heard : List (Event N)) (n : N) : Prop where
  create : heard.count (.create n) ≤ 1
  delete : heard.count (.delete n) ≤ 1
  order : ∀ pre post, heard = pre ++ .delete n :: post → .create n ∈ pre

/-- This holds for every observer and every network. If the observer's own monitor has received a
state of the network, then the observer has received the create event. -/
def EachHearsOnce (s : State N) : Prop :=
  ∀ m pos, s.observers[m]? = some pos → ∀ n, HearsOnce (s.heard pos) n ∧
    ∀ i completed, s.items m n = some ⟨some i, completed⟩ → (s.heard pos).count (.create n) = 1

/-- The first state of a network reaches a monitor only if none has reached another one, and a
network's observable completes only if nobody has subscribed since its first state. -/
def Exclusive (s : State N) : Action N → Prop
  | .onNext m n => s.items m n = some ⟨none, false⟩ →
      ∀ m' i completed, s.items m' n ≠ some ⟨some i, completed⟩
  | .onCompleted m n => n ∈ s.deleted → ∀ i, s.items m n = some ⟨some i, false⟩ →
      ∀ pos ∈ s.observers, pos ≤ i
  | _ => True

end Steps

/-! ## Streams with one more event -/

section Streams

variable {N : Type} [DecidableEq N] {heard : List (Event N)} {n n' : N} {e : Event N}

/-- Who has heard nothing has heard nothing twice. -/
theorem hearsOnce_nil : HearsOnce [] n :=
  ⟨by simp, by simp, fun pre post h => by simp at h⟩

/-- How often an event was heard, after one more. -/
theorem count_concat (x : Event N) :
    (heard ++ [e]).count x = heard.count x + if e = x then 1 else 0 := by
  simp [List.count_append, List.count_singleton]

/-- One more event may be heard if it is not heard again and, for a delete event, if the create
event has been heard. -/
theorem hearsOnce_concat_iff : HearsOnce (heard ++ [e]) n ↔ HearsOnce heard n ∧
    (e = .create n → .create n ∉ heard) ∧
    (e = .delete n → .delete n ∉ heard ∧ .create n ∈ heard) := by
  constructor
  · intro h
    have hcreate := h.create
    have hdelete := h.delete
    rw [count_concat] at hcreate hdelete
    refine ⟨⟨by omega, by omega, fun pre post heq => ?_⟩, ?_, ?_⟩
    · exact h.order pre (post ++ [e]) (by simp [heq])
    · intro he
      rw [if_pos he] at hcreate
      exact List.count_eq_zero.mp (by omega)
    · intro he
      rw [if_pos he] at hdelete
      exact ⟨List.count_eq_zero.mp (by omega), h.order heard [] (by rw [he])⟩
  · rintro ⟨h, hcreate, hdelete⟩
    refine ⟨?_, ?_, fun pre post heq => ?_⟩
    · rw [count_concat]
      split
      · next he => exact Nat.succ_le_succ (List.count_eq_zero.mpr (hcreate he)).le
      · exact h.create
    · rw [count_concat]
      split
      · next he => exact Nat.succ_le_succ (List.count_eq_zero.mpr (hdelete he).1).le
      · exact h.delete
    -- the delete event is the new one, or it was heard before
    · rcases Run.concat_eq_split_iff.mp heq with ⟨rfl, he, -⟩ | ⟨mid, -, heq'⟩
      · exact (hdelete he).2
      · exact h.order pre mid heq'

/-- An event that occurs at most once occurs at one place. -/
theorem eq_of_count_le_one {i j : ℕ} (hcount : heard.count e ≤ 1) (hi : heard[i]? = some e)
    (hj : heard[j]? = some e) : i = j := by
  have hnot : ∀ a b : ℕ, heard[a]? = some e → heard[b]? = some e → ¬a < b := by
    intro a b ha hb hlt
    obtain ⟨ha', hae⟩ := List.getElem?_eq_some_iff.mp ha
    obtain ⟨hb', hbe⟩ := List.getElem?_eq_some_iff.mp hb
    -- two places would be two occurrences
    have htwice := List.duplicate_iff_two_le_count.mp <|
      List.duplicate_iff_exists_distinct_get.mpr ⟨⟨a, ha'⟩, ⟨b, hb'⟩, hlt, hae.symm, hbe.symm⟩
    omega
  have hij := hnot i j hi hj
  have hji := hnot j i hj hi
  omega

end Streams

/-! ## What a step does -/

section Runs

variable {N : Type} [DecidableEq N] {s s' : State N}

/-- What is published, and by which items. -/
structure Consistent (s : State N) : Prop where
  known : ∀ m n item, s.items m n = some item →
    m < s.observers.length ∧ (n ∈ s.networks ∨ n ∈ s.deleted)
  first : s.observers = [] ∧ s.published = [] ∨ 0 ∈ s.observers
  position : ∀ pos ∈ s.observers, pos ≤ s.published.length
  subscribed : ∀ m n i completed pos, s.items m n = some ⟨some i, completed⟩ →
    s.observers[m]? = some pos → pos ≤ i
  created : ∀ m n i completed, s.items m n = some ⟨some i, completed⟩ →
    s.published[i]? = some (.create n)
  unique : ∀ m m' n i completed completed', s.items m n = some ⟨some i, completed⟩ →
    s.items m' n = some ⟨some i, completed'⟩ → m = m'
  observed : ∀ n, .create n ∈ s.published →
    ∃ m i completed, s.items m n = some ⟨some i, completed⟩
  deleted : ∀ n, .delete n ∈ s.published → ∃ m i, s.items m n = some ⟨some i, true⟩

/-- A step that neither publishes an event nor subscribes an observer. -/
structure Quiet (s s' : State N) : Prop where
  published : s'.published = s.published
  observers : s'.observers = s.observers
  items : ∀ m n i completed, s'.items m n = some ⟨some i, completed⟩ ↔
    s.items m n = some ⟨some i, completed⟩
  known : ∀ m n item, s'.items m n = some item →
    m < s'.observers.length ∧ (n ∈ s'.networks ∨ n ∈ s'.deleted)

omit [DecidableEq N] in
/-- No step at all is quiet. -/
theorem Consistent.quiet (h : Consistent s) : Quiet s s :=
  ⟨rfl, rfl, fun _ _ _ _ => Iff.rfl, h.known⟩

/-- The items for a new network have not observed it. -/
theorem Consistent.quiet_createNetwork (h : Consistent s) (n : N) :
    Quiet s (step s (.createNetwork n)) := by
  rw [step]
  split
  · exact h.quiet
  · next hnew =>
    refine ⟨rfl, rfl, fun m n' i completed => ?_, fun m n' item hitem => ?_⟩
    · dsimp only
      split
      · next hitem =>
        -- an item that has observed the network would have been known
        refine iff_of_false (by simp) fun hold => hnew ?_
        rw [← hitem.2]
        exact (h.known m n' _ hold).2
      · exact Iff.rfl
    · dsimp only at hitem
      split at hitem
      · next hm => exact ⟨hm.1, .inl (by simp [hm.2])⟩
      · exact (h.known m n' item hitem).imp_right (.imp_left (List.mem_cons_of_mem n))

/-- The deletion itself publishes nothing: the monitors do. -/
theorem Consistent.quiet_deleteNetwork (h : Consistent s) (n : N) :
    Quiet s (step s (.deleteNetwork n)) := by
  rw [step]
  split
  · refine ⟨rfl, rfl, fun _ _ _ _ => Iff.rfl, fun m n' item hitem => ?_⟩
    refine (h.known m n' item hitem).imp_right fun hn' => ?_
    by_cases heq : n' = n
    · exact .inr (heq ▸ List.mem_cons_self)
    · exact hn'.imp (fun hmem => List.mem_filter.mpr ⟨hmem, decide_eq_true heq⟩)
        (List.mem_cons_of_mem n)
  · exact h.quiet

/-- An item that has not observed its network completes. -/
theorem Consistent.quiet_setItem (h : Consistent s) {m : ℕ} {n : N}
    (hitem : s.items m n = some ⟨none, false⟩) :
    Quiet s { s with items := s.setItem m n ⟨none, true⟩ } := by
  refine ⟨rfl, rfl, fun m' n' i completed => ?_, fun m' n' item hitem' => ?_⟩
  · dsimp only [State.setItem]
    split
    · next heq =>
      rw [heq.1, heq.2, hitem]
      simp
    · exact Iff.rfl
  · dsimp only [State.setItem] at hitem'
    split at hitem'
    · next heq =>
      rw [heq.1, heq.2]
      exact h.known m n _ hitem
    · exact h.known m' n' item hitem'

/-- A step is quiet and meets the condition, or it is one of three kinds. -/
theorem step_cases (h : Consistent s) (a : Action N) :
    Quiet s (step s a) ∧ Exclusive s a ∨ a = .subscribeAll ∨
      (∃ m n, a = .onNext m n ∧ s.items m n = some ⟨none, false⟩ ∧
        step s a = s.publishCreate m n) ∨
      ∃ m n i, a = .onCompleted m n ∧ n ∈ s.deleted ∧ s.items m n = some ⟨some i, false⟩ ∧
        step s a = s.publishDelete m n i := by
  cases a with
  | createNetwork n => exact .inl ⟨h.quiet_createNetwork n, trivial⟩
  | updateNetwork n => exact .inl ⟨h.quiet, trivial⟩
  | deleteNetwork n => exact .inl ⟨h.quiet_deleteNetwork n, trivial⟩
  | subscribeAll => exact .inr (.inl rfl)
  | onNext m n =>
    simp only [step]
    split
    · next hitem => exact .inr (.inr (.inl ⟨m, n, rfl, hitem, rfl⟩))
    · next hitem => exact .inl ⟨h.quiet, fun hfirst => absurd hfirst hitem⟩
  | onCompleted m n =>
    simp only [step]
    split
    · next hdeleted =>
      split
      · next i hitem => exact .inr (.inr (.inr ⟨m, n, i, rfl, hdeleted, hitem, rfl⟩))
      · next hitem =>
        refine .inl ⟨h.quiet_setItem hitem, fun _ i hother => ?_⟩
        rw [hitem] at hother
        cases hother
      · next hitem _ => exact .inl ⟨h.quiet, fun _ i hother => absurd hother (hitem i)⟩
    · next hnot => exact .inl ⟨h.quiet, fun hdeleted => absurd hdeleted hnot⟩

/-! ## What all runs keep -/

/-- Only the item set is another one. -/
theorem setItem_eq_some_iff {m m' : ℕ} {n n' : N} {item item' : Item} :
    s.setItem m n item m' n' = some item' ↔
      (m' = m ∧ n' = n ∧ item' = item) ∨ (¬(m' = m ∧ n' = n) ∧ s.items m' n' = some item') := by
  unfold State.setItem
  split
  · next heq => simp [heq.1, heq.2, eq_comm]
  · next hne => simp [hne, ← and_assoc]

omit [DecidableEq N] in
/-- A quiet step keeps the state consistent. -/
theorem Quiet.consistent (hquiet : Quiet s s') (h : Consistent s) : Consistent s' where
  known := hquiet.known
  first := by
    rw [hquiet.observers, hquiet.published]
    exact h.first
  position := by
    rw [hquiet.observers, hquiet.published]
    exact h.position
  subscribed m n i completed pos hitem := by
    rw [hquiet.observers]
    exact h.subscribed m n i completed pos ((hquiet.items m n i completed).mp hitem)
  created m n i completed hitem := by
    rw [hquiet.published]
    exact h.created m n i completed ((hquiet.items m n i completed).mp hitem)
  unique m m' n i completed completed' hitem hitem' :=
    h.unique m m' n i completed completed' ((hquiet.items m n i completed).mp hitem)
      ((hquiet.items m' n i completed').mp hitem')
  observed n hmem := by
    rw [hquiet.published] at hmem
    obtain ⟨m, i, completed, hitem⟩ := h.observed n hmem
    exact ⟨m, i, completed, (hquiet.items m n i completed).mpr hitem⟩
  deleted n hmem := by
    rw [hquiet.published] at hmem
    obtain ⟨m, i, hitem⟩ := h.deleted n hmem
    exact ⟨m, i, (hquiet.items m n i true).mpr hitem⟩

/-- The items of the new monitor have not observed anything. -/
theorem items_subscribeAll {m : ℕ} {n : N} {i : ℕ} {completed : Bool} (h : Consistent s) :
    (step s .subscribeAll).items m n = some ⟨some i, completed⟩ ↔
      s.items m n = some ⟨some i, completed⟩ := by
  simp only [step]
  split
  · next hm =>
    refine iff_of_false (by simp) fun hold => ?_
    have hlt := (h.known m n _ hold).1
    omega
  · exact Iff.rfl

/-- A further subscription starts with nothing heard. -/
theorem Consistent.subscribeAll (h : Consistent s) : Consistent (step s .subscribeAll) where
  known m n item hitem := by
    simp only [step] at hitem ⊢
    rw [List.length_append, List.length_singleton]
    split at hitem
    · next hm => exact ⟨by omega, .inl hm.2⟩
    · exact (h.known m n item hitem).imp_left Nat.lt_succ_of_lt
  first := by
    refine .inr ?_
    rcases h.first with ⟨hobservers, hpublished⟩ | hmem
    · simp [step, hobservers, hpublished]
    · exact List.mem_append_left _ hmem
  position pos hpos := by
    rcases List.mem_append.mp hpos with hold | hlast
    · exact h.position pos hold
    · rw [List.mem_singleton.mp hlast]
      exact le_rfl
  subscribed m n i completed pos hitem hpos := by
    rw [items_subscribeAll h] at hitem
    simp only [step] at hpos
    rw [List.getElem?_append_left (h.known m n _ hitem).1] at hpos
    exact h.subscribed m n i completed pos hitem hpos
  created m n i completed hitem := h.created m n i completed ((items_subscribeAll h).mp hitem)
  unique m m' n i completed completed' hitem hitem' :=
    h.unique m m' n i completed completed' ((items_subscribeAll h).mp hitem)
      ((items_subscribeAll h).mp hitem')
  observed n hmem := by
    obtain ⟨m, i, completed, hitem⟩ := h.observed n hmem
    exact ⟨m, i, completed, (items_subscribeAll h).mpr hitem⟩
  deleted n hmem := by
    obtain ⟨m, i, hitem⟩ := h.deleted n hmem
    exact ⟨m, i, (items_subscribeAll h).mpr hitem⟩

/-- Items other than the one that is set are not touched. -/
theorem setItem_of_ne {m m' : ℕ} {n n' : N} {old item item' : Item} (hold : s.items m n = some old)
    (hitem : s.items m' n' = some item') (hne : old ≠ item') :
    s.setItem m n item m' n' = some item' := by
  refine setItem_eq_some_iff.mpr (.inr ⟨?_, hitem⟩)
  rintro ⟨rfl, rfl⟩
  exact hne (Option.some.inj (hold.symm.trans hitem))

omit [DecidableEq N] in
/-- Someone has subscribed when the first state reaches a monitor. -/
theorem Consistent.zero_mem (h : Consistent s) {m : ℕ} {n : N} {item : Item}
    (hitem : s.items m n = some item) : 0 ∈ s.observers := by
  refine h.first.resolve_left fun hnone => ?_
  have hlt := (h.known m n item hitem).1
  rw [hnone.1] at hlt
  exact absurd hlt (Nat.not_lt_zero m)

/-- The monitor of an item that is set was known before. -/
theorem Consistent.known_setItem (h : Consistent s) {m m' : ℕ} {n n' : N} {old item item' : Item}
    (hold : s.items m n = some old) (hitem : s.setItem m n item m' n' = some item') :
    m' < s.observers.length ∧ (n' ∈ s.networks ∨ n' ∈ s.deleted) := by
  rcases setItem_eq_some_iff.mp hitem with ⟨rfl, rfl, -⟩ | ⟨-, hrest⟩
  · exact h.known _ _ _ hold
  · exact h.known _ _ _ hrest

omit [DecidableEq N] in
/-- What an item has published is in the subject. -/
theorem Consistent.lt_length (h : Consistent s) {m i : ℕ} {n : N} {completed : Bool}
    (hitem : s.items m n = some ⟨some i, completed⟩) : i < s.published.length :=
  (List.getElem?_eq_some_iff.mp (h.created m n i completed hitem)).1

/-- Publishing a creation keeps the state consistent. -/
theorem Consistent.publishCreate (h : Consistent s) {m : ℕ} {n : N}
    (hitem : s.items m n = some ⟨none, false⟩) : Consistent (s.publishCreate m n) where
  known m' n' item hitem' := h.known_setItem hitem hitem'
  first := .inr (h.zero_mem hitem)
  position pos hpos := (h.position pos hpos).trans (by simp [State.publishCreate])
  subscribed m' n' i completed pos hitem' hpos := by
    rcases setItem_eq_some_iff.mp hitem' with ⟨-, -, heq⟩ | ⟨-, hrest⟩
    · cases heq
      exact h.position pos (List.mem_of_getElem? hpos)
    · exact h.subscribed m' n' i completed pos hrest hpos
  created m' n' i completed hitem' := by
    rcases setItem_eq_some_iff.mp hitem' with ⟨-, rfl, heq⟩ | ⟨-, hrest⟩
    · cases heq
      exact List.getElem?_concat_length
    · exact (List.getElem?_append_left (h.lt_length hrest)).trans
        (h.created m' n' i completed hrest)
  unique m₁ m₂ n' i c₁ c₂ h₁ h₂ := by
    -- the position of the new event is not that of any other one
    rcases setItem_eq_some_iff.mp h₁ with ⟨rfl, -, heq₁⟩ | ⟨-, hrest₁⟩
    · cases heq₁
      rcases setItem_eq_some_iff.mp h₂ with ⟨rfl, -, -⟩ | ⟨-, hrest₂⟩
      · rfl
      · exact absurd (h.lt_length hrest₂) (Nat.lt_irrefl _)
    · rcases setItem_eq_some_iff.mp h₂ with ⟨-, -, heq₂⟩ | ⟨-, hrest₂⟩
      · cases heq₂
        exact absurd (h.lt_length hrest₁) (Nat.lt_irrefl _)
      · exact h.unique m₁ m₂ n' i c₁ c₂ hrest₁ hrest₂
  observed n' hmem := by
    rcases List.mem_append.mp hmem with hold | hnew
    · obtain ⟨m', i, completed, hitem'⟩ := h.observed n' hold
      exact ⟨m', i, completed, setItem_of_ne hitem hitem' (by simp)⟩
    · cases List.mem_singleton.mp hnew
      exact ⟨m, _, false, setItem_eq_some_iff.mpr (.inl ⟨rfl, rfl, rfl⟩)⟩
  deleted n' hmem := by
    rcases List.mem_append.mp hmem with hold | hnew
    · obtain ⟨m', i, hitem'⟩ := h.deleted n' hold
      exact ⟨m', i, setItem_of_ne hitem hitem' (by simp)⟩
    · cases List.mem_singleton.mp hnew

/-- An item that completes has published its create event before. -/
theorem items_of_setItem {m m' i j : ℕ} {n n' : N} {completed : Bool}
    (hitem : s.items m n = some ⟨some i, false⟩)
    (hitem' : s.setItem m n ⟨some i, true⟩ m' n' = some ⟨some j, completed⟩) :
    ∃ completed', s.items m' n' = some ⟨some j, completed'⟩ := by
  rcases setItem_eq_some_iff.mp hitem' with ⟨rfl, rfl, heq⟩ | ⟨-, hrest⟩
  · cases heq
    exact ⟨false, hitem⟩
  · exact ⟨completed, hrest⟩

/-- Publishing a deletion keeps the state consistent. -/
theorem Consistent.publishDelete (h : Consistent s) {m i : ℕ} {n : N}
    (hitem : s.items m n = some ⟨some i, false⟩) : Consistent (s.publishDelete m n i) where
  known m' n' item hitem' := h.known_setItem hitem hitem'
  first := .inr (h.zero_mem hitem)
  position pos hpos := (h.position pos hpos).trans (by simp [State.publishDelete])
  subscribed m' n' j completed pos hitem' hpos := by
    obtain ⟨completed', hold⟩ := items_of_setItem hitem hitem'
    exact h.subscribed m' n' j completed' pos hold hpos
  created m' n' j completed hitem' := by
    obtain ⟨completed', hold⟩ := items_of_setItem hitem hitem'
    exact (List.getElem?_append_left (h.lt_length hold)).trans (h.created m' n' j completed' hold)
  unique m₁ m₂ n' j c₁ c₂ h₁ h₂ := by
    obtain ⟨c₁', hold₁⟩ := items_of_setItem hitem h₁
    obtain ⟨c₂', hold₂⟩ := items_of_setItem hitem h₂
    exact h.unique m₁ m₂ n' j c₁' c₂' hold₁ hold₂
  observed n' hmem := by
    rcases List.mem_append.mp hmem with hold | hnew
    · obtain ⟨m', j, completed, hitem'⟩ := h.observed n' hold
      by_cases heq : m' = m ∧ n' = n
      · exact ⟨m, i, true, setItem_eq_some_iff.mpr (.inl ⟨rfl, heq.2, rfl⟩)⟩
      · exact ⟨m', j, completed, setItem_eq_some_iff.mpr (.inr ⟨heq, hitem'⟩)⟩
    · cases List.mem_singleton.mp hnew
  deleted n' hmem := by
    rcases List.mem_append.mp hmem with hold | hnew
    · obtain ⟨m', j, hitem'⟩ := h.deleted n' hold
      exact ⟨m', j, setItem_of_ne hitem hitem' (by simp)⟩
    · cases List.mem_singleton.mp hnew
      exact ⟨m, i, setItem_eq_some_iff.mpr (.inl ⟨rfl, rfl, rfl⟩)⟩

/-- Every step keeps the state consistent. -/
theorem Consistent.step (h : Consistent s) (a : Action N) : Consistent (step s a) := by
  rcases step_cases h a with ⟨hquiet, -⟩ | rfl | ⟨m, n, rfl, hitem, hstep⟩ |
    ⟨m, n, i, rfl, -, hitem, hstep⟩
  · exact hquiet.consistent h
  · exact h.subscribeAll
  · rw [hstep]
    exact h.publishCreate hitem
  · rw [hstep]
    exact h.publishDelete hitem

omit [DecidableEq N] in
/-- Before any step nothing is published. -/
theorem consistent_init : Consistent (init : State N) := by
  constructor <;> simp [init]

/-! ## What is heard -/

/-- After a quiet step everybody has heard what they had heard. -/
theorem Quiet.eachHearsOnce (hquiet : Quiet s s') (heach : EachHearsOnce s) : EachHearsOnce s' := by
  intro m pos hpos n
  rw [hquiet.observers] at hpos
  rw [State.heard, hquiet.published]
  obtain ⟨honce, hown⟩ := heach m pos hpos n
  exact ⟨honce, fun i completed hitem => hown i completed ((hquiet.items m n i completed).mp hitem)⟩

/-- A new observer has not heard of anything. -/
theorem EachHearsOnce.subscribeAll (heach : EachHearsOnce s) (h : Consistent s) :
    EachHearsOnce (step s .subscribeAll) := by
  intro m pos hpos n
  simp only [step] at hpos
  have hitems : ∀ i completed, (step s .subscribeAll).items m n = some ⟨some i, completed⟩ →
      s.items m n = some ⟨some i, completed⟩ := fun i completed => (items_subscribeAll h).mp
  by_cases hm : m < s.observers.length
  · rw [List.getElem?_append_left hm] at hpos
    obtain ⟨honce, hown⟩ := heach m pos hpos n
    exact ⟨honce, fun i completed hitem => hown i completed (hitems i completed hitem)⟩
  · rw [List.getElem?_append_right (Nat.le_of_not_lt hm)] at hpos
    obtain rfl : s.published.length = pos :=
      List.mem_singleton.mp (List.mem_of_getElem? hpos) |>.symm
    refine ⟨?_, fun i completed hitem => absurd (h.known m n _ (hitems i completed hitem)).1 hm⟩
    have hnil : (step s .subscribeAll).heard s.published.length = [] := List.drop_length
    rw [hnil]
    exact hearsOnce_nil

/-- The first observer hears everything. -/
theorem EachHearsOnce.all (heach : EachHearsOnce s) (hzero : 0 ∈ s.observers) (n : N) :
    HearsOnce s.published n := by
  obtain ⟨m, hm⟩ := List.getElem?_of_mem hzero
  exact (heach m 0 hm n).1

/-- A creation is heard twice if another monitor has published it. -/
theorem EachHearsOnce.publishCreate_iff (heach : EachHearsOnce s) (h : Consistent s) {m : ℕ} {n : N}
    (hitem : s.items m n = some ⟨none, false⟩) :
    EachHearsOnce (s.publishCreate m n) ↔
      ∀ m' i completed, s.items m' n ≠ some ⟨some i, completed⟩ := by
  constructor
  · intro hnew m' i completed hobserved
    -- the first observer would hear of the network twice
    have hfirst := hearsOnce_concat_iff.mp (hnew.all (h.zero_mem hitem) n)
    exact hfirst.2.1 rfl (List.mem_of_getElem? (h.created m' n i completed hobserved))
  · intro hnone k pos hpos n'
    -- a create event that has been heard was published by an item, but none has observed it
    have hnot : n = n' → .create n' ∉ s.heard pos := by
      rintro rfl hmem
      obtain ⟨m', i, completed, hobserved⟩ := h.observed n (List.mem_of_mem_drop hmem)
      exact hnone m' i completed hobserved
    obtain ⟨honce, hown⟩ := heach k pos hpos n'
    have hheard : (s.publishCreate m n).heard pos = s.heard pos ++ [.create n] :=
      List.drop_append_of_le_length (h.position pos (List.mem_of_getElem? hpos))
    rw [hheard]
    refine ⟨hearsOnce_concat_iff.mpr ⟨honce, fun he => hnot (Event.create.inj he), nofun⟩, ?_⟩
    intro i completed hitem'
    rw [count_concat]
    -- the observer's own item has just published the event, or it is one for another network
    rcases setItem_eq_some_iff.mp hitem' with ⟨-, rfl, -⟩ | ⟨-, hrest⟩
    · rw [List.count_eq_zero.mpr (hnot rfl), if_pos rfl]
    · have hne : n ≠ n' := by
        rintro rfl
        exact hnone k i completed hrest
      rw [hown i completed hrest, if_neg (by simpa using hne)]

/-- A deletion is out of place for who subscribed after the creation. -/
theorem EachHearsOnce.publishDelete_iff (heach : EachHearsOnce s) (h : Consistent s) {m i : ℕ}
    {n : N} (hitem : s.items m n = some ⟨some i, false⟩) :
    EachHearsOnce (s.publishDelete m n i) ↔ ∀ pos ∈ s.observers, pos ≤ i := by
  have hcreated := h.created m n i false hitem
  -- the create event of the network is at the place `i` only
  have hplace : ∀ j, s.published[j]? = some (.create n) → i = j := fun j hj =>
    eq_of_count_le_one (heach.all (h.zero_mem hitem) n).create hcreated hj
  constructor
  · intro hnew pos hpos
    -- who hears the delete event has heard the create event, and that is after the subscription
    obtain ⟨k, hk⟩ := List.getElem?_of_mem hpos
    have honce := (hnew k pos hk n).1
    rw [State.heard, State.publishDelete,
      List.drop_append_of_le_length (h.position pos hpos)] at honce
    obtain ⟨j, hj⟩ := List.getElem?_of_mem ((hearsOnce_concat_iff.mp honce).2.2 rfl).2
    rw [List.getElem?_drop] at hj
    rw [hplace _ hj]
    exact Nat.le_add_right pos j
  · intro hle k pos hpos n'
    have hmem := List.mem_of_getElem? hpos
    obtain ⟨honce, hown⟩ := heach k pos hpos n'
    have hheard : (s.publishDelete m n i).heard pos = s.heard pos ++ [.delete n] :=
      List.drop_append_of_le_length (h.position pos hmem)
    rw [hheard]
    refine ⟨hearsOnce_concat_iff.mpr ⟨honce, nofun, fun he => ?_⟩, ?_⟩
    · cases he
      refine ⟨fun hdelete => ?_, List.mem_of_getElem? (i := i - pos) ?_⟩
      · -- the item that has published it is this one, which has not completed
        obtain ⟨m', j, hdone⟩ := h.deleted n (List.mem_of_mem_drop hdelete)
        obtain rfl := hplace j (h.created m' n j true hdone)
        obtain rfl := h.unique m m' n i false true hitem hdone
        rw [hitem] at hdone
        cases hdone
      · rw [State.heard, List.getElem?_drop, Nat.add_sub_cancel' (hle pos hmem)]
        exact hcreated
    · intro j completed hitem'
      obtain ⟨completed', hold⟩ := items_of_setItem hitem hitem'
      rw [count_concat, hown j completed' hold, if_neg nofun]

/-- A step keeps this exactly if it meets the condition. -/
theorem EachHearsOnce.step_iff (heach : EachHearsOnce s) (h : Consistent s) (a : Action N) :
    EachHearsOnce (step s a) ↔ Exclusive s a := by
  rcases step_cases h a with ⟨hquiet, hok⟩ | rfl | ⟨m, n, rfl, hitem, hstep⟩ |
    ⟨m, n, i, rfl, hdeleted, hitem, hstep⟩
  · exact iff_of_true (hquiet.eachHearsOnce heach) hok
  · exact iff_of_true (heach.subscribeAll h) trivial
  · rw [hstep, heach.publishCreate_iff h hitem]
    exact ⟨fun hnone _ => hnone, fun hok => hok hitem⟩
  · rw [hstep, heach.publishDelete_iff h hitem]
    refine ⟨fun hle _ j hj => ?_, fun hok => hok hdeleted i hitem⟩
    rw [hitem] at hj
    cases hj
    exact hle

/-- In every run, all observers hear of each network once exactly if each network is observed by one
monitor only, and nobody subscribes between its first state and its deletion. -/
theorem always_eachHearsOnce_iff (actions : List (Action N)) :
    Run.Always step init EachHearsOnce actions ↔ Run.EachStep step init Exclusive actions := by
  have hinit : EachHearsOnce (init : State N) := fun m pos hpos => by simp [init] at hpos
  -- only together with `Consistent` is this kept by a step exactly if it meets the condition
  have hboth : Run.Always step init (fun s => Consistent s ∧ EachHearsOnce s) actions ↔
      Run.EachStep step init Exclusive actions :=
    Run.always_iff ⟨consistent_init, hinit⟩ (fun s a hs =>
      ⟨fun hnext => (hs.2.step_iff hs.1 a).mp hnext.2,
        fun hok => ⟨hs.1.step a, (hs.2.step_iff hs.1 a).mpr hok⟩⟩) actions
  rw [← hboth]
  refine forall₂_congr fun pre _ => ?_
  have hconsistent : Consistent (pre.foldl step init) :=
    Run.inv_foldl consistent_init (fun s a hs => hs.step a) pre
  exact ⟨fun heach => ⟨hconsistent, heach⟩, And.right⟩

/-- Two monitors observe one network. -/
theorem not_always_eachHearsOnce :
    ¬Run.Always step init EachHearsOnce
      [.subscribeAll, .subscribeAll, .createNetwork 0, .onNext 0 0, .onNext 1 0] := by
  intro halways
  have hfirst := (halways _ List.prefix_rfl 0 0 rfl 0).1.create
  exact absurd hfirst (by decide)

end Runs

end ZoomStorage.Subscriptions
