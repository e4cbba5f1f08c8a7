import StateTableBench.MergedMap.Opinions
import StateTableBench.Transition.Run

/-!
# Subscribers replicate the map

Opinions and subscriptions are tasks of one single-threaded scheduler. A subscription first sends
the winning opinions of the moment and then attaches the subscriber to `winningSubject`, which
passes on every later emission. `replay` is what a subscriber can build from the events it has
received; `replay_eq_snapshot` says that this is the snapshot of the map, for every strategy and
every interleaving of the tasks.

A map to which only one owner writes emits one event for each of its opinions
(`SingleOwner.emitted`).
-/

open FiniteMap

namespace MergedMap

variable {H T : Type → Type → Type} [FiniteMap H] [FiniteMap T]
variable {K V : Type} [DecidableEq K] [DecidableEq V]

/-- The map together with the events each subscriber of `observable` has received, oldest
first. -/
structure Observed (H T : Type → Type → Type) (K V : Type) where
  map : MergedMap H T K V
  subscribers : List (List (K × Option V))

/-- A task of `myScheduler`. -/
inductive Task (K V : Type)
  /-- An opinion emitted from storage. -/
  | opinion (op : Opinion K V)
  /-- A subscription to `observable`. -/
  | subscribe

namespace Observed

/-- A write to the map, or an emission, which reaches the current subscribers. -/
def perform (sys : Observed H T K V) : Write H K V → Observed H T K V
  | .onNext k v => { sys with subscribers := sys.subscribers.map (· ++ [(k, v)]) }
  | w => { sys with map := w.apply sys.map }

/-- `onSubscribe`: send the winners to the new subscriber, then attach it. -/
def onSubscribe (sys : Observed H T K V) : Observed H T K V :=
  { sys with
    subscribers := sys.subscribers ++ [sys.map.snapshot.map fun entry => (entry.1, some entry.2)] }

/-- The effect of one task. -/
def runTask (crStrategy : V → V → Ordering) (sys : Observed H T K V) :
    Task K V → Observed H T K V
  | .opinion op => (onNewOpinionWrites crStrategy sys.map op).foldl perform sys
  | .subscribe => sys.onSubscribe

/-- A fresh map without subscribers. -/
def init : Observed H T K V := ⟨MergedMap.init, []⟩

/-- The system after a sequence of tasks. -/
def runAll (crStrategy : V → V → Ordering) (tasks : List (Task K V)) : Observed H T K V :=
  tasks.foldl (runTask crStrategy) init

end Observed

/-- What a subscriber can build from its events: `(k, some v)` stores `v` at `k`, `(k, none)`
deletes `k`. -/
def replay (events : List (K × Option V)) : K → Option V :=
  events.foldl (fun m e => Function.update m e.1 e.2) fun _ => none

omit [DecidableEq V] in
/-- An event overwrites what its key had. -/
theorem replay_concat (events : List (K × Option V)) (k : K) (v : Option V) :
    replay (events ++ [(k, v)]) = Function.update (replay events) k v := by
  simp [replay]

/-! ## Emissions follow the winners -/

/-- The events emitted by a list of writes. -/
def emitted : List (Write H K V) → List (K × Option V)
  | [] => []
  | .onNext k v :: ws => (k, v) :: emitted ws
  | _ :: ws => emitted ws

omit [DecidableEq V] in
/-- Performing writes applies them to the map and sends the emissions to every subscriber. -/
theorem Observed.foldl_perform (ws : List (Write H K V)) (sys : Observed H T K V) :
    ws.foldl perform sys =
      ⟨ws.foldl Write.apply sys.map, sys.subscribers.map (· ++ emitted ws)⟩ := by
  induction ws generalizing sys with
  | nil => simp [emitted]
  | cons w ws ih =>
    rw [List.foldl_cons, ih, List.foldl_cons]
    -- only `onNext` reaches the subscribers, and it leaves the map alone
    cases w <;> simp [perform, emitted, Write.apply, List.map_map, Function.comp_def]

variable (crStrategy : V → V → Ordering) (s : MergedMap H T K V) (k : K) (v : V) (o : String)

omit [FiniteMap T] in
/-- An addition emits the opinion if it wins, and nothing otherwise. -/
theorem emitted_some :
    emitted (onNewOpinionWrites crStrategy s ⟨k, some v, o⟩) =
      if wins crStrategy s k v o then [(k, some v)] else [] := by
  simp only [onNewOpinionWrites, onOpinionAddition]
  by_cases hwin : wins crStrategy s k v o
  · have hpair : winningPair crStrategy (put (s.opinions k) o v) = some (o, v) := hwin
    rw [if_pos hpair, if_pos hwin]
    split
    · rfl
    · split_ifs <;> rfl
  · have hpair : winningPair crStrategy (put (s.opinions k) o v) ≠ some (o, v) := hwin
    rw [if_neg hpair, if_neg hwin]
    split
    · rfl
    · split_ifs <;> rfl

omit [FiniteMap T] in
/-- A removal emits the new winner if the winner changes, and nothing otherwise. -/
theorem emitted_none :
    emitted (onNewOpinionWrites crStrategy s ⟨k, none, o⟩) =
      if winnerChanges crStrategy s k o then
        [(k, (winningPair crStrategy (s.withoutOwner k o)).map Prod.snd)] else [] := by
  rw [onNewOpinionWrites]
  cases hc : get? s.cache k with
  | none =>
    rw [if_neg (not_winnerChanges_of_cache_eq_none crStrategy s k o hc)]
    simp [onOpinionRemoval, hc, emitted]
  | some before =>
    rw [onOpinionRemoval_of_cache_eq_some crStrategy s k o hc]
    cases winningPair crStrategy (s.withoutOwner k o) <;> split_ifs <;> rfl

/-- A subscriber that is up to date before a step is up to date after it. -/
theorem replay_append_emitted (op : Opinion K V) (events : List (K × Option V))
    (h : ∀ k, replay events k = s.get k) (k : K) :
    replay (events ++ emitted (onNewOpinionWrites crStrategy s op)) k =
      (onNewOpinion crStrategy s op).get k := by
  obtain ⟨k₀, v₀, o₀⟩ := op
  cases v₀ with
  | none =>
    -- the map and the emissions are guarded by the same test
    rw [emitted_none, get, winners_onNewOpinion_none]
    split_ifs with hchange
    · rw [replay_concat]
      cases winningPair crStrategy (s.withoutOwner k₀ o₀) with
      | none => rw [get?_remove, Option.map_none, Function.update_apply, h k, get]
      | some p => rw [get?_put, Option.map_some, Function.update_apply, h k, get]
    · rw [List.append_nil, h k, get]
  | some v =>
    rw [emitted_some, get, winners_onNewOpinion_some]
    split_ifs with hwin
    · rw [replay_concat, get?_put, Function.update_apply, h k, get]
    · rw [List.append_nil, h k, get]

/-! ## The initial dump -/

omit [DecidableEq V] in
/-- Replaying the dump of a list of entries with distinct keys yields those entries. -/
theorem replay_map_some {l : List (K × V)} (hnd : (l.map Prod.fst).Nodup) (k : K) (v : V) :
    replay (l.map fun entry => (entry.1, some entry.2)) k = some v ↔ (k, v) ∈ l := by
  induction l using List.reverseRecOn with
  | nil => simp [replay]
  | append_singleton l entry ih =>
    obtain ⟨a, x⟩ := entry
    rw [List.map_append, List.nodup_append] at hnd
    -- the last entry is the only one for its key, so the update overwrites nothing
    have hfresh : (a, v) ∉ l := fun hmem =>
      hnd.2.2 a (List.mem_map.mpr ⟨(a, v), hmem, rfl⟩) a (by simp) rfl
    rw [List.map_append, List.map_singleton, replay_concat, Function.update_apply, List.mem_append,
      List.mem_singleton, Prod.mk.injEq]
    by_cases hk : k = a
    · subst hk
      simp [hfresh, eq_comm]
    · simp [hk, ih hnd.1]

omit [FiniteMap H] [DecidableEq V] in
/-- The snapshot lists what `get` returns. -/
theorem mem_snapshot : (k, v) ∈ s.snapshot ↔ s.get k = some v :=
  mem_entries

omit [FiniteMap H] [DecidableEq V] in
/-- The dump alone brings a new subscriber up to date. -/
theorem replay_dump : replay (s.snapshot.map fun entry => (entry.1, some entry.2)) k = s.get k := by
  have hnd : (s.snapshot.map Prod.fst).Nodup := nodup_map_fst_entries s.winners
  rw [Option.ext_iff]
  intro x
  rw [replay_map_some hnd, mem_snapshot]

/-! ## Whole runs -/

/-- Every subscriber is up to date. -/
def Observed.UpToDate (sys : Observed H T K V) : Prop :=
  ∀ events ∈ sys.subscribers, ∀ k, replay events k = sys.map.get k

/-- A task keeps every subscriber up to date. -/
theorem Observed.UpToDate.runTask {sys : Observed H T K V} (h : sys.UpToDate) (task : Task K V) :
    (sys.runTask crStrategy task).UpToDate := by
  cases task with
  | opinion op =>
    intro events hmem k
    rw [Observed.runTask, foldl_perform] at hmem ⊢
    obtain ⟨before, hbefore, rfl⟩ := List.mem_map.mp hmem
    exact replay_append_emitted crStrategy sys.map op before (h before hbefore) k
  | subscribe =>
    intro events hmem k
    rcases List.mem_append.mp hmem with hold | hnew
    · exact h events hold k
    · rw [List.mem_singleton.mp hnew]
      exact replay_dump sys.map k

/-- After every sequence of opinions and subscriptions, what any subscriber can build from the
events it has received is exactly the snapshot of the map. -/
theorem replay_eq_snapshot (tasks : List (Task K V)) :
    ∀ events ∈ (Observed.runAll crStrategy tasks : Observed H T K V).subscribers, ∀ k v,
      replay events k = some v ↔
        (k, v) ∈ (Observed.runAll crStrategy tasks : Observed H T K V).map.snapshot := by
  have hup : (Observed.runAll crStrategy tasks : Observed H T K V).UpToDate :=
    Run.inv_foldl (by simp [Observed.UpToDate, Observed.init])
      (fun _ task h => h.runTask crStrategy task) tasks
  intro events hmem k v
  rw [hup events hmem k, mem_snapshot]

/-- A subscriber that joins after the first of two opinions. -/
theorem replay_eq_snapshot_joining :
    let tasks : List (Task ℕ ℕ) :=
      [.opinion ⟨0, some 5, "node1"⟩, .subscribe, .opinion ⟨0, some 10, "node2"⟩]
    let sys : Observed AssocMap AssocMap ℕ ℕ := Observed.runAll compare tasks
    [(0, some 5), (0, some 10)] ∈ sys.subscribers ∧
      ∀ k v, replay [(0, some 5), (0, some 10)] k = some v ↔ (k, v) ∈ sys.map.snapshot :=
  ⟨by decide, replay_eq_snapshot compare _ _ (by decide)⟩

/-! ## Maps with a single owner -/

/-- All opinions in the map are those of one owner. -/
def SingleOwner (o : String) (s : MergedMap H T K V) : Prop :=
  ∀ k o', o' ≠ o → s.opinion k o' = none

omit [DecidableEq V] in
/-- A new map has no opinions of others. -/
theorem singleOwner_init : SingleOwner o (init : MergedMap H T K V) :=
  fun k o' _ => opinion_init k o'

variable {s o}

/-- An opinion of the single owner keeps it the only one. -/
theorem SingleOwner.onNewOpinion (h : SingleOwner o s) (op : Opinion K V) (howner : op.owner = o) :
    SingleOwner o (onNewOpinion crStrategy s op) := by
  intro k' o' hne
  rw [opinion_onNewOpinion, if_neg fun hko => hne (hko.2.symm.trans howner)]
  exact h k' o' hne

omit [FiniteMap T] in
/-- Where nobody else has an opinion, every opinion wins, also one that is not greater than the
opinion it replaces. -/
theorem SingleOwner.wins (h : SingleOwner o s) : wins crStrategy s k v o := by
  by_contra hlose
  obtain ⟨o', v', -, hne, hget⟩ := exists_winningPair_of_not_wins hlose
  have hnone : get? (s.opinions k) o' = none := h k o' hne
  rw [hnone] at hget
  cases hget

omit [FiniteMap T] in
/-- The map emits one event for each opinion of its owner, with the value of the opinion. -/
theorem SingleOwner.emitted (h : SingleOwner o s) :
    emitted (onNewOpinionWrites crStrategy s ⟨k, some v, o⟩) = [(k, some v)] := by
  rw [emitted_some, if_pos (h.wins crStrategy k v)]

end MergedMap
