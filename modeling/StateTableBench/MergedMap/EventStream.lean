import StateTableBench.MergedMap.Size
import StateTableBench.MergedMap.Subscribers

/-!
# The events of a map with a single owner

`LatencyBench.arpMergedMapBench` subscribes to a map, reads its size and then takes event number
`size + i` for the notification of its `i`-th write. This is right if nobody else writes to the map:
a subscriber first gets as many events as the map has entries, and then one for each addition, also
for one with a smaller value than before (`subscribe_singleOwner`).
-/

open FiniteMap

namespace MergedMap

variable {H T : Type → Type → Type} [FiniteMap H] [FiniteMap T]
variable {K V : Type} [DecidableEq K] [DecidableEq V]
variable (crStrategy : V → V → Ordering)

namespace Observed

/-- A task for an opinion brings the map to the next state and sends what it emits. -/
theorem runTask_opinion (sys : Observed H T K V) (op : Opinion K V) :
    sys.runTask crStrategy (.opinion op) =
      ⟨onNewOpinion crStrategy sys.map op,
        sys.subscribers.map (· ++ emitted (onNewOpinionWrites crStrategy sys.map op))⟩ :=
  foldl_perform _ _

/-- In every reachable state the counter counts the keys on show. -/
theorem counted_runAll (tasks : List (Task K V)) :
    (runAll crStrategy tasks : Observed H T K V).map.Counted := by
  refine Run.inv_foldl (I := fun sys : Observed H T K V => sys.map.Counted) counted_init ?_ tasks
  intro sys task h
  cases task with
  | opinion op =>
    rw [runTask_opinion]
    exact h.onNewOpinion op
  | subscribe => exact h

/-- If all opinions come from one owner, whether additions or removals, the map has no others. -/
theorem singleOwner_runAll {o : String} {tasks : List (Task K V)}
    (htasks : ∀ op, .opinion op ∈ tasks → op.owner = o) :
    SingleOwner o (runAll crStrategy tasks : Observed H T K V).map := by
  induction tasks using List.reverseRecOn with
  | nil => exact singleOwner_init o
  | append_singleton tasks task ih =>
    have hbefore := ih fun op hop => htasks op (List.mem_append_left _ hop)
    rw [runAll, List.foldl_append, List.foldl_cons, List.foldl_nil, ← runAll]
    cases task with
    | opinion op =>
      rw [runTask_opinion]
      exact hbefore.onNewOpinion crStrategy op (htasks op (by simp))
    | subscribe => exact hbefore

/-- The additions of one owner, as tasks. -/
def additions (o : String) (adds : List (K × V)) : List (Task K V) :=
  adds.map fun entry => .opinion ⟨entry.1, some entry.2, o⟩

/-- Entries as events. -/
def asEvents (entries : List (K × V)) : List (K × Option V) :=
  entries.map fun entry => (entry.1, some entry.2)

/-- All subscribers receive one event for each addition, in order. -/
theorem subscribers_additions {o : String} (sys : Observed H T K V)
    (hsingle : SingleOwner o sys.map) (adds : List (K × V)) :
    ((additions o adds).foldl (runTask crStrategy) sys).subscribers =
      sys.subscribers.map (· ++ asEvents adds) := by
  induction adds generalizing sys with
  | nil => simp [additions, asEvents]
  | cons entry adds ih =>
    obtain ⟨k, v⟩ := entry
    have hnext : SingleOwner o (onNewOpinion crStrategy sys.map ⟨k, some v, o⟩) :=
      hsingle.onNewOpinion crStrategy _ rfl
    rw [additions, List.map_cons, List.foldl_cons, runTask_opinion, hsingle.emitted, ← additions,
      ih _ hnext, List.map_map]
    simp [asEvents, Function.comp_def]

end Observed

open Observed

/-- What a subscriber receives that subscribes to the map `s` before the additions `adds`. -/
structure StreamOf (s : MergedMap H T K V) (adds : List (K × V)) (events : List (K × Option V)) :
    Prop where
  /-- First the entries of the map, each of them once, and then the additions. -/
  split : ∃ dump : List (K × V), events = asEvents dump ++ asEvents adds ∧
    (dump.length : ℤ) = s.size ∧ (dump.map Prod.fst).Nodup ∧
    (∀ k, k ∈ dump.map Prod.fst ↔ s.containsKey k = true) ∧
    ∀ k v, (k, v) ∈ dump ↔ s.get k = some v
  /-- The event that is taken for the notification of the `i`-th addition. -/
  notification : ∀ i, events[s.size.toNat + i]? = (asEvents adds)[i]?

/-- A subscription to a map with a single owner, followed by additions of this owner: for every
strategy, every state that the map may be in and all keys and values, the subscriber receives the
entries of the map and then each addition. -/
theorem subscribe_singleOwner (o : String) (tasks : List (Task K V))
    (hsingle : SingleOwner o (runAll crStrategy tasks : Observed H T K V).map)
    (adds : List (K × V)) :
    let sys : Observed H T K V := runAll crStrategy tasks
    ∃ events,
      (runAll crStrategy (tasks ++ .subscribe :: additions o adds) :
        Observed H T K V).subscribers[sys.subscribers.length]? = some events ∧
      StreamOf sys.map adds events := by
  intro sys
  have hdump : sys.map.snapshot.length = sys.map.size := by
    have hlead := (counted_runAll (H := H) (T := T) crStrategy tasks).lead_eq_zero
    exact (sub_eq_zero.mp hlead).symm
  have hnodup : (sys.map.snapshot.map Prod.fst).Nodup := nodup_map_fst_entries sys.map.winners
  have hsubs : (runAll crStrategy (tasks ++ .subscribe :: additions o adds) :
      Observed H T K V).subscribers =
        (sys.subscribers ++ [asEvents sys.map.snapshot]).map (· ++ asEvents adds) := by
    rw [runAll, List.foldl_append, List.foldl_cons, ← runAll]
    exact subscribers_additions crStrategy sys.onSubscribe hsingle adds
  refine ⟨asEvents sys.map.snapshot ++ asEvents adds, ?_, ?_, ?_⟩
  · rw [hsubs]
    simp
  · refine ⟨sys.map.snapshot, rfl, hdump, hnodup, fun k => ?_, fun k v => mem_snapshot _ k v⟩
    rw [containsKey, List.mem_map, Option.isSome_iff_exists]
    constructor
    · rintro ⟨⟨k', v⟩, hmem, rfl⟩
      exact ⟨v, (mem_snapshot _ _ v).mp hmem⟩
    · rintro ⟨v, hv⟩
      exact ⟨(k, v), (mem_snapshot _ k v).mpr hv, rfl⟩
  · intro i
    have hlen : (asEvents sys.map.snapshot).length = sys.map.size.toNat := by
      rw [asEvents, List.length_map]
      omega
    rw [← hlen, List.getElem?_append_right (Nat.le_add_right _ _), Nat.add_sub_cancel_left]

/-- Two entries, one of which has been removed before, and two additions of the same key with
decreasing values. -/
theorem subscribe_singleOwner_decreasing :
    let tasks : List (Task ℕ ℕ) := [.opinion ⟨0, some 5, "node"⟩, .opinion ⟨1, some 7, "node"⟩,
      .opinion ⟨0, none, "node"⟩]
    let sys : Observed AssocMap AssocMap ℕ ℕ := runAll compare tasks
    ∃ events,
      (runAll compare (tasks ++ .subscribe :: additions "node" [(1, 6), (1, 3)]) :
        Observed AssocMap AssocMap ℕ ℕ).subscribers[sys.subscribers.length]? = some events ∧
      StreamOf sys.map [(1, 6), (1, 3)] events :=
  subscribe_singleOwner compare "node" _ (singleOwner_runAll compare (by simp)) [(1, 6), (1, 3)]

end MergedMap
