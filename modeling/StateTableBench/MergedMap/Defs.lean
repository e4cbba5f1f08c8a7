import StateTableBench.Collections.FiniteMap
import StateTableBench.Collections.KeyedLog
import StateTableBench.Collections.MaxBy
import Mathlib.Data.List.Induction

/-!
# The merged map

A merged map associates several values to a key. The values are called opinions, each belongs
to an owner, and a conflict resolution strategy selects the winning opinion that is shown to
the outside world (`MergedMap.scala`).

The map keeps three structures side by side: `cache` with all opinions, `entryCount` with the
number of keys that have one, and `winners` with the winning opinion of every such key. Handling
an opinion is a sequence of single writes to them, each of which another thread may observe, so
the model first computes the list of writes of a step (`onNewOpinionWrites`) and then applies
them in order (`onNewOpinion`).

`mutable.HashMap` and `TrieMap` are two arbitrary libraries `H` and `T` of finite maps: the
code relies on no iteration order. `entryCount` is unbounded here; an `AtomicInteger` would wrap
at `2 ^ 31` keys, which the table of `cache` cannot hold.
-/

open FiniteMap

/-- An opinion `(key, value, owner)`. The value `none` stands for `null` and indicates that the
opinion is deleted. -/
structure Opinion (K V : Type) where
  key : K
  value : Option V
  owner : String
deriving DecidableEq

/-- The state of a merged map with hash maps `H` and a concurrent map `T`. -/
structure MergedMap (H T : Type → Type → Type) (K V : Type) where
  /-- The current opinions, by key and by owner. -/
  cache : H K (H String V)
  /-- The number of keys with at least one opinion. -/
  entryCount : ℤ
  /-- The winning opinion of each key. -/
  winners : T K V

namespace MergedMap

/-- A single write performed while an opinion is handled. -/
inductive Write (H : Type → Type → Type) (K V : Type)
  /-- `cache.put(key, opinions)`, or a change of the inner map `cache(key)` to `opinions`. -/
  | putCache (key : K) (opinions : H String V)
  /-- `entryCount.incrementAndGet()` or `entryCount.decrementAndGet()`. -/
  | addEntryCount (delta : ℤ)
  /-- `winners.put(key, value)`. -/
  | putWinner (key : K) (value : V)
  /-- `winners.remove(key)`. -/
  | removeWinner (key : K)
  /-- `winningSubject onNext (key, value)`: an emission, which changes no field of the map. -/
  | onNext (key : K) (value : Option V)

variable {H T : Type → Type → Type} [FiniteMap H] [FiniteMap T]
variable {K V : Type} [DecidableEq K] [DecidableEq V]

/-- The map as its constructor leaves it. -/
def init : MergedMap H T K V where
  cache := empty
  entryCount := 0
  winners := empty

/-- The effect of a single write on the fields of the map. -/
def Write.apply (s : MergedMap H T K V) : Write H K V → MergedMap H T K V
  | .putCache key opinions => { s with cache := put s.cache key opinions }
  | .addEntryCount delta => { s with entryCount := s.entryCount + delta }
  | .putWinner key value => { s with winners := put s.winners key value }
  | .removeWinner key => { s with winners := remove s.winners key }
  | .onNext _ _ => s

/-- The opinions held for a key, none if the cache has no entry for it. -/
def opinions (s : MergedMap H T K V) (key : K) : H String V := (get? s.cache key).getD empty

/-- The opinion held for a key by an owner. -/
def opinion (s : MergedMap H T K V) (key : K) (owner : String) : Option V :=
  get? (s.opinions key) owner

section Steps

variable (crStrategy : V → V → Ordering)

/-- The winning opinion with its owner; `none` stands for `(null, null)`. -/
def winningPair (opinions : H String V) : Option (String × V) :=
  maxBy crStrategy Prod.snd (entries opinions)

/-- The writes of `onOpinionAddition`, in program order. -/
def onOpinionAddition (s : MergedMap H T K V) (key : K) (value : V) (owner : String) :
    List (Write H K V) :=
  let opinions := put (s.opinions key) owner value
  (match get? s.cache key with
    | none => [.putCache key empty, .addEntryCount 1]
    | some before => if isEmpty before then [.addEntryCount 1] else []) ++
  [.putCache key opinions] ++
  -- If this is a winning opinion, we update the winners map.
  if winningPair crStrategy opinions = some (owner, value) then
    [.putWinner key value, .onNext key (some value)]
  else []

/-- The writes of `onOpinionRemoval`, in program order. -/
def onOpinionRemoval (s : MergedMap H T K V) (key : K) (owner : String) : List (Write H K V) :=
  match get? s.cache key with
  | none => []
  | some before =>
    let prev := winningPair crStrategy before
    let after := retain before fun o _ => decide (o ≠ owner)
    let new := winningPair crStrategy after
    [.putCache key after] ++
    (if isEmpty after = true ∧ prev ≠ none then [.addEntryCount (-1)] else []) ++
    -- The winning opinion for the key has changed: update the winners map and emit it.
    if prev ≠ new then
      [match new with
        | some (_, value) => .putWinner key value
        | none => .removeWinner key,
       .onNext key (new.map Prod.snd)]
    else []

/-- The writes with which the map handles an opinion emitted from storage. -/
def onNewOpinionWrites (s : MergedMap H T K V) (op : Opinion K V) : List (Write H K V) :=
  match op.value with
  | none => onOpinionRemoval crStrategy s op.key op.owner
  | some value => onOpinionAddition crStrategy s op.key value op.owner

/-- The map after it has handled an opinion. -/
def onNewOpinion (s : MergedMap H T K V) (op : Opinion K V) : MergedMap H T K V :=
  (onNewOpinionWrites crStrategy s op).foldl Write.apply s

/-- The map after it has handled a log of opinions, starting from the empty map. -/
def handleAll (log : List (Opinion K V)) : MergedMap H T K V :=
  log.foldl (onNewOpinion crStrategy) init

/-- The last opinion of a log is handled last. -/
theorem handleAll_concat (log : List (Opinion K V)) (op : Opinion K V) :
    (handleAll crStrategy (log ++ [op]) : MergedMap H T K V) =
      onNewOpinion crStrategy (handleAll crStrategy log) op := by
  simp [handleAll]

end Steps

section Queries

variable (s : MergedMap H T K V)

/-- The winning opinion associated to a key. -/
def get (key : K) : Option V := get? s.winners key

/-- The number of entries in the map. -/
def size : ℤ := s.entryCount

/-- Whether the map contains a key. -/
def containsKey (key : K) : Bool := (get? s.winners key).isSome

/-- The winning opinions of the map, in iteration order. -/
def snapshot : List (K × V) := entries s.winners

end Queries

end MergedMap
