import StateTableBench.MergedMap.Step

/-!
# The cache holds the current opinions

The opinion an owner currently holds on a key is fixed by the log alone: it is the value of the
last opinion of that owner on that key, and there is none after a removal (`currentOpinion`).
This is what the cache is for, and `opinion_handleAll` says that it is what the cache holds,
whatever the conflict resolution strategy.
-/

open FiniteMap

namespace MergedMap

variable {H T : Type → Type → Type} [FiniteMap H] [FiniteMap T]
variable {K V : Type} [DecidableEq K] [DecidableEq V]

/-- The key and owner an opinion is about. -/
def subject (op : Opinion K V) : K × String := (op.key, op.owner)

/-- The opinion that `o` currently holds on `k` after a log of opinions. -/
def currentOpinion (log : List (Opinion K V)) (k : K) (o : String) : Option V :=
  (KeyedLog.last? subject log (k, o)).bind Opinion.value

omit [DecidableEq V] in
@[simp]
theorem currentOpinion_nil (k : K) (o : String) :
    currentOpinion ([] : List (Opinion K V)) k o = none := rfl

omit [DecidableEq V] in
/-- A new opinion replaces the current one of its key and owner only. -/
theorem currentOpinion_concat (log : List (Opinion K V)) (op : Opinion K V) (k : K) (o : String) :
    currentOpinion (log ++ [op]) k o =
      if op.key = k ∧ op.owner = o then op.value else currentOpinion log k o := by
  rw [currentOpinion, KeyedLog.last?_concat]
  by_cases h : subject op = (k, o)
  · rw [if_pos h, if_pos (Prod.mk.inj h), Option.bind_some]
  · rw [if_neg h, if_neg fun hko => h (Prod.ext hko.1 hko.2), currentOpinion]

omit [DecidableEq V] in
/-- A new map stores no opinion. -/
theorem opinion_init (k : K) (o : String) : (init : MergedMap H T K V).opinion k o = none := by
  simp [opinion, opinions, init]

/-- The cache refines the log: it holds exactly the current opinions. -/
theorem opinion_handleAll (crStrategy : V → V → Ordering) (log : List (Opinion K V)) (k : K)
    (o : String) :
    (handleAll crStrategy log : MergedMap H T K V).opinion k o = currentOpinion log k o := by
  induction log using List.reverseRecOn with
  | nil => exact opinion_init k o
  | append_singleton log op ih =>
    rw [handleAll_concat, opinion_onNewOpinion, currentOpinion_concat, ih]

theorem opinion_handleAll_eq (crStrategy : V → V → Ordering) (log : List (Opinion K V)) (k : K) :
    (handleAll crStrategy log : MergedMap H T K V).opinion k = currentOpinion log k :=
  funext fun o => opinion_handleAll crStrategy log k o

end MergedMap
