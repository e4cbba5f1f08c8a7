import StateTableBench.MergedMap.Opinions
import StateTableBench.Transition.Run
import Mathlib.Data.Set.Card

/-!
# Size, containsKey and snapshot agree

Three structures are updated separately: `cache`, `entryCount` and `winners`. `cache` keeps the
empty owner map of a key for ever, so the counter must follow the emptiness of the owner maps and
not the keys of `cache`. The invariant `Counted` ties the three together, for every conflict
resolution strategy; within a step the counter and the winners part by at most one.
-/

open FiniteMap

namespace MergedMap

variable {H T : Type → Type → Type} [FiniteMap H] [FiniteMap T]
variable {K V : Type} [DecidableEq K] [DecidableEq V]
variable (crStrategy : V → V → Ordering)

/-- A key is on show exactly when it has an opinion, and the counter counts the keys on show. -/
structure Counted (s : MergedMap H T K V) : Prop where
  shown_iff : ∀ k, (get? s.winners k).isSome = true ↔ isEmpty (s.opinions k) = false
  count_eq : s.entryCount = FiniteMap.size s.winners

/-- By how much the counter is ahead of the winners. -/
def lead (s : MergedMap H T K V) : ℤ := s.size - s.snapshot.length

omit [DecidableEq V] in
/-- A new map is counted. -/
theorem counted_init : (init : MergedMap H T K V).Counted where
  shown_iff k := by simp [init, opinions]
  count_eq := by simp [init]

variable {crStrategy} {s : MergedMap H T K V}

omit [DecidableEq V] in
/-- A key without opinions has no winner. -/
theorem Counted.get?_eq_none (h : s.Counted) {k : K} (hk : isEmpty (s.opinions k) = true) :
    get? s.winners k = none := by
  rw [← Option.not_isSome_iff_eq_none, h.shown_iff, hk]
  exact Bool.noConfusion

omit [DecidableEq V] in
/-- A key with opinions has a winner. -/
theorem Counted.isSome (h : s.Counted) {k : K} (hk : ¬isEmpty (s.opinions k) = true) :
    (get? s.winners k).isSome = true :=
  (h.shown_iff k).mpr (Bool.not_eq_true _ ▸ hk)

/-- An addition keeps the three structures in step. -/
theorem Counted.onNewOpinion_some (h : s.Counted) (k : K) (v : V) (o : String) :
    (onNewOpinion crStrategy s ⟨k, some v, o⟩).Counted where
  shown_iff k' := by
    rw [winners_onNewOpinion_some, opinions_onNewOpinion_some]
    by_cases hk : k' = k
    · subst hk
      rw [if_pos rfl, isEmpty_put]
      by_cases hemp : isEmpty (s.opinions k') = true
      · -- the first opinion of a key wins, whatever the strategy
        have hwin : wins crStrategy s k' v o := winningPair_put_of_isEmpty hemp
        simp [hwin]
      · have hsome := h.isSome hemp
        split_ifs
        · simp
        · simpa using hsome
    · rw [if_neg hk, ← h.shown_iff k']
      split_ifs
      · rw [get?_put_of_ne _ _ _ _ hk]
      · rfl
  count_eq := by
    rw [entryCount_onNewOpinion_some, winners_onNewOpinion_some, h.count_eq]
    by_cases hemp : isEmpty (s.opinions k) = true
    · -- the first opinion of a key is counted, and it wins
      have hwin : wins crStrategy s k v o := winningPair_put_of_isEmpty hemp
      rw [if_pos hemp, if_pos hwin, size_put_of_eq_none _ _ _ (h.get?_eq_none hemp)]
      push_cast
      rfl
    · -- the key was counted and on show already
      rw [if_neg hemp, add_zero]
      split_ifs
      · rw [size_put_of_isSome _ _ _ (h.isSome hemp)]
      · rfl

omit [FiniteMap T] [DecidableEq V] in
/-- If anybody remains without an owner, somebody was there with it. -/
theorem isEmpty_opinions_eq_false {k : K} {o : String}
    (h : ¬isEmpty (s.withoutOwner k o) = true) : isEmpty (s.opinions k) = false := by
  rw [Bool.not_eq_true, isEmpty_eq_false_iff] at h
  obtain ⟨p, x, hp⟩ := h
  rw [get?_withoutOwner] at hp
  split_ifs at hp
  exact (isEmpty_eq_false_iff _).mpr ⟨p, x, hp⟩

/-- The opinions of a key after a removal are empty exactly when nobody else held one. -/
theorem isEmpty_opinions_onNewOpinion_none (k : K) (o : String) :
    isEmpty ((onNewOpinion crStrategy s ⟨k, none, o⟩).opinions k) =
      isEmpty (s.withoutOwner k o) := by
  rw [Bool.eq_iff_iff, FiniteMap.isEmpty_iff, FiniteMap.isEmpty_iff]
  refine forall_congr' fun p => ?_
  rw [← opinion, opinion_onNewOpinion_none_self]

omit [FiniteMap T] [DecidableEq V] in
/-- When the last opinion of a key goes, the winner changes. -/
theorem winnerChanges_of_isEmpty {k : K} {o : String} (hemp : isEmpty (s.withoutOwner k o) = true)
    (hops : isEmpty (s.opinions k) = false) : winnerChanges crStrategy s k o := by
  rw [winnerChanges, winningPair_eq_none_iff.mpr hemp, ne_eq, winningPair_eq_none_iff, hops]
  exact Bool.false_ne_true

/-- After a removal its key is on show exactly when somebody else holds an opinion. -/
theorem Counted.isSome_winners_onNewOpinion_none (h : s.Counted) (k : K) (o : String) :
    (get? (onNewOpinion crStrategy s ⟨k, none, o⟩).winners k).isSome = true ↔
      isEmpty (s.withoutOwner k o) = false := by
  rw [winners_onNewOpinion_none]
  cases hnew : winningPair crStrategy (s.withoutOwner k o) with
  | none =>
    have hemp := winningPair_eq_none_iff.mp hnew
    by_cases hops : isEmpty (s.opinions k) = true
    · -- nothing was on show, and nothing is
      have hget := h.get?_eq_none hops
      split_ifs <;> simp [get?_remove, hemp, hget]
    · have hchange : winnerChanges crStrategy s k o :=
        winnerChanges_of_isEmpty hemp (Bool.not_eq_true _ ▸ hops)
      simp [hchange, get?_remove, hemp]
  | some p =>
    have hne : ¬isEmpty (s.withoutOwner k o) = true := fun hemp =>
      Option.some_ne_none p (hnew.symm.trans (winningPair_eq_none_iff.mpr hemp))
    have hsome := (h.shown_iff k).mpr (isEmpty_opinions_eq_false hne)
    split_ifs <;> simp [hne, hsome]

/-- After a removal the counter counts the keys on show. -/
theorem Counted.entryCount_onNewOpinion_none (h : s.Counted) (k : K) (o : String) :
    (onNewOpinion crStrategy s ⟨k, none, o⟩).entryCount =
      FiniteMap.size (onNewOpinion crStrategy s ⟨k, none, o⟩).winners := by
  rw [MergedMap.entryCount_onNewOpinion_none, winners_onNewOpinion_none, h.count_eq]
  by_cases hemp : isEmpty (s.withoutOwner k o) = true
  · rw [winningPair_eq_none_iff.mpr hemp]
    by_cases hops : isEmpty (s.opinions k) = true
    · -- there was nothing to remove
      have hsame : ¬winnerChanges crStrategy s k o := by
        rw [winnerChanges, winningPair_eq_none_iff.mpr hemp, winningPair_eq_none_iff.mpr hops]
        exact not_not.mpr rfl
      simp [hops, hsame]
    · -- the last opinion of the key goes: it is uncounted, and no longer shown
      have hchange : winnerChanges crStrategy s k o :=
        winnerChanges_of_isEmpty hemp (Bool.not_eq_true _ ▸ hops)
      rw [if_pos ⟨hemp, Bool.not_eq_true _ ▸ hops⟩, if_pos hchange,
        ← size_remove_of_isSome _ _ (h.isSome hops)]
      push_cast
      omega
  · -- somebody else still holds an opinion, so the key stays counted and on show
    have hsome := (h.shown_iff k).mpr (isEmpty_opinions_eq_false hemp)
    rw [if_neg fun hboth => hemp hboth.1, sub_zero]
    split_ifs
    · cases hnew : winningPair crStrategy (s.withoutOwner k o) with
      | none => exact absurd (winningPair_eq_none_iff.mp hnew) hemp
      | some p => rw [size_put_of_isSome _ _ _ hsome]
    · rfl

/-- A removal keeps the three structures in step. -/
theorem Counted.onNewOpinion_none (h : s.Counted) (k : K) (o : String) :
    (onNewOpinion crStrategy s ⟨k, none, o⟩).Counted where
  shown_iff k' := by
    by_cases hk : k' = k
    · subst hk
      rw [isEmpty_opinions_onNewOpinion_none]
      exact h.isSome_winners_onNewOpinion_none k' o
    · have hget := get_onNewOpinion_of_ne crStrategy s k' ⟨k, none, o⟩ hk
      rw [get, get] at hget
      rw [hget, opinions_onNewOpinion_none_of_ne _ _ _ _ _ hk]
      exact h.shown_iff k'
  count_eq := h.entryCount_onNewOpinion_none k o

/-- Every step keeps the three structures in step with each other. -/
theorem Counted.onNewOpinion (h : s.Counted) (op : Opinion K V) :
    (onNewOpinion crStrategy s op).Counted := by
  obtain ⟨k, v, o⟩ := op
  cases v with
  | none => exact h.onNewOpinion_none k o
  | some v => exact h.onNewOpinion_some k v o

/-- Every reachable map is counted. -/
theorem counted_handleAll (crStrategy : V → V → Ordering) (log : List (Opinion K V)) :
    (handleAll crStrategy log : MergedMap H T K V).Counted :=
  Run.inv_foldl counted_init (fun _ op h => h.onNewOpinion op) log

/-! ## Between two writes of a step -/

section Writes

variable (s : MergedMap H T K V) (k : K)

omit [DecidableEq V]

@[simp]
theorem winners_putCache (ops : H String V) :
    (Write.apply s (.putCache k ops)).winners = s.winners := rfl

@[simp]
theorem winners_addEntryCount (delta : ℤ) :
    (Write.apply s (.addEntryCount delta)).winners = s.winners := rfl

@[simp]
theorem lead_putCache (ops : H String V) : (Write.apply s (.putCache k ops)).lead = s.lead := rfl

/-- A write of the counter moves the lead by the same amount. -/
@[simp]
theorem lead_addEntryCount (delta : ℤ) :
    (Write.apply s (.addEntryCount delta)).lead = s.lead + delta := by
  simp only [lead, size, snapshot, Write.apply]
  omega

@[simp]
theorem lead_onNext (v : Option V) : (Write.apply s (.onNext k v)).lead = s.lead := rfl

/-- Replacing a winner keeps the number of winners. -/
theorem lead_putWinner_of_isSome (v : V) (h : (get? s.winners k).isSome = true) :
    (Write.apply s (.putWinner k v)).lead = s.lead := by
  have hsize := size_put_of_isSome s.winners k v h
  rw [FiniteMap.size, FiniteMap.size] at hsize
  simp only [lead, size, snapshot, Write.apply, hsize]

/-- A first winner catches up with the counter. -/
theorem lead_putWinner_of_eq_none (v : V) (h : get? s.winners k = none) :
    (Write.apply s (.putWinner k v)).lead = s.lead - 1 := by
  have hsize := size_put_of_eq_none s.winners k v h
  rw [FiniteMap.size, FiniteMap.size] at hsize
  simp only [lead, size, snapshot, Write.apply, hsize]
  omega

/-- Removing a winner puts the counter one ahead. -/
theorem lead_removeWinner (h : (get? s.winners k).isSome = true) :
    (Write.apply s (.removeWinner k)).lead = s.lead + 1 := by
  have hsize := size_remove_of_isSome s.winners k h
  rw [FiniteMap.size, FiniteMap.size] at hsize
  simp only [lead, size, snapshot, Write.apply]
  omega

end Writes

omit [DecidableEq V] in
/-- Between two handled opinions the counter is the number of winners. -/
theorem Counted.lead_eq_zero (h : s.Counted) : s.lead = 0 := by
  rw [lead, size, h.count_eq, FiniteMap.size, snapshot, sub_self]

/-- While an addition is under way the counter and the winners are at most one apart. -/
theorem Counted.always_lead_some (h : s.Counted) (k : K) (v : V) (o : String) :
    Run.Always Write.apply s (fun t => t.lead.natAbs ≤ 1)
      (onNewOpinionWrites crStrategy s ⟨k, some v, o⟩) := by
  have hzero := h.lead_eq_zero
  simp only [onNewOpinionWrites, onOpinionAddition]
  by_cases hemp : isEmpty (s.opinions k) = true
  · -- the key is counted first and shown at the end
    have hget := h.get?_eq_none hemp
    rw [if_pos (winningPair_put_of_isEmpty hemp)]
    cases hc : get? s.cache k with
    | none =>
      simp [Run.always_cons_iff, Run.always_nil_iff, hzero, lead_putWinner_of_eq_none, hget]
    | some before =>
      rw [opinions_of_cache_eq_some s k hc] at hemp
      simp [Run.always_cons_iff, Run.always_nil_iff, hzero, lead_putWinner_of_eq_none, hget, hemp]
  · -- a known key with opinions: the counter is left alone
    have hsome := h.isSome hemp
    cases hc : get? s.cache k with
    | none => exact absurd (by rw [opinions_of_cache_eq_none s k hc, isEmpty_empty]) hemp
    | some before =>
      rw [opinions_of_cache_eq_some s k hc] at hemp
      split_ifs <;>
        simp [Run.always_cons_iff, Run.always_nil_iff, hzero, lead_putWinner_of_isSome, hsome, hemp]

/-- While a removal is under way the counter and the winners are at most one apart. -/
theorem Counted.always_lead_none (h : s.Counted) (k : K) (o : String) :
    Run.Always Write.apply s (fun t => t.lead.natAbs ≤ 1)
      (onNewOpinionWrites crStrategy s ⟨k, none, o⟩) := by
  have hzero := h.lead_eq_zero
  rw [onNewOpinionWrites]
  cases hc : get? s.cache k with
  | none => simp [onOpinionRemoval, hc, Run.always_nil_iff, hzero]
  | some before =>
    rw [onOpinionRemoval_of_cache_eq_some crStrategy s k o hc]
    by_cases hemp : isEmpty (s.withoutOwner k o) = true
    · have hnew : winningPair crStrategy (s.withoutOwner k o) = none :=
        winningPair_eq_none_iff.mpr hemp
      by_cases hnone : isEmpty (s.opinions k) = true
      · have hprev : winningPair crStrategy (s.opinions k) = none :=
          winningPair_eq_none_iff.mpr hnone
        simp [Run.always_cons_iff, Run.always_nil_iff, hzero, winnerChanges, hnew, hprev]
      · -- the key is uncounted first and disappears from the winners at the end
        have hprev : winningPair crStrategy (s.opinions k) ≠ none := fun h =>
          hnone (winningPair_eq_none_iff.mp h)
        have hsome := h.isSome hnone
        simp [Run.always_cons_iff, Run.always_nil_iff, hzero, hemp, winnerChanges, hnew, hprev,
          lead_removeWinner, hsome]
    · have hsome := (h.shown_iff k).mpr (isEmpty_opinions_eq_false hemp)
      cases hnew : winningPair crStrategy (s.withoutOwner k o) with
      | none => exact absurd (winningPair_eq_none_iff.mp hnew) hemp
      | some p =>
        rw [if_neg fun hboth => hemp hboth.1]
        split_ifs <;>
          simp [Run.always_cons_iff, Run.always_nil_iff, hzero, lead_putWinner_of_isSome, hsome]

/-- Between any two writes of a step, size and snapshot differ by at most one entry. -/
theorem Counted.always_lead (h : s.Counted) (op : Opinion K V) :
    Run.Always Write.apply s (fun t => t.lead.natAbs ≤ 1) (onNewOpinionWrites crStrategy s op) := by
  obtain ⟨k, v, o⟩ := op
  cases v with
  | none => exact h.always_lead_none k o
  | some v => exact h.always_lead_some k v o

/-! ## The public view -/

/-- The keys on show are the keys with a current opinion. -/
theorem containsKey_handleAll (crStrategy : V → V → Ordering) (log : List (Opinion K V)) (k : K) :
    (handleAll crStrategy log : MergedMap H T K V).containsKey k = true ↔
      ∃ o v, currentOpinion log k o = some v := by
  rw [containsKey, (counted_handleAll crStrategy log).shown_iff, isEmpty_eq_false_iff]
  refine exists_congr fun o => exists_congr fun v => ?_
  rw [← opinion, opinion_handleAll]

/-- The size after a log is the number of keys with a current opinion. -/
theorem size_handleAll (crStrategy : V → V → Ordering) (log : List (Opinion K V)) :
    (handleAll crStrategy log : MergedMap H T K V).size =
      {k | ∃ o v, currentOpinion log k o = some v}.ncard := by
  have hkeys : {k | ∃ o v, currentOpinion log k o = some v} =
      (keys (handleAll crStrategy log : MergedMap H T K V).winners : Set K) := by
    ext k
    rw [Finset.mem_coe, mem_keys, ← containsKey, containsKey_handleAll]
    rfl
  rw [hkeys, Set.ncard_coe_finset, ← size_eq_card_keys, size,
    (counted_handleAll crStrategy log).count_eq]

/-- After every run, `size` is the number of keys with a current opinion and the number of
entries of `snapshot`, and `containsKey` holds exactly for those keys; between two writes of any
further step, `size` and the number of entries of `snapshot` differ by at most one. -/
theorem size_containsKey_snapshot (crStrategy : V → V → Ordering) (log : List (Opinion K V)) :
    let s : MergedMap H T K V := handleAll crStrategy log
    s.size = {k | ∃ o v, currentOpinion log k o = some v}.ncard ∧
    s.size = s.snapshot.length ∧
    (∀ k, s.containsKey k = true ↔ ∃ o v, currentOpinion log k o = some v) ∧
    ∀ op, Run.Always Write.apply s (fun t => (t.size - t.snapshot.length).natAbs ≤ 1)
      (onNewOpinionWrites crStrategy s op) := by
  have hcounted : (handleAll crStrategy log : MergedMap H T K V).Counted :=
    counted_handleAll crStrategy log
  refine ⟨size_handleAll crStrategy log, ?_, containsKey_handleAll crStrategy log, ?_⟩
  · exact sub_eq_zero.mp hcounted.lead_eq_zero
  · exact hcounted.always_lead

end MergedMap
