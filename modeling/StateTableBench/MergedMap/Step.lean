import StateTableBench.MergedMap.Defs

/-!
# The effect of one opinion

What handling one opinion does to each field of the map, and what `winningPair` selects. Later
modules use these lemmas and do not unfold the step again.

* `opinion_onNewOpinion` — a step changes the opinion of its key and owner, and no other;
* `entryCount_onNewOpinion_some`, `entryCount_onNewOpinion_none` — the counter;
* `winners_onNewOpinion_some`, `winners_onNewOpinion_none` — the winners, guarded by the test
  of the source for a change of winner (`wins`, `winnerChanges`).
-/

open FiniteMap

namespace MergedMap

variable {H T : Type → Type → Type} [FiniteMap H] [FiniteMap T]
variable {K V : Type} [DecidableEq K] [DecidableEq V]
variable (crStrategy : V → V → Ordering)

/-! ## The winning pair -/

section WinningPair

variable {crStrategy} {ops : H String V} {o : String} {v : V}

omit [DecidableEq V]

/-- There is a winning pair exactly if there is an opinion. -/
theorem winningPair_eq_none_iff : winningPair crStrategy ops = none ↔ isEmpty ops = true := by
  rw [winningPair, maxBy_eq_none_iff, isEmpty, List.isEmpty_iff]

/-- The winning pair is one of the opinions. -/
theorem get?_of_winningPair (h : winningPair crStrategy ops = some (o, v)) :
    get? ops o = some v :=
  mem_entries.mp (maxBy_mem h)

/-- Under a total preorder no opinion is greater than the winning one. -/
theorem isLE_winningPair [Std.TransCmp crStrategy] {p : String × V}
    (h : winningPair crStrategy ops = some p) {o' : String} {v' : V}
    (h' : get? ops o' = some v') : (crStrategy v' p.2).isLE :=
  maxBy_isLE h (o', v') (mem_entries.mpr h')

/-- If the opinion just stored does not win, another owner's opinion does. -/
theorem exists_winningPair_of_not_wins
    (hlose : winningPair crStrategy (put ops o v) ≠ some (o, v)) :
    ∃ o' v', winningPair crStrategy (put ops o v) = some (o', v') ∧ o' ≠ o ∧
      get? ops o' = some v' := by
  have hne : winningPair crStrategy (put ops o v) ≠ none := by
    rw [ne_eq, winningPair_eq_none_iff, isEmpty_put]
    exact Bool.false_ne_true
  obtain ⟨⟨o', v'⟩, hp⟩ := Option.ne_none_iff_exists'.mp hne
  have hget := get?_of_winningPair hp
  rw [get?_put] at hget
  by_cases ho : o' = o
  · -- the winning pair of that owner can only be the one just stored
    rw [if_pos ho, Option.some.injEq] at hget
    exact absurd (by rw [hp, ho, hget]) hlose
  · rw [if_neg ho] at hget
    exact ⟨o', v', hp, ho, hget⟩

/-- The first opinion of a key wins, whatever the strategy. -/
theorem winningPair_put_of_isEmpty (h : isEmpty ops = true) :
    winningPair crStrategy (put ops o v) = some (o, v) := by
  by_contra hlose
  obtain ⟨o', v', -, -, hget⟩ := exists_winningPair_of_not_wins hlose
  rw [(FiniteMap.isEmpty_iff ops).mp h o'] at hget
  cases hget

end WinningPair

/-! ## The fields after one step -/

section Fields

variable (s : MergedMap H T K V) (k k' : K) (v : V) (o o' : String)

/-- The test of `onOpinionAddition`: the opinion just stored wins. -/
def wins : Prop := winningPair crStrategy (put (s.opinions k) o v) = some (o, v)

instance : Decidable (wins crStrategy s k v o) :=
  inferInstanceAs (Decidable (_ = _))

/-- The opinions that remain for a key when an owner withdraws. -/
def withoutOwner : H String V := retain (s.opinions k) fun p _ => decide (p ≠ o)

/-- The test of `onOpinionRemoval`: the winning pair is another one without the owner. -/
def winnerChanges : Prop :=
  winningPair crStrategy (s.opinions k) ≠ winningPair crStrategy (s.withoutOwner k o)

instance : Decidable (winnerChanges crStrategy s k o) :=
  inferInstanceAs (Decidable (_ ≠ _))

omit [FiniteMap T] [DecidableEq V] in
/-- Without an owner, the opinions of the others remain. -/
theorem get?_withoutOwner :
    get? (s.withoutOwner k o) o' = if o' = o then none else s.opinion k o' := by
  rw [withoutOwner, get?_retain, ← opinion]
  by_cases h : o' = o
  · simp [h]
  · cases s.opinion k o' <;> simp [h]

omit [FiniteMap T] [DecidableEq V] in
/-- A key that the cache does not hold has no opinions. -/
theorem opinions_of_cache_eq_none (h : get? s.cache k = none) : s.opinions k = empty := by
  rw [opinions, h, Option.getD_none]

omit [FiniteMap T] [DecidableEq V] in
/-- The opinions of a key are those the cache holds. -/
theorem opinions_of_cache_eq_some {before : H String V} (h : get? s.cache k = some before) :
    s.opinions k = before := by
  rw [opinions, h, Option.getD_some]

omit [FiniteMap T] [DecidableEq V] in
/-- Without opinions nothing is left after a removal. -/
theorem isEmpty_withoutOwner (h : s.opinions k = empty) : isEmpty (s.withoutOwner k o) = true := by
  rw [FiniteMap.isEmpty_iff]
  intro o'
  rw [get?_withoutOwner, opinion, h, get?_empty, ite_self]

omit [FiniteMap T] [DecidableEq V] in
/-- A key without a cache entry has nobody to lose, and no winner that could change. -/
theorem not_winnerChanges_of_cache_eq_none (h : get? s.cache k = none) :
    ¬winnerChanges crStrategy s k o := by
  have hops := opinions_of_cache_eq_none s k h
  rw [winnerChanges, not_not, winningPair_eq_none_iff.mpr (isEmpty_withoutOwner s k o hops),
    hops, winningPair_eq_none_iff.mpr isEmpty_empty]

/-- An addition stores the opinion, counts a key that had none, and shows a winning opinion. -/
theorem onNewOpinion_some :
    onNewOpinion crStrategy s ⟨k, some v, o⟩ =
      { cache := put (if get? s.cache k = none then put s.cache k empty else s.cache) k
          (put (s.opinions k) o v)
        entryCount := s.entryCount + if isEmpty (s.opinions k) then 1 else 0
        winners := if wins crStrategy s k v o then put s.winners k v else s.winners } := by
  simp only [onNewOpinion, onNewOpinionWrites, onOpinionAddition]
  cases hc : get? s.cache k with
  | none =>
    -- a key that the cache does not know is entered there first, without opinions
    have hemp : isEmpty (s.opinions k) = true := by
      rw [opinions_of_cache_eq_none s k hc, isEmpty_empty]
    by_cases hwin : wins crStrategy s k v o
    · have hpair : winningPair crStrategy (put (s.opinions k) o v) = some (o, v) := hwin
      simp [hwin, hpair, hemp, Write.apply]
    · have hpair : winningPair crStrategy (put (s.opinions k) o v) ≠ some (o, v) := hwin
      simp [hwin, hpair, hemp, Write.apply]
  | some before =>
    rw [← opinions_of_cache_eq_some s k hc]
    by_cases hwin : wins crStrategy s k v o
    · have hpair : winningPair crStrategy (put (s.opinions k) o v) = some (o, v) := hwin
      by_cases hemp : isEmpty (s.opinions k) = true <;> simp [hwin, hpair, hemp, Write.apply]
    · have hpair : winningPair crStrategy (put (s.opinions k) o v) ≠ some (o, v) := hwin
      by_cases hemp : isEmpty (s.opinions k) = true <;> simp [hwin, hpair, hemp, Write.apply]

/-- A removal for a key that the cache does not know changes nothing. -/
theorem onNewOpinion_none_of_cache_eq_none (hc : get? s.cache k = none) :
    onNewOpinion crStrategy s ⟨k, none, o⟩ = s := by
  simp [onNewOpinion, onNewOpinionWrites, onOpinionRemoval, hc]

omit [FiniteMap T] in
/-- The writes of a removal for a known key. -/
theorem onOpinionRemoval_of_cache_eq_some {before : H String V}
    (hc : get? s.cache k = some before) :
    onOpinionRemoval crStrategy s k o =
      [.putCache k (s.withoutOwner k o)] ++
      (if isEmpty (s.withoutOwner k o) = true ∧ winningPair crStrategy (s.opinions k) ≠ none then
        [.addEntryCount (-1)] else []) ++
      if winnerChanges crStrategy s k o then
        [match winningPair crStrategy (s.withoutOwner k o) with
          | some (_, value) => .putWinner k value
          | none => .removeWinner k,
         .onNext k ((winningPair crStrategy (s.withoutOwner k o)).map Prod.snd)]
      else [] := by
  obtain rfl : s.opinions k = before := opinions_of_cache_eq_some s k hc
  unfold onOpinionRemoval
  rewrite [hc]
  rfl

/-- A removal for a known key withdraws the opinion, uncounts a key that loses its last one, and
shows the new winner when the winner changes. -/
theorem onNewOpinion_none_of_cache_eq_some {before : H String V}
    (hc : get? s.cache k = some before) :
    onNewOpinion crStrategy s ⟨k, none, o⟩ =
      { cache := put s.cache k (s.withoutOwner k o)
        entryCount := s.entryCount -
          if isEmpty (s.withoutOwner k o) = true ∧ isEmpty (s.opinions k) = false then 1 else 0
        winners :=
          if winnerChanges crStrategy s k o then
            match winningPair crStrategy (s.withoutOwner k o) with
            | some p => put s.winners k p.2
            | none => remove s.winners k
          else s.winners } := by
  -- the source tests whether there was a winner, not whether there were opinions
  have hprev : winningPair crStrategy (s.opinions k) ≠ none ↔ isEmpty (s.opinions k) = false := by
    rw [ne_eq, winningPair_eq_none_iff, Bool.not_eq_true]
  rw [onNewOpinion, onNewOpinionWrites, onOpinionRemoval_of_cache_eq_some crStrategy s k o hc]
  simp only [hprev]
  split_ifs <;> cases winningPair crStrategy (s.withoutOwner k o) <;>
    simp [Write.apply, Int.sub_eq_add_neg]

/-! ### Field by field, for known and unknown keys alike -/

/-- A put stores the value at its key and owner. -/
theorem opinions_onNewOpinion_some :
    (onNewOpinion crStrategy s ⟨k, some v, o⟩).opinions k' =
      if k' = k then put (s.opinions k) o v else s.opinions k' := by
  rw [onNewOpinion_some, opinions]
  by_cases hk : k' = k
  · subst hk
    rw [get?_put_self, Option.getD_some, if_pos rfl]
  · rw [get?_put_of_ne _ _ _ _ hk, if_neg hk, opinions]
    split_ifs
    · rw [get?_put_of_ne _ _ _ _ hk]
    · rfl

/-- A removal leaves the opinions of other keys. -/
theorem opinions_onNewOpinion_none_of_ne (hk : k' ≠ k) :
    (onNewOpinion crStrategy s ⟨k, none, o⟩).opinions k' = s.opinions k' := by
  cases hc : get? s.cache k with
  | none => rw [onNewOpinion_none_of_cache_eq_none crStrategy s k o hc]
  | some before =>
    rw [onNewOpinion_none_of_cache_eq_some crStrategy s k o hc, opinions,
      get?_put_of_ne _ _ _ _ hk, opinions]

/-- A removal clears its owner's opinion only. -/
theorem opinion_onNewOpinion_none :
    (onNewOpinion crStrategy s ⟨k, none, o⟩).opinion k o' =
      if o' = o then none else s.opinion k o' := by
  cases hc : get? s.cache k with
  | none =>
    rw [onNewOpinion_none_of_cache_eq_none crStrategy s k o hc, opinion,
      opinions_of_cache_eq_none s k hc, get?_empty, ite_self]
  | some before =>
    rw [onNewOpinion_none_of_cache_eq_some crStrategy s k o hc, opinion, opinions,
      get?_put_self, Option.getD_some, get?_withoutOwner]

/-- After an addition the opinions of its key are the old ones and the new one. -/
theorem opinion_onNewOpinion_some_self :
    (onNewOpinion crStrategy s ⟨k, some v, o⟩).opinion k = get? (put (s.opinions k) o v) := by
  funext p
  rw [opinion, opinions_onNewOpinion_some, if_pos rfl]

/-- After a removal the opinions of its key are those of the other owners. -/
theorem opinion_onNewOpinion_none_self :
    (onNewOpinion crStrategy s ⟨k, none, o⟩).opinion k = get? (s.withoutOwner k o) := by
  funext p
  rw [opinion_onNewOpinion_none, get?_withoutOwner]

/-- A step sets the opinion of its own key and owner, and no other. -/
theorem opinion_onNewOpinion (op : Opinion K V) :
    (onNewOpinion crStrategy s op).opinion k o =
      if op.key = k ∧ op.owner = o then op.value else s.opinion k o := by
  obtain ⟨k₀, v₀, o₀⟩ := op
  cases v₀ with
  | none =>
    by_cases hk : k = k₀
    · subst hk
      rw [opinion_onNewOpinion_none]
      by_cases ho : o = o₀
      · simp [ho]
      · simp [ho, Ne.symm ho]
    · rw [opinion, opinions_onNewOpinion_none_of_ne _ _ _ _ _ hk, ← opinion]
      simp [Ne.symm hk]
  | some v =>
    rw [opinion, opinions_onNewOpinion_some]
    by_cases hk : k = k₀
    · subst hk
      rw [if_pos rfl, get?_put, ← opinion]
      by_cases ho : o = o₀
      · simp [ho]
      · simp [ho, Ne.symm ho]
    · rw [if_neg hk, ← opinion]
      simp [Ne.symm hk]

/-- The count rises with the first opinion of a key. -/
theorem entryCount_onNewOpinion_some :
    (onNewOpinion crStrategy s ⟨k, some v, o⟩).entryCount =
      s.entryCount + if isEmpty (s.opinions k) then 1 else 0 := by
  rw [onNewOpinion_some]

/-- The count falls with the last opinion of a key. -/
theorem entryCount_onNewOpinion_none :
    (onNewOpinion crStrategy s ⟨k, none, o⟩).entryCount = s.entryCount -
      if isEmpty (s.withoutOwner k o) = true ∧ isEmpty (s.opinions k) = false then 1 else 0 := by
  cases hc : get? s.cache k with
  | none =>
    rw [onNewOpinion_none_of_cache_eq_none crStrategy s k o hc,
      opinions_of_cache_eq_none s k hc]
    simp
  | some before => rw [onNewOpinion_none_of_cache_eq_some crStrategy s k o hc]

/-- A put writes `winners` only if it wins. -/
theorem winners_onNewOpinion_some :
    (onNewOpinion crStrategy s ⟨k, some v, o⟩).winners =
      if wins crStrategy s k v o then put s.winners k v else s.winners := by
  rw [onNewOpinion_some]

/-- A removal writes `winners` only if the winner changes. -/
theorem winners_onNewOpinion_none :
    (onNewOpinion crStrategy s ⟨k, none, o⟩).winners =
      if winnerChanges crStrategy s k o then
        match winningPair crStrategy (s.withoutOwner k o) with
        | some p => put s.winners k p.2
        | none => remove s.winners k
      else s.winners := by
  cases hc : get? s.cache k with
  | none =>
    rw [onNewOpinion_none_of_cache_eq_none crStrategy s k o hc,
      if_neg (not_winnerChanges_of_cache_eq_none crStrategy s k o hc)]
  | some before => rw [onNewOpinion_none_of_cache_eq_some crStrategy s k o hc]

/-- A step leaves the opinions on the keys it is not about. -/
theorem opinion_onNewOpinion_of_ne (op : Opinion K V) (h : k ≠ op.key) :
    (onNewOpinion crStrategy s op).opinion k = s.opinion k := by
  funext p
  rw [opinion_onNewOpinion, if_neg fun hko => h hko.1.symm]

/-- A step shows nothing new for the keys it is not about. -/
theorem get_onNewOpinion_of_ne (op : Opinion K V) (h : k ≠ op.key) :
    (onNewOpinion crStrategy s op).get k = s.get k := by
  obtain ⟨k₀, v₀, o₀⟩ := op
  cases v₀ with
  | none =>
    rw [get, winners_onNewOpinion_none, get]
    split_ifs
    · split
      · rw [get?_put_of_ne _ _ _ _ h]
      · rw [get?_remove, if_neg h]
    · rfl
  | some v =>
    rw [get, winners_onNewOpinion_some, get]
    split_ifs
    · rw [get?_put_of_ne _ _ _ _ h]
    · rfl

end Fields

end MergedMap
