import StateTableBench.MergedMap.Opinions
import StateTableBench.Transition.Run

/-!
# Which opinion is on show

`get` should show the greatest current opinion of a key (`IsWinner`). The map maintains
`winners` incrementally: an addition touches it only if the opinion just stored wins, and a
removal only if the winning pair changes. A step that takes the opinion on show away from its
only holder and fails the respective test therefore leaves a value on show that nobody holds
any more (`LeavesStale`); an owner that lowers its own winning opinion below another owner's is
the typical case.

* `isWinner_onNewOpinion_iff` — from a state that shows the winners, a step reaches another one
  exactly when it does not leave a stale value behind;
* `isWinner_handleAll_iff` — the same for whole runs, under every total preorder.
-/

open FiniteMap

namespace MergedMap

variable {H T : Type → Type → Type} [FiniteMap H] [FiniteMap T]
variable {K V : Type} [DecidableEq K] [DecidableEq V]

/-- `shown` is the winner among the current opinions: nothing if there are none, and otherwise
the value of one of them that no other exceeds. -/
structure IsWinner (crStrategy : V → V → Ordering) (current : String → Option V)
    (shown : Option V) : Prop where
  none_iff : shown = none ↔ ∀ o, current o = none
  held : ∀ w, shown = some w → ∃ o, current o = some w
  not_gt : ∀ w, shown = some w → ∀ o v, current o = some v → crStrategy v w ≠ .gt

/-- The test of the source after which a step updates `winners`. -/
def ShowsNew (crStrategy : V → V → Ordering) (s : MergedMap H T K V) (op : Opinion K V) : Prop :=
  match op.value with
  | some v => wins crStrategy s op.key v op.owner
  | none => winnerChanges crStrategy s op.key op.owner

instance (crStrategy : V → V → Ordering) (s : MergedMap H T K V) (op : Opinion K V) :
    Decidable (ShowsNew crStrategy s op) :=
  match op with
  | ⟨k, some v, o⟩ => inferInstanceAs (Decidable (wins crStrategy s k v o))
  | ⟨k, none, o⟩ => inferInstanceAs (Decidable (winnerChanges crStrategy s k o))

/-- The step takes the value on show away from its only holder, and the test of the source for
a new winner fails. -/
def LeavesStale (crStrategy : V → V → Ordering) (s : MergedMap H T K V) (op : Opinion K V) :
    Prop :=
  (∃ w, s.get op.key = some w ∧ op.value ≠ some w ∧
    ∀ o, s.opinion op.key o = some w ↔ o = op.owner) ∧ ¬ShowsNew crStrategy s op

section Step

variable {crStrategy : V → V → Ordering} {s : MergedMap H T K V} {k : K} {v : V} {o : String}

/-- A step that fails the test for a new winner shows what was shown before. -/
theorem get_onNewOpinion_of_not_showsNew (op : Opinion K V) (h : ¬ShowsNew crStrategy s op) :
    (onNewOpinion crStrategy s op).get op.key = s.get op.key := by
  obtain ⟨k, v, o⟩ := op
  cases v with
  | none =>
    have htest : ¬winnerChanges crStrategy s k o := h
    rw [get, winners_onNewOpinion_none, if_neg htest, get]
  | some v =>
    -- an addition that loses does not touch `winners`, even if the owner held the winner
    have htest : ¬wins crStrategy s k v o := h
    rw [get, winners_onNewOpinion_some, if_neg htest, get]

/-- If a step keeps the value on show without leaving it stale, somebody still holds it. -/
theorem exists_holder_of_not_leavesStale {op : Opinion K V} {w : V}
    (hheld : ∃ p, s.opinion op.key p = some w) (hw : s.get op.key = some w)
    (htest : ¬ShowsNew crStrategy s op) (hsafe : ¬LeavesStale crStrategy s op) :
    ∃ p, (onNewOpinion crStrategy s op).opinion op.key p = some w := by
  by_contra hnone
  rw [not_exists] at hnone
  -- only the owner of the step can have lost `w`, so it was the only holder
  have hother : ∀ p, s.opinion op.key p = some w → p = op.owner := by
    intro p hp
    by_contra hne
    refine hnone p ?_
    rw [opinion_onNewOpinion, if_neg fun h => hne h.2.symm, hp]
  refine hsafe ⟨⟨w, hw, ?_, fun p => ⟨hother p, ?_⟩⟩, htest⟩
  · intro hvalue
    refine hnone op.owner ?_
    rw [opinion_onNewOpinion, if_pos ⟨rfl, rfl⟩, hvalue]
  · intro hp
    obtain ⟨q, hq⟩ := hheld
    rw [hp, ← hother q hq, hq]

/-- After a step that leaves a stale value, nobody holds the value on show. -/
theorem not_isWinner_of_leavesStale {op : Opinion K V} (h : LeavesStale crStrategy s op) :
    ¬IsWinner crStrategy ((onNewOpinion crStrategy s op).opinion op.key)
      ((onNewOpinion crStrategy s op).get op.key) := by
  intro hwin
  have hget := get_onNewOpinion_of_not_showsNew op h.2
  obtain ⟨⟨w, hshown, hvalue, honly⟩, -⟩ := h
  obtain ⟨p, hp⟩ := hwin.held w (hget.trans hshown)
  rw [opinion_onNewOpinion] at hp
  by_cases ho : p = op.owner
  · rw [if_pos ⟨rfl, ho.symm⟩] at hp
    exact hvalue hp
  · rw [if_neg fun hpo => ho hpo.2.symm] at hp
    exact ho ((honly p).mp hp)

variable [Std.TransCmp crStrategy]

omit [DecidableEq V] [Std.TransCmp crStrategy] in
/-- Showing nothing is right when there is no opinion. -/
theorem isWinner_of_isEmpty {ops : H String V} (h : isEmpty ops = true) :
    IsWinner crStrategy (get? ops) none where
  none_iff := by simpa using (FiniteMap.isEmpty_iff ops).mp h
  held := by simp
  not_gt := by simp

omit [DecidableEq V] [Std.TransCmp crStrategy] in
/-- A value that somebody holds and nobody exceeds is the winner. -/
theorem isWinner_some {current : String → Option V} {w : V} (hheld : ∃ p, current p = some w)
    (hnot_gt : ∀ p x, current p = some x → crStrategy x w ≠ .gt) :
    IsWinner crStrategy current (some w) where
  none_iff := by
    obtain ⟨p, hp⟩ := hheld
    exact ⟨fun h => (Option.some_ne_none _ h).elim,
      fun hall => (Option.some_ne_none _ (hp.symm.trans (hall p))).elim⟩
  held := by
    rintro _ ⟨rfl⟩
    exact hheld
  not_gt := by
    rintro _ ⟨rfl⟩
    exact hnot_gt

omit [DecidableEq V] in
/-- The winning pair of a set of opinions is a winner among them. -/
theorem isWinner_of_winningPair {ops : H String V} {p : String × V}
    (h : winningPair crStrategy ops = some p) : IsWinner crStrategy (get? ops) (some p.2) := by
  refine isWinner_some ⟨p.1, get?_of_winningPair h⟩ fun o v hv => ?_
  exact Ordering.isLE_iff_ne_gt.mp (isLE_winningPair h hv)

omit [DecidableEq V] [Std.TransCmp crStrategy] in
/-- Something is on show as soon as there is an opinion. -/
theorem IsWinner.exists_shown {current : String → Option V} {shown : Option V}
    (h : IsWinner crStrategy current shown) {p : String} {x : V} (hp : current p = some x) :
    ∃ w, shown = some w := by
  rw [← Option.ne_none_iff_exists', ne_eq, h.none_iff]
  exact fun hall => Option.some_ne_none _ (hp.symm.trans (hall p))

/-- A step that passes the test for a new winner shows the winner, whatever was shown before. -/
theorem isWinner_of_showsNew (op : Opinion K V) (h : ShowsNew crStrategy s op) :
    IsWinner crStrategy ((onNewOpinion crStrategy s op).opinion op.key)
      ((onNewOpinion crStrategy s op).get op.key) := by
  obtain ⟨k, v, o⟩ := op
  cases v with
  | none =>
    have htest : winnerChanges crStrategy s k o := h
    rw [opinion_onNewOpinion_none_self, get, winners_onNewOpinion_none, if_pos htest]
    cases hnew : winningPair crStrategy (s.withoutOwner k o) with
    | none =>
      rw [get?_remove, if_pos rfl]
      exact isWinner_of_isEmpty (winningPair_eq_none_iff.mp hnew)
    | some p =>
      rw [get?_put_self]
      exact isWinner_of_winningPair hnew
  | some v =>
    have htest : wins crStrategy s k v o := h
    rw [opinion_onNewOpinion_some_self, get, winners_onNewOpinion_some, if_pos htest,
      get?_put_self]
    exact isWinner_of_winningPair htest

/-- If a step fails the test for a new winner and there are opinions, then some opinion `v'` was
there before the step and bounds every opinion after it. -/
theorem exists_bound_of_not_showsNew (op : Opinion K V) (htest : ¬ShowsNew crStrategy s op)
    (hne : (∃ v, op.value = some v) ∨ ∃ o v, s.opinion op.key o = some v) :
    ∃ o' v', s.opinion op.key o' = some v' ∧
      (onNewOpinion crStrategy s op).opinion op.key o' = some v' ∧
      ∀ p x, (onNewOpinion crStrategy s op).opinion op.key p = some x → (crStrategy x v').isLE := by
  obtain ⟨k, v, o⟩ := op
  cases v with
  | none =>
    -- the winning pair is the same before and after the removal
    have hsame : winningPair crStrategy (s.opinions k) =
      winningPair crStrategy (s.withoutOwner k o) := not_not.mp htest
    cases hprev : winningPair crStrategy (s.opinions k) with
    | none =>
      exfalso
      obtain ⟨v, hv⟩ | ⟨p, x, hp⟩ := hne
      · exact Option.some_ne_none _ hv.symm
      · have hemp := (FiniteMap.isEmpty_iff _).mp (winningPair_eq_none_iff.mp hprev) p
        exact Option.some_ne_none _ (hp.symm.trans hemp)
    | some p =>
      have hnew := hsame.symm.trans hprev
      refine ⟨p.1, p.2, get?_of_winningPair hprev, ?_⟩
      rw [opinion_onNewOpinion_none_self]
      exact ⟨get?_of_winningPair hnew, fun _ _ hx => isLE_winningPair hnew hx⟩
  | some v =>
    -- the opinion just stored lost against one that was there before
    obtain ⟨o', v', hpair, hne', hv'⟩ := exists_winningPair_of_not_wins htest
    refine ⟨o', v', hv', ?_⟩
    rw [opinion_onNewOpinion_some_self]
    exact ⟨get?_of_winningPair hpair, fun _ _ hx => isLE_winningPair hpair hx⟩

/-- A step that shows no new winner and leaves no stale value keeps the winner on show. -/
theorem isWinner_of_not_leavesStale (op : Opinion K V)
    (hinv : IsWinner crStrategy (s.opinion op.key) (s.get op.key))
    (htest : ¬ShowsNew crStrategy s op) (hsafe : ¬LeavesStale crStrategy s op) :
    IsWinner crStrategy ((onNewOpinion crStrategy s op).opinion op.key)
      ((onNewOpinion crStrategy s op).get op.key) := by
  rw [get_onNewOpinion_of_not_showsNew op htest]
  by_cases hne : (∃ v, op.value = some v) ∨ ∃ o v, s.opinion op.key o = some v
  · obtain ⟨o', v', hbefore, -, hbound⟩ := exists_bound_of_not_showsNew op htest hne
    obtain ⟨w, hw⟩ := hinv.exists_shown hbefore
    rw [hw]
    refine isWinner_some (exists_holder_of_not_leavesStale (hinv.held w hw) hw htest hsafe) ?_
    intro p x hx
    -- `x` is at most `v'`, an old opinion, and so at most the value `w` on show
    have hv'w : (crStrategy v' w).isLE :=
      Ordering.isLE_iff_ne_gt.mpr (hinv.not_gt w hw o' v' hbefore)
    exact Ordering.isLE_iff_ne_gt.mp (Std.TransCmp.isLE_trans (hbound p x hx) hv'w)
  · -- a removal for a key without opinions: nothing was on show and nothing is
    rw [not_or, not_exists, not_exists] at hne
    have hvalue : op.value = none := Option.eq_none_iff_forall_ne_some.mpr hne.1
    have hall : ∀ o, s.opinion op.key o = none := fun o =>
      Option.eq_none_iff_forall_ne_some.mpr (not_exists.mp (hne.2 o))
    rw [hinv.none_iff.mpr hall]
    refine ⟨⟨fun _ o => ?_, fun _ => rfl⟩, by simp, by simp⟩
    rw [opinion_onNewOpinion]
    split_ifs
    · exact hvalue
    · exact hall o

end Step

variable {crStrategy : V → V → Ordering} [Std.TransCmp crStrategy]

/-- From a state that shows the winners, a step leads to another one exactly when it leaves no
stale value behind. -/
theorem isWinner_onNewOpinion_iff (s : MergedMap H T K V) (op : Opinion K V)
    (hinv : ∀ k, IsWinner crStrategy (s.opinion k) (s.get k)) :
    (∀ k, IsWinner crStrategy ((onNewOpinion crStrategy s op).opinion k)
      ((onNewOpinion crStrategy s op).get k)) ↔ ¬LeavesStale crStrategy s op := by
  refine ⟨fun hall hstale => not_isWinner_of_leavesStale hstale (hall op.key), fun hsafe k => ?_⟩
  by_cases hk : k = op.key
  · subst hk
    by_cases htest : ShowsNew crStrategy s op
    · exact isWinner_of_showsNew op htest
    · exact isWinner_of_not_leavesStale op (hinv op.key) htest hsafe
  · rw [opinion_onNewOpinion_of_ne _ _ _ _ hk, get_onNewOpinion_of_ne _ _ _ _ hk]
    exact hinv k

omit [DecidableEq V] [Std.TransCmp crStrategy] in
/-- In a new map `get` returns nothing, rightly. -/
theorem isWinner_init (k : K) :
    IsWinner crStrategy ((init : MergedMap H T K V).opinion k)
      ((init : MergedMap H T K V).get k) := by
  have hget : (init : MergedMap H T K V).get k = none := by simp [get, init]
  rw [hget]
  refine ⟨⟨fun _ o => opinion_init k o, fun _ => rfl⟩, by simp, by simp⟩

/-- `get` shows the winner of every key after every step of a run exactly when no step of the
run takes the value on show away from its only holder while the test for a new winner fails. -/
theorem isWinner_handleAll_iff (log : List (Opinion K V)) :
    (∀ pre, pre <+: log → ∀ k, IsWinner crStrategy (currentOpinion pre k)
      ((handleAll crStrategy pre : MergedMap H T K V).get k)) ↔
    Run.EachStep (onNewOpinion crStrategy) (init : MergedMap H T K V)
      (fun s op => ¬LeavesStale crStrategy s op) log := by
  -- the exact rule for runs, with the step lemma above
  rw [← Run.always_iff (fun k => isWinner_init k) isWinner_onNewOpinion_iff log, Run.Always]
  refine forall₂_congr fun pre _ => forall_congr' fun k => ?_
  rw [← handleAll, opinion_handleAll_eq]

/-! ### A run that shows the winners, and one that does not -/

/-- Two owners, the second with the greater opinion. -/
def raisingLog {K : Type} (k : K) : List (Opinion K ℕ) :=
  [⟨k, some 5, "node2"⟩, ⟨k, some 10, "node1"⟩]

/-- The owner of the winning opinion lowers it below the opinion of the other owner. -/
def loweringLog {K : Type} (k : K) : List (Opinion K ℕ) := raisingLog k ++ [⟨k, some 3, "node1"⟩]

theorem isWinner_handleAll_raisingLog :
    (handleAll compare (raisingLog 0) : MergedMap AssocMap AssocMap ℕ ℕ).get 0 = some 10 ∧
    ∀ pre, pre <+: raisingLog 0 → ∀ k, IsWinner compare (currentOpinion pre k)
      ((handleAll compare pre : MergedMap AssocMap AssocMap ℕ ℕ).get k) := by
  have hnew : Run.EachStep (onNewOpinion compare) (init : MergedMap AssocMap AssocMap ℕ ℕ)
      (ShowsNew compare) (raisingLog 0) := by
    simp only [raisingLog, Run.eachStep_cons_iff]
    exact ⟨by decide, by decide, Run.eachStep_nil⟩
  refine ⟨by decide, (isWinner_handleAll_iff (raisingLog 0)).mpr ?_⟩
  exact hnew.mono fun _ _ htest h => h.2 htest

theorem not_isWinner_handleAll_loweringLog :
    ¬∀ pre, pre <+: loweringLog 0 → ∀ k, IsWinner compare (currentOpinion pre k)
      ((handleAll compare pre : MergedMap AssocMap AssocMap ℕ ℕ).get k) := by
  intro hall
  have hshown : (handleAll compare (loweringLog 0) : MergedMap AssocMap AssocMap ℕ ℕ).get 0 =
      some 10 := by decide
  -- the map shows `10`, which `node1` has taken back and nobody else has held
  obtain ⟨o, ho⟩ := (hall (loweringLog 0) (List.prefix_refl _) 0).held 10 hshown
  by_cases h₁ : o = "node1"
  · subst h₁
    exact absurd ho (by decide)
  · by_cases h₂ : o = "node2"
    · subst h₂
      exact absurd ho (by decide)
    · simp [loweringLog, raisingLog, currentOpinion, KeyedLog.last?, subject, Ne.symm h₁,
        Ne.symm h₂] at ho

end MergedMap
