import StateTableBench.MergedMap.Winners

/-!
# How long a stale value stays on show

Under a strict total order a key is in one of two conditions. Either its winner is on show, or
the value on show is stale: nobody holds it, and it exceeds every current opinion. A step that
leaves a stale value behind leads from the first condition to the second, and only a step on the
same key that passes the test for a new winner leads back (`isWinner_handleAll_iff_not_unsettled`).
-/

open FiniteMap

namespace MergedMap

variable {H T : Type → Type → Type} [FiniteMap H] [FiniteMap T]
variable {K V : Type} [DecidableEq K] [DecidableEq V]

/-- The value on show exceeds every current opinion, of which there is at least one. -/
def Stale (crStrategy : V → V → Ordering) (current : String → Option V) (shown : Option V) :
    Prop :=
  ∃ w, shown = some w ∧ (∃ o v, current o = some v) ∧
    ∀ o v, current o = some v → crStrategy v w = .lt

variable (H T) in
/-- Some step of the log leaves a stale value behind for the key `k`, and no later step on `k`
passes the test for a new winner. -/
def Unsettled (crStrategy : V → V → Ordering) (log : List (Opinion K V)) (k : K) : Prop :=
  Run.Pending (onNewOpinion crStrategy) (init : MergedMap H T K V)
    (fun s op => op.key = k ∧ LeavesStale crStrategy s op)
    (fun s op => op.key = k ∧ ShowsNew crStrategy s op) log

/-- How one more opinion makes a key unsettled, or leaves it so. -/
theorem unsettled_concat_iff {crStrategy : V → V → Ordering} {log : List (Opinion K V)}
    {op : Opinion K V} {k : K} :
    Unsettled H T crStrategy (log ++ [op]) k ↔
      (op.key = k ∧ LeavesStale crStrategy (handleAll crStrategy log : MergedMap H T K V) op) ∨
      (Unsettled H T crStrategy log k ∧
        ¬(op.key = k ∧ ShowsNew crStrategy (handleAll crStrategy log : MergedMap H T K V) op)) :=
  Run.pending_concat_iff

section Step

variable {crStrategy : V → V → Ordering} [Std.TransCmp crStrategy]
variable {s : MergedMap H T K V} {op : Opinion K V}

omit [DecidableEq V] in
/-- Nobody holds a stale value. -/
theorem Stale.not_held {current : String → Option V} {shown : Option V}
    (h : Stale crStrategy current shown) {w : V} (hw : shown = some w) (o : String) :
    current o ≠ some w := by
  intro ho
  obtain ⟨w', hw', -, hlt⟩ := h
  obtain rfl : w = w' := Option.some.inj (hw.symm.trans hw')
  have hself : crStrategy w w = .eq := Std.ReflCmp.compare_self
  exact absurd (hself.symm.trans (hlt o w ho)) (by decide)

omit [DecidableEq V] in
/-- A stale value is not the winning one. -/
theorem Stale.not_isWinner {current : String → Option V} {shown : Option V}
    (h : Stale crStrategy current shown) : ¬IsWinner crStrategy current shown := by
  intro hwin
  have ⟨w, hw, _⟩ := h
  obtain ⟨o, ho⟩ := hwin.held w hw
  exact h.not_held hw o ho

omit [DecidableEq V] in
/-- A key that is stale already is not made stale again. -/
theorem Stale.not_leavesStale (h : Stale crStrategy (s.opinion op.key) (s.get op.key)) :
    ¬LeavesStale crStrategy s op := by
  rintro ⟨⟨w, hw, -, honly⟩, -⟩
  exact h.not_held hw op.owner ((honly op.owner).mpr rfl)

/-- A stale value stays stale under every step that fails the test for a new winner. -/
theorem Stale.onNewOpinion (h : Stale crStrategy (s.opinion op.key) (s.get op.key))
    (htest : ¬ShowsNew crStrategy s op) :
    Stale crStrategy ((onNewOpinion crStrategy s op).opinion op.key)
      ((onNewOpinion crStrategy s op).get op.key) := by
  rw [get_onNewOpinion_of_not_showsNew op htest]
  obtain ⟨w, hw, hne, hlt⟩ := h
  -- an old opinion, which is below `w`, bounds all opinions after the step
  obtain ⟨o', v', hbefore, hafter, hbound⟩ := exists_bound_of_not_showsNew op htest (.inr hne)
  refine ⟨w, hw, ⟨o', v', hafter⟩, fun p x hx => ?_⟩
  exact Std.TransCmp.lt_of_isLE_of_lt (hbound p x hx) (hlt o' v' hbefore)

/-- Under a strict total order, the value that a step leaves behind exceeds every opinion. -/
theorem stale_of_leavesStale [Std.LawfulEqCmp crStrategy]
    (hinv : IsWinner crStrategy (s.opinion op.key) (s.get op.key))
    (h : LeavesStale crStrategy s op) :
    Stale crStrategy ((onNewOpinion crStrategy s op).opinion op.key)
      ((onNewOpinion crStrategy s op).get op.key) := by
  rw [get_onNewOpinion_of_not_showsNew op h.2]
  obtain ⟨⟨w, hw, hvalue, honly⟩, htest⟩ := h
  have howner : s.opinion op.key op.owner = some w := (honly op.owner).mpr rfl
  obtain ⟨o', v', hbefore, hafter, hbound⟩ :=
    exists_bound_of_not_showsNew op htest (.inr ⟨op.owner, w, howner⟩)
  refine ⟨w, hw, ⟨o', v', hafter⟩, fun p x hx => ?_⟩
  have hle : (crStrategy x w).isLE :=
    Std.TransCmp.isLE_trans (hbound p x hx)
      (Ordering.isLE_iff_ne_gt.mpr (hinv.not_gt w hw o' v' hbefore))
  -- nobody holds `w` after the step, so `x` is not equal to it
  have hne : x ≠ w := by
    rintro rfl
    rw [opinion_onNewOpinion] at hx
    split_ifs at hx with howner'
    · exact hvalue hx
    · exact howner' ⟨rfl, ((honly p).mp hx).symm⟩
  cases hcmp : crStrategy x w with
  | lt => rfl
  | eq => exact absurd (Std.LawfulEqCmp.eq_of_compare hcmp) hne
  | gt => simp [hcmp] at hle

end Step

variable {crStrategy : V → V → Ordering} [Std.TransCmp crStrategy] [Std.LawfulEqCmp crStrategy]

omit [DecidableEq V] in
/-- A strict total order has at most one winner. -/
theorem IsWinner.unique {current : String → Option V} {shown shown' : Option V}
    (h : IsWinner crStrategy current shown) (h' : IsWinner crStrategy current shown') :
    shown = shown' := by
  cases shown with
  | none => exact (h'.none_iff.mpr (h.none_iff.mp rfl)).symm
  | some w =>
    obtain ⟨o, ho⟩ := h.held w rfl
    obtain ⟨w', rfl⟩ := h'.exists_shown ho
    obtain ⟨o', ho'⟩ := h'.held w' rfl
    have hle : (crStrategy w w').isLE := Ordering.isLE_iff_ne_gt.mpr (h'.not_gt w' rfl o w ho)
    have hge : (crStrategy w' w).isLE := Ordering.isLE_iff_ne_gt.mpr (h.not_gt w rfl o' w' ho')
    have heq : crStrategy w w' = .eq := Std.OrientedCmp.isLE_antisymm hle hge
    rw [Std.LawfulEqCmp.eq_of_compare heq]

variable (crStrategy) in
/-- The two conditions of a key, and which of them a log ends in. -/
theorem isWinner_or_stale (log : List (Opinion K V)) (k : K) :
    let s : MergedMap H T K V := handleAll crStrategy log
    (¬Unsettled H T crStrategy log k ∧ IsWinner crStrategy (s.opinion k) (s.get k)) ∨
      (Unsettled H T crStrategy log k ∧ Stale crStrategy (s.opinion k) (s.get k)) := by
  induction log using List.reverseRecOn with
  | nil => exact .inl ⟨by rintro ⟨pre, op, post, h, -⟩; simp at h, isWinner_init k⟩
  | append_singleton log op ih =>
    simp only [handleAll_concat, unsettled_concat_iff]
    by_cases hk : op.key = k
    · subst hk
      rcases ih with ⟨hset, hwin⟩ | ⟨hset, hstale⟩
      · -- the winner is on show: the step may leave it behind
        by_cases hleave : LeavesStale crStrategy (handleAll crStrategy log : MergedMap H T K V) op
        · exact .inr ⟨.inl ⟨rfl, hleave⟩, stale_of_leavesStale hwin hleave⟩
        · refine .inl ⟨by simp [hleave, hset], ?_⟩
          by_cases htest : ShowsNew crStrategy (handleAll crStrategy log : MergedMap H T K V) op
          · exact isWinner_of_showsNew op htest
          · exact isWinner_of_not_leavesStale op hwin htest hleave
      · -- a stale value is on show: only a step that shows a new winner replaces it
        have hleave := hstale.not_leavesStale
        by_cases htest : ShowsNew crStrategy (handleAll crStrategy log : MergedMap H T K V) op
        · exact .inl ⟨by simp [hleave, htest], isWinner_of_showsNew op htest⟩
        · exact .inr ⟨by simp [hset, htest], hstale.onNewOpinion htest⟩
    · -- a step on another key changes nothing
      rw [opinion_onNewOpinion_of_ne _ _ _ _ fun h => hk h.symm,
        get_onNewOpinion_of_ne _ _ _ _ fun h => hk h.symm]
      simpa [hk] using ih

/-- After a log the winner of a key is on show exactly when the key is settled. -/
theorem isWinner_handleAll_iff_not_unsettled (log : List (Opinion K V)) (k : K) :
    IsWinner crStrategy (currentOpinion log k)
      ((handleAll crStrategy log : MergedMap H T K V).get k) ↔ ¬Unsettled H T crStrategy log k := by
  rw [← opinion_handleAll_eq (H := H) (T := T) crStrategy]
  rcases isWinner_or_stale (H := H) (T := T) crStrategy log k with ⟨hset, hwin⟩ | ⟨hset, hstale⟩
  · exact iff_of_true hwin hset
  · exact iff_of_false hstale.not_isWinner (not_not.mpr hset)

end MergedMap
