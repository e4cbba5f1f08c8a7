import StateTableBench.Spmd.Plan

/-!
# Reaching the end of a plan

Every step of a rank that follows a plan brings it closer to the end: `todo` counts the
collectives still to be left, weighted by the computations in between. Hence the ranks can always
be driven to the end together, and programs without further collectives terminate.

The last section relates the events of a rank to its local state.
-/

open Finset

namespace Spmd

variable {n : ℕ} {σ β ε : Type}
variable {prog : Fin n → σ → Act n σ β ε} {init : Fin n → σ} {P : Plan n σ β}
variable {r : Fin n} {c c' : Config n σ β ε} {k : ℕ}

open Classical in
/-- What rank `r` still has to do until it has left `k` collectives. -/
noncomputable def Config.todo (P : Plan n σ β) (k : ℕ) (c : Config n σ β ε) (r : Fin n) : ℕ :=
  (k - c.left r) * (P.bound + 2) + if c.Outside r then P.work (c.loc r) + 1 else 0

/-- What a rank outside has to do, up to `k` collectives. -/
theorem Config.todo_of_outside (h : c.Outside r) :
    c.todo P k r = (k - c.left r) * (P.bound + 2) + (P.work (c.loc r) + 1) := by
  rw [todo, if_pos h]

/-- A rank that waits has to leave its collective first. -/
theorem Config.todo_of_not_outside (h : ¬c.Outside r) :
    c.todo P k r = (k - c.left r) * (P.bound + 2) := by
  rw [todo, if_neg h, Nat.add_zero]

/-- In both cases it is bounded by the number of collectives. -/
theorem Config.todo_le (hf : Follows prog init P) (r : Fin n) :
    c.todo P k r ≤ (k - c.left r) * (P.bound + 2) + (P.bound + 1) := by
  have hwork := hf.work_le (c.loc r)
  rw [todo]
  split <;> omega

/-- A step of another rank does not change it. -/
theorem StepBy.todo_of_ne (h : StepBy prog r c c') {q : Fin n} (hq : q ≠ r) :
    c'.todo P k q = c.todo P k q := by
  unfold Config.todo Config.Outside
  rw [h.left_of_ne hq, h.issued_of_ne hq, h.loc_of_ne hq]

/-- A step of a rank that is behind `k`, or whose next action is no collective, brings it closer
to leaving `k` collectives. -/
theorem OnPlan.todo_lt (h : OnPlan prog P c) (hf : Follows prog init P) (hle : c.left r ≤ P.len)
    (hmove : c.left r < k ∨ (prog r (c.loc r)).collective? = none) (hstep : StepBy prog r c c') :
    c'.todo P k r < c.todo P k r := by
  cases hstep with
  | @compute event next hout hact =>
    have hwork := (hf.compute hle (h.at_left r hle) hact).2
    rw [Config.todo_of_outside hout, Config.todo_of_outside (by exact hout)]
    simpa using hwork
  | @enter x next hout hact =>
    have hlen : c.left r = (c.issued r).length := hout
    rw [Config.todo_of_outside hout, Config.todo_of_not_outside (by simp [Config.Outside, hlen])]
    show (k - c.left r) * (P.bound + 2) < _
    omega
  | @leave x next v hin hact hrel =>
    have hlt : c.left r < k := by
      rcases hmove with hlt | hnone
      · exact hlt
      · cases hnone.symm.trans hact
    rw [Config.todo_of_not_outside hin]
    refine (Config.todo_le hf r).trans_lt ?_
    simp only [Function.update_self]
    -- one collective less outweighs the computations until the next one
    obtain ⟨d, hd⟩ : ∃ d, k - c.left r = d + 1 := ⟨k - c.left r - 1, by omega⟩
    have hd' : k - (c.left r + 1) = d := by omega
    rw [hd, hd', Nat.succ_mul]
    omega

/-- Each step leaves all ranks together less to do. -/
theorem OnPlan.sum_todo_lt (h : OnPlan prog P c) (hf : Follows prog init P)
    (hle : c.left r ≤ P.len) (hmove : c.left r < k ∨ (prog r (c.loc r)).collective? = none)
    (hstep : StepBy prog r c c') : ∑ q, c'.todo P k q < ∑ q, c.todo P k q := by
  refine sum_lt_sum (fun q _ => ?_) ⟨r, mem_univ r, h.todo_lt hf hle hmove hstep⟩
  by_cases hq : q = r
  · subst hq
    exact (h.todo_lt hf hle hmove hstep).le
  · exact (hstep.todo_of_ne hq).le

/-! ## Driving all ranks to the end -/

/-- A rank that was behind `k` is behind `k` after its step, or has just left `k` collectives. -/
theorem StepBy.behind_or_outside (h : StepBy prog r c c') (hc : Coherent prog c)
    (hlt : c.left r < k) : c'.left r < k ∨ c'.left r = k ∧ c'.Outside r := by
  cases h with
  | compute => exact .inl hlt
  | enter => exact .inl hlt
  | leave hin hact hrel =>
    have hlen := ((hc.pending r).resolve_left hin).1
    simp only [Config.Outside, Function.update_self]
    omega

/-- From a configuration in which nobody is beyond `k`, all ranks can leave `k` collectives. -/
theorem Follows.exists_reachable_of_behind [Inhabited β] (hf : Follows prog init P)
    (hk : k ≤ P.len) (hc : Reachable prog init c)
    (hbehind : ∀ r, c.left r < k ∨ c.left r = k ∧ c.Outside r) :
    ∃ c', Reachable prog init c' ∧ ∀ r, c'.left r = k ∧ c'.Outside r := by
  -- induction on what is left to do
  induction htodo : ∑ q, c.todo P k q using Nat.strong_induction_on generalizing c with
  | _ m ih =>
    by_cases hall : ∃ r, c.left r < k
    · have honplan := hf.onPlan hc
      obtain ⟨r, c', hr, hstep⟩ := honplan.exists_stepBy hf hk hall
      have hless := honplan.sum_todo_lt hf (hr.le.trans hk) (.inl hr) hstep
      refine ih _ (htodo ▸ hless) (hc.step hstep) (fun q => ?_) rfl
      by_cases hq : q = r
      · subst hq
        exact hstep.behind_or_outside honplan.coherent hr
      · unfold Config.Outside
        rw [hstep.left_of_ne hq, hstep.issued_of_ne hq]
        exact hbehind q
    · exact ⟨c, hc, fun r => (hbehind r).resolve_left fun hr => hall ⟨r, hr⟩⟩

/-- All ranks together reach the end of the plan. -/
theorem Follows.exists_reachable_left_eq [Inhabited β] (hf : Follows prog init P) :
    ∃ c, Reachable prog init c ∧ ∀ r, c.left r = P.len ∧ c.Outside r := by
  refine hf.exists_reachable_of_behind le_rfl Relation.ReflTransGen.refl fun r => ?_
  rcases Nat.eq_zero_or_pos P.len with hzero | hpos
  · exact .inr ⟨hzero.symm, rfl⟩
  · exact .inl hpos

/-! ## Complete plans -/

section Complete

variable (hf : Follows prog init P) (hcomplete : Complete prog P)

include hf hcomplete

/-- Nobody enters more collectives than the plan has. -/
theorem Follows.length_issued_le (hc : Reachable prog init c) (r : Fin n) :
    (c.issued r).length ≤ P.len := by
  have hinv : OnPlan prog P c ∧ ∀ r, (c.issued r).length ≤ P.len := by
    refine Reachable.inv (I := fun c => OnPlan prog P c ∧ ∀ r, (c.issued r).length ≤ P.len)
      ⟨hf.onPlan_start, fun r => Nat.zero_le _⟩ ?_ hc
    rintro r c c' ⟨honplan, hlen⟩ hstep
    refine ⟨honplan.step hf hstep, fun q => ?_⟩
    by_cases hq : q = r
    · subst hq
      cases hstep with
      | compute => exact hlen q
      | leave => exact hlen q
      | @enter x next hout hact =>
        have hleft : c.left q = (c.issued q).length := hout
        -- at the end of the plan there is nothing left to enter
        have hne : c.left q ≠ P.len := by
          intro heq
          have hat := honplan.at_left q heq.le
          rw [heq] at hat
          cases (hcomplete q _ hat).symm.trans hact
        have hq := hlen q
        simp only [Function.update_self, List.length_append, List.length_singleton]
        omega
    · rw [hstep.issued_of_ne hq]
      exact hlen q
  exact hinv.2 r

/-- No rank leaves more collectives than are planned. -/
theorem Follows.left_le_len (hc : Reachable prog init c) (r : Fin n) : c.left r ≤ P.len :=
  (hc.coherent.left_le r).trans (hf.length_issued_le hcomplete hc r)

/-- Every step of a run brings it closer to its end: there is no infinite run. -/
theorem Follows.terminates : ∃ μ : Config n σ β ε → ℕ,
    ∀ c c', Reachable prog init c → Step prog c c' → μ c' < μ c := by
  -- what all ranks together still have to do until the end of the plan
  refine ⟨fun c => ∑ q, c.todo P P.len q, ?_⟩
  rintro c c' hc ⟨r, hstep⟩
  have honplan := hf.onPlan hc
  have hle := hf.left_le_len hcomplete hc r
  refine honplan.sum_todo_lt hf hle ?_ hstep
  rcases hle.lt_or_eq with hlt | heq
  · exact .inl hlt
  · have hat := honplan.at_left r hle
    rw [heq] at hat
    exact .inr (hcomplete r _ hat)

/-- A run ends only when every rank has come to the end of the plan and halted. -/
theorem Follows.halted_of_stuck [Inhabited β] (hc : Reachable prog init c) (hstuck : Stuck prog c)
    (r : Fin n) : c.left r = P.len ∧ Halted prog c r := by
  have honplan := hf.onPlan hc
  have hle := hf.left_le_len hcomplete hc r
  have hleft : c.left r = P.len := by
    -- a rank that is behind means that some rank can move
    by_contra hne
    obtain ⟨q, c', -, hstep⟩ := honplan.exists_stepBy hf le_rfl ⟨r, by omega⟩
    exact hstuck c' ⟨q, hstep⟩
  have hout : c.Outside r := by
    have hlen := hf.length_issued_le hcomplete hc r
    have hge := honplan.coherent.left_le r
    unfold Config.Outside
    omega
  have hat := honplan.at_left r hle
  rw [hleft] at hat
  have hnone := hcomplete r _ hat
  refine ⟨hleft, hout, ?_⟩
  cases hact : prog r (c.loc r) with
  | halt => rfl
  | compute event next => exact absurd ⟨r, .compute hout hact⟩ (hstuck _)
  | barrier next =>
    rw [hact] at hnone
    cases hnone
  | bcast root mine next =>
    rw [hact] at hnone
    cases hnone

/-- Some run comes to its end. -/
theorem Follows.exists_reachable_stuck : ∃ c, Reachable prog init c ∧ Stuck prog c := by
  -- a reachable configuration with the least measure has no successor
  obtain ⟨μ, hμ⟩ := hf.terminates hcomplete
  obtain ⟨c, hc, hmin⟩ := (measure μ).wf.has_min {c | Reachable prog init c}
    ⟨_, Relation.ReflTransGen.refl⟩
  refine ⟨c, hc, fun c' hstep => ?_⟩
  have hc' : Reachable prog init c' := Relation.ReflTransGen.tail hc hstep
  exact hmin c' hc' (hμ c c' hc hstep)

end Complete

/-! ## The events of a rank -/

/-- A step of another rank adds no event. -/
theorem StepBy.own_of_ne (h : StepBy prog r c c') {q : Fin n} (hq : q ≠ r) :
    c'.own q = c.own q := by
  cases h with
  | @compute event next hout hact =>
    cases event with
    | none => simp [Config.own]
    | some e => simp [Config.own, hq.symm]
  | enter => rfl
  | leave => rfl

/-- The local state of a rank determines the events it has produced. -/
structure Records (prog : Fin n → σ → Act n σ β ε) (init : Fin n → σ) (P : Plan n σ β)
    (hist : Fin n → σ → List ε) : Prop where
  start : ∀ r, hist r (init r) = []
  compute : ∀ {r i s event next}, i ≤ P.len → P.At r i s → prog r s = .compute event next →
    hist r next = hist r s ++ event.toList
  collective : ∀ {r i s x next}, i < P.len → P.At r i s →
    (prog r s).collective? = some (x, next) →
    ∀ v, (P.sched i).Delivers v → hist r (next v) = hist r s

/-- The events of a rank are those on the way to where it is. -/
theorem Records.own_eq {hist : Fin n → σ → List ε} (hrec : Records prog init P hist)
    (hf : Follows prog init P) (hcomplete : Complete prog P) (hc : Reachable prog init c)
    (r : Fin n) : c.own r = hist r (c.loc r) := by
  induction hc with
  | refl => exact (hrec.start r).symm
  | @tail c c' hc hstep ih =>
    obtain ⟨q, hstep⟩ := hstep
    have honplan := hf.onPlan hc
    by_cases hr : r = q
    · subst hr
      have hle := hf.left_le_len hcomplete hc r
      have hat := honplan.at_left r hle
      cases hstep with
      | @compute event next hout hact =>
        have hnext := hrec.compute hle hat hact
        simp only [Function.update_self, hnext, ← ih]
        cases event with
        | none => simp [Config.own]
        | some e => simp [Config.own]
      | enter => exact ih
      | @leave x next v hin hact hrel =>
        have hlt : c.left r < P.len := by
          rcases hle.lt_or_eq with hlt | heq
          · exact hlt
          · rw [heq] at hat
            cases (hcomplete r _ hat).symm.trans hact
        have hfit := (hf.collective hlt hat hact).1
        have hnext := hrec.collective hlt hat hact v (honplan.delivers hlt hfit hrel)
        simp only [Function.update_self, hnext]
        exact ih
    · rw [hstep.own_of_ne hr, hstep.loc_of_ne hr, ih]

end Spmd
