import StateTableBench.TestBench.ThrottledSetup

/-!
# Throttled setup is a total order

If every `setup()` returns, all ranks go through `mpiSize` rounds with the same value in each, and
the setups happen one after the other in the order of the ranks (`throttledSetup_totalOrder`).

The order of the setups follows from the barriers: a rank that begins its setup has left the
barrier of the round before, so the rank of that round has entered this barrier, which it does
only after its own setup has ended.
-/

open Spmd

namespace TestBench

variable {mpiSize : ℕ} [NeZero mpiSize]

/-- The plan of the loop for setups that return. -/
def loopPlan : Plan mpiSize Loop Payload where
  sched := loopSched
  len := 2 * mpiSize
  At := LoopAt false
  work := Loop.work
  bound := 3

theorem follows_loopPlan :
    Follows (throttledSetup false) (fun _ : Fin mpiSize => Loop.init) loopPlan where
  start _ := LoopAt.init
  compute _ hat hact := hat.compute hact
  collective _ hat hact := hat.collective hact
  not_halt hi hat hact := by
    have hend := hat.halt hact
    have hlt : _ < 2 * mpiSize := hi
    simp [rounds] at hend
    omega
  work_le := Loop.work_le

theorem complete_loopPlan :
    Complete (throttledSetup false : Fin mpiSize → Loop → _) loopPlan := by
  intro r s hat
  by_contra hne
  obtain ⟨⟨x, next⟩, hact⟩ := Option.ne_none_iff_exists'.mp hne
  -- the barrier and the broadcast belong to a round below `mpiSize`
  have hlt : 2 * mpiSize < 2 * rounds false r := LoopAt.lt_of_collective hat hact
  have hle := rounds_le false r
  omega

/-! ## The events of one rank -/

/-- The events of rank `r` in the round with the value `v`. -/
def roundEvents (r : Fin mpiSize) (v : ℕ) : List Event :=
  .enterRound v :: if v = r.val then [.setupBegin, .setupEnd] else []

/-- The events of rank `r` in the whole loop. -/
def loopEvents (r : Fin mpiSize) : List Event :=
  (List.range mpiSize).flatMap (roundEvents r) ++ [.leaveLoop]

/-- The events so far of rank `r` in the round with the value `v`. -/
def partialRound (r : Fin mpiSize) (v : ℕ) : Pc → List Event
  | .loopTest => []
  | .body => [.enterRound v]
  | .setup => [.enterRound v, .setupBegin]
  | .barrier => roundEvents r v
  | .broadcast => roundEvents r v
  | .returned => [.leaveLoop]
  | .threw => []

/-- The events of a rank so far, which its local state determines. -/
def history (r : Fin mpiSize) (s : Loop) : List Event :=
  (List.range s.nodeThatCanStartWarmup.toNat).flatMap (roundEvents r) ++
    partialRound r s.nodeThatCanStartWarmup.toNat s.pc

section History

variable {r : Fin mpiSize} {i : ℕ} {s : Loop}

omit [NeZero mpiSize] in
theorem history_natCast (pc : Pc) (v : ℕ) :
    history r ⟨pc, v⟩ = (List.range v).flatMap (roundEvents r) ++ partialRound r v pc := by
  simp only [history, Int.toNat_natCast]

theorem history_compute (h : LoopAt false r i s) {event : Option Event} {next : Loop}
    (hact : throttledSetup false r s = .compute event next) :
    history r next = history r s ++ event.toList := by
  obtain ⟨pc, v⟩ := s
  obtain ⟨hv, hpc⟩ := h
  simp only at hv hpc
  -- only the value of the round matters from here on
  generalize i / 2 = m at hv hpc
  subst hv
  unfold throttledSetup at hact
  cases pc with
  | loopTest =>
    simp only at hact
    split at hact
    all_goals
      obtain ⟨rfl, rfl⟩ := Act.compute.inj hact
      simp [history_natCast, partialRound]
  | body =>
    simp only at hact
    split at hact
    · obtain ⟨rfl, rfl⟩ := Act.compute.inj hact
      simp [history_natCast, partialRound]
    · next hne =>
      obtain ⟨rfl, rfl⟩ := Act.compute.inj hact
      have hne' : ¬m = r.val := by omega
      simp [history_natCast, partialRound, roundEvents, hne']
  | setup =>
    simp only [Bool.false_eq_true, if_false] at hact
    obtain ⟨rfl, rfl⟩ := Act.compute.inj hact
    simp [history_natCast, partialRound, roundEvents, hpc.2]
  | barrier => cases hact
  | broadcast => simp only at hact; split at hact <;> cases hact
  | returned => cases hact
  | threw => cases hact

theorem history_collective (h : LoopAt false r i s) {x : Collective mpiSize Payload}
    {next : Payload → Loop} (hact : (throttledSetup false r s).collective? = some (x, next))
    {v : Payload} (hv : (loopSched i : Collective mpiSize Payload).Delivers v) :
    history r (next v) = history r s := by
  have hafter := (h.collective hact).2 v hv
  obtain ⟨hs, hpc⟩ := h
  rcases throttledSetup_collective hact with ⟨hbar, -, hnext⟩ | ⟨hbc, mine, -, -, hnext⟩
  · simp [history, partialRound, hnext, hbar]
  · rw [hbc] at hpc
    -- the round is complete and the next one has the next value
    have hround : (i + 1) / 2 = i / 2 + 1 := by omega
    have hs' := hafter.1
    rw [hround] at hs'
    have hpc' : (next v).pc = .loopTest := by rw [hnext]
    simp only [history, hs, hs', hbc, hpc', partialRound, Int.toNat_natCast, List.append_nil]
    rw [List.range_succ, List.flatMap_append, List.flatMap_singleton]

theorem records_history :
    Records (throttledSetup false) (fun _ : Fin mpiSize => Loop.init) loopPlan history where
  start r := by simp [history, partialRound, Loop.init]
  compute _ hat hact := history_compute hat hact
  collective _ hat hact _ hv := history_collective hat hact hv

theorem range_prefix_range {m k : ℕ} (h : m ≤ k) : List.range m <+: List.range k := by
  obtain ⟨d, rfl⟩ := Nat.exists_eq_add_of_le h
  rw [List.range_add]
  exact List.prefix_append _ _

omit [NeZero mpiSize] in
/-- The rounds up to `v`, and what there is of round `v`, are the first events of the loop. -/
theorem prefix_loopEvents {v : ℕ} (hv : v < mpiSize) {l : List Event}
    (hl : l <+: roundEvents r v) :
    (List.range v).flatMap (roundEvents r) ++ l <+: loopEvents r := by
  obtain ⟨rest, hrest⟩ := range_prefix_range (Nat.succ_le_of_lt hv)
  have hround : (List.range v).flatMap (roundEvents r) ++ roundEvents r v =
      (List.range (v + 1)).flatMap (roundEvents r) := by
    rw [List.range_succ, List.flatMap_append, List.flatMap_singleton]
  calc (List.range v).flatMap (roundEvents r) ++ l
      <+: (List.range v).flatMap (roundEvents r) ++ roundEvents r v :=
        (List.prefix_append_right_inj _).mpr hl
    _ = (List.range (v + 1)).flatMap (roundEvents r) := hround
    _ <+: (List.range mpiSize).flatMap (roundEvents r) := by
        rw [← hrest, List.flatMap_append]
        exact List.prefix_append _ _
    _ <+: loopEvents r := List.prefix_append _ _

/-- The events so far are the first events of the loop. -/
theorem history_prefix (h : LoopAt false r i s) : history r s <+: loopEvents r := by
  obtain ⟨pc, v⟩ := s
  obtain ⟨hv, hpc⟩ := h
  have hr := r.isLt
  simp only [rounds, Bool.false_eq_true, if_false] at hv hpc
  generalize i / 2 = m at hv hpc
  subst hv
  rw [history_natCast]
  cases pc with
  | loopTest =>
    rcases hpc.2.lt_or_eq with hlt | rfl
    · exact prefix_loopEvents hlt List.nil_prefix
    · exact (List.prefix_append_right_inj _).mpr List.nil_prefix
  | body => exact prefix_loopEvents hpc.2.2 (by simp [partialRound, roundEvents])
  | setup =>
    have hm : m = r.val := hpc.2
    exact prefix_loopEvents (by omega) (by simp [partialRound, roundEvents, hm])
  | barrier => exact prefix_loopEvents hpc.2 (List.prefix_refl _)
  | broadcast => exact prefix_loopEvents hpc.2 (List.prefix_refl _)
  | returned =>
    obtain ⟨-, rfl, -⟩ := hpc
    exact List.prefix_refl _
  | threw => cases hpc.2.2

omit [NeZero mpiSize] in
/-- A rank that has left the loop has been through all its rounds. -/
theorem history_returned (h : LoopAt false r i s) (hpc : s.pc = .returned) :
    history r s = loopEvents r := by
  obtain ⟨hv, hat⟩ := h
  rw [hpc] at hat
  rw [history, hv, hat.2.1, Int.toNat_natCast, hpc]
  rfl

end History

/-! ## The order of the setups -/

/-- The setups of all ranks, as they begin and end. -/
def setups (c : Config mpiSize Loop Payload Event) : List (ℕ × Event) :=
  c.trace.filterMap fun e =>
    if e.2 = .setupBegin ∨ e.2 = .setupEnd then some (e.1.val, e.2) else none

/-- One setup after the other, in the order of the ranks. -/
def setupOrder (mpiSize : ℕ) : List (ℕ × Event) :=
  (List.range mpiSize).flatMap fun r => [(r, .setupBegin), (r, .setupEnd)]

/-- The `j`-th event of the order. -/
def turn (j : ℕ) : ℕ × Event := (j / 2, if j % 2 = 0 then .setupBegin else .setupEnd)

theorem turn_begin (r : ℕ) : turn (2 * r) = (r, .setupBegin) := by
  simp [turn]

theorem turn_end (r : ℕ) : turn (2 * r + 1) = (r, .setupEnd) := by
  have hdiv : (2 * r + 1) / 2 = r := by omega
  simp [turn, hdiv]

theorem turn_injective : Function.Injective turn := by
  intro j k h
  obtain ⟨hrank, hevent⟩ := Prod.mk.inj h
  -- the rank fixes `j / 2`, and the event the parity
  split at hevent <;> split at hevent
  · omega
  · cases hevent
  · cases hevent
  · omega

theorem setupOrder_eq (m : ℕ) : setupOrder m = (List.range (2 * m)).map turn := by
  induction m with
  | zero => rfl
  | succ m ih =>
    have htwo : 2 * (m + 1) = 2 * m + 1 + 1 := by omega
    rw [setupOrder, List.range_succ, List.flatMap_append, ← setupOrder, ih, htwo,
      List.range_succ, List.range_succ]
    simp [turn_begin, turn_end]

theorem mem_map_turn {j k : ℕ} : turn j ∈ (List.range k).map turn ↔ j < k := by
  rw [List.mem_map_of_injective turn_injective, List.mem_range]

section Order

variable {c c' : Config mpiSize Loop Payload Event} {r q : Fin mpiSize} {i : ℕ} {s : Loop}

omit [NeZero mpiSize] in
theorem mem_setups_iff {e : Event} (he : e = .setupBegin ∨ e = .setupEnd) :
    (r.val, e) ∈ setups c ↔ e ∈ c.own r := by
  simp only [setups, Config.own, List.mem_filterMap]
  refine exists_congr fun a => and_congr_right fun _ => ?_
  constructor
  · intro h
    split at h
    · obtain ⟨hr, rfl⟩ := Prod.mk.inj (Option.some.inj h)
      rw [if_pos (Fin.ext hr)]
    · cases h
  · intro h
    split at h
    · next hr =>
      obtain rfl := Option.some.inj h
      rw [if_pos he, hr]
    · cases h

omit [NeZero mpiSize] in
/-- The completed rounds contain the setup of `r` exactly if its own round is among them. -/
theorem mem_rounds_iff {e : Event} (he : e = .setupBegin ∨ e = .setupEnd) {v : ℕ} :
    e ∈ (List.range v).flatMap (roundEvents r) ↔ r.val < v := by
  simp only [List.mem_flatMap, List.mem_range, roundEvents, List.mem_cons]
  constructor
  · rintro ⟨j, hj, rfl | hmem⟩
    · rcases he with he | he <;> cases he
    · split at hmem
      · omega
      · cases hmem
  · intro hr
    refine ⟨r.val, hr, .inr ?_⟩
    rw [if_pos rfl]
    rcases he with rfl | rfl <;> simp

omit [NeZero mpiSize] in
/-- A rank that has entered the barrier of its own round has ended its setup. -/
theorem setupEnd_mem_history (h : LoopAt false q i s)
    (hi : 2 * q.val < i ∨ i = 2 * q.val ∧ s.pc = .barrier) : .setupEnd ∈ history q s := by
  obtain ⟨pc, v⟩ := s
  obtain ⟨hv, hpc⟩ := h
  simp only at hv hpc hi
  by_cases hround : q.val < i / 2
  · rw [history, hv, Int.toNat_natCast]
    exact List.mem_append_left _ ((mem_rounds_iff (.inr rfl)).mpr hround)
  · -- still in its own round, at the barrier or behind it
    have hq : i / 2 = q.val := by omega
    have hpc' : pc = .barrier ∨ pc = .broadcast := by
      rcases hi with hi | ⟨-, rfl⟩
      · have hodd : ¬i % 2 = 0 := by omega
        cases pc with
        | barrier => exact .inl rfl
        | broadcast => exact .inr rfl
        | loopTest => exact absurd hpc.1 hodd
        | body => exact absurd hpc.1 hodd
        | setup => exact absurd hpc.1 hodd
        | returned => exact absurd hpc.1 hodd
        | threw => exact absurd hpc.1 hodd
      · exact .inl rfl
    rw [hv, hq, history_natCast]
    refine List.mem_append_right _ ?_
    rcases hpc' with rfl | rfl <;> simp [partialRound, roundEvents]

/-- If somebody has left the barrier of round `q`, then rank `q` has ended its setup. -/
theorem setupEnd_mem_own
    (hc : Reachable (throttledSetup false) (fun _ => Loop.init) c) (hleft : 2 * q.val < c.left r) :
    .setupEnd ∈ c.own q := by
  have honplan := follows_loopPlan.onPlan hc
  have hle := follows_loopPlan.left_le_len complete_loopPlan hc
  have hq := q.isLt
  -- the barrier was entered by `r`, and so by `q`
  have hentered : 2 * q.val < (c.issued q).length := by
    have hlt : 2 * q.val < (c.issued r).length := hleft.trans_le (honplan.coherent.left_le r)
    have hx := List.getElem?_eq_getElem hlt
    have hfit := honplan.fits r _ _ (show 2 * q.val < 2 * mpiSize by omega) hx
    have hsched : (loopPlan : Plan mpiSize Loop Payload).sched (2 * q.val) = .barrier := by
      show loopSched (2 * q.val) = _
      rw [loopSched, if_pos (by omega)]
    rw [hsched] at hfit
    have hbar : (c.issued r)[2 * q.val]? = some .barrier := by
      rw [hx, hfit.eq_barrier]
    have hsync := honplan.coherent.sync r _ hleft hbar q
    exact (List.getElem?_eq_some_iff.mp hsync).1
  rw [records_history.own_eq follows_loopPlan complete_loopPlan hc]
  refine setupEnd_mem_history (honplan.at_left q (hle q)) ?_
  -- `q` has left the barrier or waits in it
  rcases honplan.coherent.pending q with hout | ⟨hin, x, next, hact, -⟩
  · have hlen : c.left q = (c.issued q).length := hout
    exact .inl (by omega)
  · rcases throttledSetup_collective hact with ⟨hpc, -⟩ | ⟨hpc, -⟩
    · rcases Nat.lt_or_ge (2 * q.val) (c.left q) with hlt | hge
      · exact .inl hlt
      · exact .inr ⟨by omega, hpc⟩
    · have hodd : c.left q % 2 = 1 := by
        have hat := (honplan.at_left q (hle q)).2
        rw [hpc] at hat
        exact hat.1
      exact .inl (by omega)

/-- The computations that begin or end a setup. -/
theorem throttledSetup_setup {e : Event} (he : e = .setupBegin ∨ e = .setupEnd) {next : Loop}
    (h : LoopAt false r i s) (hact : throttledSetup false r s = .compute (some e) next) :
    i = 2 * r.val ∧ (e = .setupBegin ∧ s.pc = .body ∨ e = .setupEnd ∧ s.pc = .setup) := by
  obtain ⟨pc, v⟩ := s
  obtain ⟨hv, hpc⟩ := h
  simp only at hv hpc
  unfold throttledSetup at hact
  cases pc with
  | body =>
    simp only at hact
    split at hact
    · obtain ⟨hev, -⟩ := Act.compute.inj hact
      obtain rfl := Option.some.inj hev
      exact ⟨by omega, .inl ⟨rfl, rfl⟩⟩
    · cases hact
  | setup =>
    simp only [Bool.false_eq_true, if_false] at hact
    obtain ⟨hev, -⟩ := Act.compute.inj hact
    obtain rfl := Option.some.inj hev
    exact ⟨by omega, .inr ⟨rfl, rfl⟩⟩
  | loopTest =>
    simp only at hact
    split at hact
    all_goals
      obtain ⟨hev, -⟩ := Act.compute.inj hact
      obtain rfl := Option.some.inj hev
      rcases he with he | he <;> cases he
  | barrier => cases hact
  | broadcast => simp only at hact; split at hact <;> cases hact
  | returned => cases hact
  | threw => cases hact

/-- A step leaves the setups as they are, unless it begins or ends one. -/
theorem setups_stepBy (hstep : StepBy (throttledSetup false) r c c') :
    setups c' = setups c ∨ ∃ e next, (e = .setupBegin ∨ e = .setupEnd) ∧
      throttledSetup false r (c.loc r) = .compute (some e) next ∧
      setups c' = setups c ++ [(r.val, e)] := by
  cases hstep with
  | enter => exact .inl rfl
  | leave => exact .inl rfl
  | @compute event next hout hact =>
    cases event with
    | none => exact .inl (by simp [setups])
    | some e =>
      by_cases he : e = .setupBegin ∨ e = .setupEnd
      · exact .inr ⟨e, next, he, hact, by simp [setups, he]⟩
      · exact .inl (by simp [setups, he])

/-- The setup that begins or ends next is the next one in the order. -/
theorem eq_turn (hc : Reachable (throttledSetup false) (fun _ => Loop.init) c) {k : ℕ}
    (hset : setups c = (List.range k).map turn) {e : Event} {next : Loop}
    (he : e = .setupBegin ∨ e = .setupEnd)
    (hact : throttledSetup false r (c.loc r) = .compute (some e) next) :
    k < 2 * mpiSize ∧ turn k = (r.val, e) := by
  have honplan := follows_loopPlan.onPlan hc
  have hle := follows_loopPlan.left_le_len complete_loopPlan hc r
  have hat : LoopAt false r (c.left r) (c.loc r) := honplan.at_left r hle
  have hown := records_history.own_eq follows_loopPlan complete_loopPlan hc r
  have hr := r.isLt
  obtain ⟨hleft, hcase⟩ := throttledSetup_setup he hat hact
  have hhist : c.own r = (List.range r.val).flatMap (roundEvents r) ++
      partialRound r r.val (c.loc r).pc := by
    have hv := hat.1
    rw [hleft, Nat.mul_div_cancel_left _ (by omega)] at hv
    rw [hown, history, hv, Int.toNat_natCast]
  rcases hcase with ⟨rfl, hpc⟩ | ⟨rfl, hpc⟩
  · -- not yet begun, and the setup of the rank before has ended
    have hnot : ¬2 * r.val < k := by
      rw [← mem_map_turn, turn_begin, ← hset, mem_setups_iff he, hhist, hpc, List.mem_append,
        mem_rounds_iff he]
      simp [partialRound]
    have hprev : 2 * r.val ≤ k := by
      rcases Nat.eq_zero_or_pos r.val with hzero | hpos
      · omega
      · let q : Fin mpiSize := ⟨r.val - 1, by omega⟩
        have hq : q.val = r.val - 1 := rfl
        have hmem := setupEnd_mem_own (q := q) (r := r) hc (by omega)
        rw [← mem_setups_iff (.inr rfl), hset, ← turn_end, mem_map_turn] at hmem
        omega
    obtain rfl : k = 2 * r.val := by omega
    exact ⟨by omega, turn_begin r.val⟩
  · -- begun, and not yet ended
    have hbegin : 2 * r.val < k := by
      rw [← mem_map_turn, turn_begin, ← hset, mem_setups_iff (.inl rfl), hhist, hpc]
      simp [partialRound]
    have hnot : ¬2 * r.val + 1 < k := by
      rw [← mem_map_turn, turn_end, ← hset, mem_setups_iff he, hhist, hpc, List.mem_append,
        mem_rounds_iff he]
      simp [partialRound]
    obtain rfl : k = 2 * r.val + 1 := by omega
    exact ⟨by omega, turn_end r.val⟩

theorem exists_setups_eq (hc : Reachable (throttledSetup false) (fun _ => Loop.init) c) :
    ∃ k ≤ 2 * mpiSize, setups c = (List.range k).map turn := by
  induction hc with
  | refl => exact ⟨0, Nat.zero_le _, rfl⟩
  | @tail c c' hc hstep ih =>
    obtain ⟨k, hk, hset⟩ := ih
    obtain ⟨r, hstep⟩ := hstep
    -- the events so far are the first `k` of the order; a new one can only be the next
    rcases setups_stepBy hstep with hsame | ⟨e, next, he, hact, happ⟩
    · exact ⟨k, hk, hsame.trans hset⟩
    · obtain ⟨hlt, hturn⟩ := eq_turn hc hset he hact
      refine ⟨k + 1, hlt, ?_⟩
      rw [happ, hset, List.range_succ, List.map_append, List.map_singleton, hturn]

end Order

/-- In every interleaving of the ranks executing `throttledSetup` with setups that return: the
setups begin and end one after the other in the order of the ranks; every rank goes through the
rounds `0, 1, 2, …` and runs its setup in its own one; and a run ends, after finitely many steps,
only when every setup has been run and every rank has left the loop after `mpiSize` rounds. -/
theorem throttledSetup_totalOrder (mpiSize : ℕ) [NeZero mpiSize] :
    (∀ c, Reachable (throttledSetup false) (fun _ : Fin mpiSize => Loop.init) c →
      setups c <+: setupOrder mpiSize ∧ (∀ r, c.own r <+: loopEvents r) ∧
      (Stuck (throttledSetup false) c → setups c = setupOrder mpiSize ∧
        ∀ r, c.own r = loopEvents r ∧ (c.loc r).pc = .returned)) ∧
    ∃ μ : Config mpiSize Loop Payload Event → ℕ, ∀ c c',
      Reachable (throttledSetup false) (fun _ => Loop.init) c →
        Step (throttledSetup false) c c' → μ c' < μ c := by
  refine ⟨fun c hc => ?_, follows_loopPlan.terminates complete_loopPlan⟩
  have honplan := follows_loopPlan.onPlan hc
  have hle := follows_loopPlan.left_le_len complete_loopPlan hc
  have hown := records_history.own_eq follows_loopPlan complete_loopPlan hc
  obtain ⟨k, hk, hset⟩ := exists_setups_eq hc
  refine ⟨?_, fun r => ?_, fun hstuck => ?_⟩
  · rw [hset, setupOrder_eq]
    exact (range_prefix_range hk).map turn
  · rw [hown]
    exact history_prefix (honplan.at_left r (hle r))
  · have hend : ∀ r, (c.loc r).pc = .returned := by
      intro r
      obtain ⟨-, -, hhalt⟩ := follows_loopPlan.halted_of_stuck complete_loopPlan hc hstuck r
      refine (throttledSetup_halt hhalt).resolve_right fun hthrew => ?_
      have hat := (honplan.at_left r (hle r)).2
      rw [hthrew] at hat
      cases hat.2.2
    have hall : ∀ r, c.own r = loopEvents r := fun r =>
      (hown r).trans (history_returned (honplan.at_left r (hle r)) (hend r))
    refine ⟨?_, fun r => ⟨hall r, hend r⟩⟩
    -- the last rank has ended its setup, so the order is complete
    have hlast : 2 * (mpiSize - 1) + 1 < k := by
      have hpos := Nat.pos_of_neZero mpiSize
      let q : Fin mpiSize := ⟨mpiSize - 1, by omega⟩
      have hmem : .setupEnd ∈ c.own q := by
        rw [hall, loopEvents, List.mem_append, mem_rounds_iff (.inr rfl)]
        exact .inl q.isLt
      rwa [← mem_setups_iff (.inr rfl), hset, ← turn_end, mem_map_turn] at hmem
    have hk' : k = 2 * mpiSize := by omega
    rw [hset, hk', setupOrder_eq]

/-- Three ranks. -/
theorem throttledSetup_totalOrder_three :
    (∀ c, Reachable (throttledSetup false) (fun _ : Fin 3 => Loop.init) c →
      setups c <+: [(0, .setupBegin), (0, .setupEnd), (1, .setupBegin), (1, .setupEnd),
        (2, .setupBegin), (2, .setupEnd)]) ∧
    ∃ μ : Config 3 Loop Payload Event → ℕ, ∀ c c',
      Reachable (throttledSetup false) (fun _ => Loop.init) c →
        Step (throttledSetup false) c c' → μ c' < μ c := by
  obtain ⟨horder, hfinite⟩ := throttledSetup_totalOrder 3
  exact ⟨fun c hc => (horder c hc).1, hfinite⟩

end TestBench
