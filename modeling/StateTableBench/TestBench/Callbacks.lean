import StateTableBench.Spmd.Work
import StateTableBench.TestBench.LeftAlone

/-!
# The work of the callbacks

The run of a bench in which every rank gets to the test cycle and every `setup()` returns, with
operations filled in for `setup()` and `run()`.

The rounds of `throttledSetup` order the setups: while a rank is in its `setup()`, all ranks below
it are done with theirs, and no rank has begun its `run()` (`InSetup.ops_eq`,
`InSetup.ops_isPrefix`).
-/

open Spmd

namespace TestBench

variable {mpiSize : ℕ} {ω : Type}

/-- The rank has returned from its own `setup()`, in the loop of `throttledSetup`. -/
def Loop.setupReturned (r : Fin mpiSize) (loop : Loop) : Prop :=
  r.val < loop.nodeThatCanStartWarmup ∨ loop.nodeThatCanStartWarmup = r.val ∧
    (loop.pc = .barrier ∨ loop.pc = .broadcast ∨ loop.pc = .returned)

instance (r : Fin mpiSize) (loop : Loop) : Decidable (loop.setupReturned r) :=
  inferInstanceAs (Decidable (_ ∨ _))

/-- The rank has returned from its own `setup()`. -/
def Cycle.setupReturned (r : Fin mpiSize) : Cycle → Prop
  | .setup loop => loop.setupReturned r
  | .roleBegin => False
  | .initBarrier => False
  | .roleEnd => False
  | .escaped => False
  | .gather => False
  | _ => True

/-- The operations that a rank does in its callbacks. -/
def callbackWork (setupOps runOps : List ω) : Cycle → List ω
  | .setup loop => if loop.pc = .setup then setupOps else []
  | .run => runOps
  | _ => []

/-- The operations of a rank on the way to a position. -/
def callbackHist (r : Fin mpiSize) (setupOps runOps : List ω) : Cycle → List ω
  | .setup loop => if loop.setupReturned r then setupOps else []
  | .setupDone => setupOps
  | .run => setupOps
  | .runDone => setupOps ++ runOps
  | .shutdown => setupOps ++ runOps
  | .postProcess => setupOps ++ runOps
  | .postDone => setupOps ++ runOps
  | .finished => setupOps ++ runOps
  | _ => []

variable [NeZero mpiSize]

section History

variable {node : Callbacks} {r : Fin mpiSize} {setupOps runOps : List ω} {i : ℕ} {s : Cycle}

/-- In the loop, the operations are done in the round of the rank. -/
theorem callbackHist_loop {loop next : Loop} {event : Option Event}
    (hat : LoopAt false r i loop) (hact : throttledSetup false r loop = .compute event next) :
    callbackHist r setupOps runOps (.setup next) =
      callbackHist r setupOps runOps (.setup loop) ++
        callbackWork setupOps runOps (.setup loop) := by
  obtain ⟨pc, v⟩ := loop
  obtain ⟨hv, hpc⟩ := hat
  simp only at hv hpc
  unfold throttledSetup at hact
  cases pc with
  | loopTest =>
    simp only at hact
    split at hact
    · obtain ⟨-, rfl⟩ := Act.compute.inj hact
      simp [callbackHist, callbackWork, Loop.setupReturned]
    · -- the loop is left after the round of every rank
      next hge =>
      obtain ⟨-, rfl⟩ := Act.compute.inj hact
      have hlt : (r.val : ℤ) < v := by have hr := r.isLt; omega
      simp [callbackHist, callbackWork, Loop.setupReturned, hlt]
  | body =>
    simp only at hact
    split at hact
    · obtain ⟨-, rfl⟩ := Act.compute.inj hact
      simp [callbackHist, callbackWork, Loop.setupReturned]
    · next hne =>
      obtain ⟨-, rfl⟩ := Act.compute.inj hact
      simp [callbackHist, callbackWork, Loop.setupReturned, hne]
  | setup =>
    simp only [Bool.false_eq_true, if_false] at hact
    obtain ⟨-, rfl⟩ := Act.compute.inj hact
    -- only in its own round a rank gets to its `setup()`
    have hr : v = r.val := by omega
    simp [callbackHist, callbackWork, Loop.setupReturned, hr]
  | barrier => cases hact
  | broadcast => simp only at hact; split at hact <;> cases hact
  | returned => cases hact
  | threw => cases hact

theorem callbackHist_compute (hat : CycleAt .cycle node r i s) (hsetup : node.setupThrows = false)
    {event : Option Event} {next : Cycle} (hact : runBench .cycle node r s = .compute event next) :
    callbackHist r setupOps runOps next =
      callbackHist r setupOps runOps s ++ callbackWork setupOps runOps s := by
  cases computes_of_runBench hact with
  | roleBegin => simp [callbackHist, callbackWork]
  | roleEnd => simp [callbackHist, callbackWork]
  | setup hloop =>
    obtain ⟨-, hat, -⟩ := hat
    rw [hsetup] at hat hloop
    exact callbackHist_loop hat hloop
  | @leaveLoop loop hhalt =>
    -- the loop is left after the last round
    obtain ⟨-, hat, -⟩ := hat
    rw [hsetup] at hat
    obtain ⟨hv, hpc⟩ := hat
    rcases throttledSetup_halt hhalt with hs | hs
    · rw [hs] at hpc
      have hlt : (r.val : ℤ) < loop.nodeThatCanStartWarmup := by
        rw [hv, hpc.2.1]
        exact_mod_cast r.isLt
      simp [callbackHist, callbackWork, Loop.setupReturned, hlt, hs]
    · rw [hs] at hpc
      cases hpc.2.2
  | run => simp [callbackHist, callbackWork]
  | shutdown => simp [callbackHist, callbackWork]
  | postProcess => simp [callbackHist, callbackWork]

theorem callbackHist_collective (hat : CycleAt .cycle node r i s)
    {x : Collective mpiSize Payload} {next : Payload → Cycle}
    (hact : (runBench .cycle node r s).collective? = some (x, next))
    {v : Payload} (hat' : CycleAt .cycle node r (i + 1) (next v)) :
    callbackHist r setupOps runOps (next v) =
      callbackHist r setupOps runOps s ++ callbackWork setupOps runOps s := by
  cases enters_of_runBench hact with
  | initBarrier => simp [callbackHist, callbackWork]
  | gather => simp [callbackHist, callbackWork, Loop.setupReturned, Loop.init]
  | @setup loop x next' hloop =>
    obtain ⟨htwo, ⟨hv, hpc⟩, -⟩ := hat
    obtain ⟨-, ⟨hv', -⟩, -⟩ := hat'
    rcases throttledSetup_collective hloop with ⟨hs, -, hnext'⟩ | ⟨hs, _, -, -, hnext'⟩
    · simp [callbackHist, callbackWork, Loop.setupReturned, hnext', hs]
    · -- the value of the next round is one more
      rw [hs] at hpc
      have hpc' : (next' v).pc = .loopTest := by rw [hnext']
      have hround : (next' v).nodeThatCanStartWarmup = loop.nodeThatCanStartWarmup + 1 := by
        omega
      have hiff : (next' v).setupReturned r ↔ loop.setupReturned r := by
        unfold Loop.setupReturned
        rw [hround, hpc', hs]
        simp only [reduceCtorEq, or_false, or_true, and_true, and_false]
        omega
      simp [callbackHist, callbackWork, hs, hiff]
  | setupDone => simp [callbackHist, callbackWork]
  | runDone => simp [callbackHist, callbackWork]
  | postDone => simp [callbackHist, callbackWork]

/-- A rank that has entered the barrier of its own round has returned from its `setup()`. -/
theorem setupReturned_of_entered (hat : CycleAt .cycle node r i s)
    (hsetup : node.setupThrows = false)
    (hi : 2 * r.val + 2 < i ∨ i = 2 * r.val + 2 ∧
      ∃ x next, (runBench .cycle node r s).collective? = some (x, next)) :
    s.setupReturned r := by
  cases s with
  | setup loop =>
    obtain ⟨htwo, ⟨hv, hpc⟩, -⟩ := hat
    -- the round of the rank is over, or it is the present one
    by_cases hround : r.val < (i - 2) / 2
    · exact .inl (by omega)
    · refine .inr ⟨by omega, ?_⟩
      rcases hi with hlt | ⟨heq, x, next, hact⟩
      · -- in the second half of the round
        have hodd : (i - 2) % 2 = 1 := by omega
        cases hloop : loop.pc <;> simp_all
      · cases enters_of_runBench hact with
        | setup hloop =>
          rcases throttledSetup_collective hloop with ⟨hs, -⟩ | ⟨hs, -⟩
          · exact .inl hs
          · exact .inr (.inl hs)
  | roleBegin =>
    have hzero : i = 0 := hat
    omega
  | initBarrier => exact absurd hat.1 (by omega)
  | roleEnd => exact absurd hat.1 (by omega)
  | gather => exact absurd hat.1 (by omega)
  | escaped =>
    rcases hat with ⟨-, hreach⟩ | ⟨-, hreach⟩
    · cases hreach
    · cases hreach
  | _ => trivial

omit [NeZero mpiSize] in
theorem setupOps_prefix_of_setupReturned (h : s.setupReturned r) :
    setupOps <+: callbackHist r setupOps runOps s := by
  cases s with
  | setup loop =>
    have hloop : loop.setupReturned r := h
    simp [callbackHist, hloop]
  | roleBegin => cases h
  | initBarrier => cases h
  | roleEnd => cases h
  | escaped => cases h
  | gather => cases h
  | _ => simp [callbackHist]

omit [NeZero mpiSize] in
/-- Up to the barrier before `run()` there are no other operations. -/
theorem prefix_setupOps (hat : CycleAt .cycle node r i s) (hsetup : node.setupThrows = false)
    (hi : i ≤ 2 * mpiSize + 2) :
    callbackHist r setupOps runOps s ++ callbackWork setupOps runOps s <+: setupOps := by
  have hrounds : rounds node.setupThrows r = mpiSize := by simp [rounds, hsetup]
  cases s with
  | setup loop =>
    obtain ⟨htwo, ⟨hv, hpc⟩, -⟩ := hat
    by_cases hs : loop.pc = .setup
    · -- in its own `setup()` the rank has not returned from it
      rw [hs] at hpc
      have hnot : ¬loop.setupReturned r := by
        unfold Loop.setupReturned
        rw [hs]
        simp only [reduceCtorEq, or_self, and_false, or_false]
        omega
      simp [callbackHist, callbackWork, hs, hnot]
    · simp only [callbackHist, callbackWork, if_neg hs, List.append_nil]
      -- before the `setup()` nothing is done, and after it everything
      split
      · exact List.prefix_rfl
      · exact List.nil_prefix
  | run => exact absurd hat.1 (by omega)
  | runDone => exact absurd hat.1 (by omega)
  | shutdown => exact absurd hat.1 (by omega)
  | postProcess => exact absurd hat.1 (by omega)
  | postDone => exact absurd hat.1 (by omega)
  | finished => exact absurd hat.1 (by omega)
  | _ => simp [callbackHist, callbackWork]

end History

/-! ## Runs -/

section Runs

variable (node : Fin mpiSize → Callbacks) (setupOps runOps : Fin mpiSize → List ω)

/-- The configurations that a bench may reach, if every rank gets to the test cycle. -/
def ReachesWithCallbacks (c : Config mpiSize (Cycle × List ω) Payload (Event ⊕ ω)) : Prop :=
  Reachable
    (working (benchProg (fun _ => .cycle) node) fun r => callbackWork (setupOps r) (runOps r))
    (workingInit (fun _ => .roleBegin) fun r => callbackWork (setupOps r) (runOps r)) c

variable {node setupOps runOps}

section Plan

variable {c : Config mpiSize Cycle Payload Event} (hsetup : ∀ r, (node r).setupThrows = false)
include hsetup

omit [NeZero mpiSize] in
theorem rounds_eq (r : Fin mpiSize) : rounds (node r).setupThrows r = mpiSize := by
  simp [rounds, hsetup r]

theorem follows_of_setups_return :
    Follows (benchProg (fun _ => .cycle) node) (fun _ => .roleBegin)
      (cyclePlan (fun _ => .cycle) node (2 * mpiSize + 5)) :=
  follows_cyclePlan (fun r => by simp [collectives, rounds_eq hsetup r])
    fun r => .inr (rounds_eq hsetup r)

theorem onPlan_of_setups_return
    (hc : Reachable (benchProg (fun _ => .cycle) node) (fun _ => .roleBegin) c) :
    OnPlan (benchProg (fun _ => .cycle) node)
      (cyclePlan (fun _ => .cycle) node (2 * mpiSize + 5)) c :=
  (follows_of_setups_return hsetup).onPlan hc

theorem cycleAt_of_setups_return
    (hc : Reachable (benchProg (fun _ => .cycle) node) (fun _ => .roleBegin) c) (r : Fin mpiSize) :
    CycleAt .cycle (node r) r (c.left r) (c.loc r) := by
  have hcomplete : Complete (benchProg (fun _ => .cycle) node)
      (cyclePlan (fun _ => .cycle) node (2 * mpiSize + 5)) :=
    complete_cyclePlan fun r => by simp [collectives, rounds_eq hsetup r]
  have hle := (follows_of_setups_return hsetup).left_le_len hcomplete hc r
  exact (onPlan_of_setups_return hsetup hc).at_left r hle

/-- A barrier of the plan that some rank has left was entered by all ranks. -/
theorem entered_of_setups_return
    (hc : Reachable (benchProg (fun _ => .cycle) node) (fun _ => .roleBegin) c)
    {p : Fin mpiSize} {i : ℕ} (hi : i < 2 * mpiSize + 5)
    (hsched : (cycleSched i : Collective mpiSize Payload) = .barrier) (hp : i < c.left p)
    (q : Fin mpiSize) : i < (c.issued q).length := by
  have honplan := onPlan_of_setups_return hsetup hc
  have hlt : i < (c.issued p).length := hp.trans_le (honplan.coherent.left_le p)
  have hx := List.getElem?_eq_getElem hlt
  have hfit := honplan.fits p i _ hi hx
  have hplan : (cyclePlan (fun _ => .cycle) node (2 * mpiSize + 5)).sched i =
      (Collective.barrier : Collective mpiSize Payload) := hsched
  rw [hplan] at hfit
  rw [hfit.eq_barrier] at hx
  exact (List.getElem?_eq_some_iff.mp (honplan.coherent.sync p i hp hx q)).1

end Plan

variable {c : Config mpiSize (Cycle × List ω) Payload (Event ⊕ ω)}

theorem isHistory_callbackHist (hsetup : ∀ r, (node r).setupThrows = false) :
    IsHistory (benchProg (fun _ => .cycle) node) (fun _ => .roleBegin)
      (fun r => callbackWork (setupOps r) (runOps r))
      (fun r => callbackHist r (setupOps r) (runOps r)) := by
  refine ⟨fun _ => rfl, ?_⟩
  intro r c c' hc hstep hissued
  have hat := cycleAt_of_setups_return hsetup hc r
  have hat' := cycleAt_of_setups_return hsetup (hc.step hstep) r
  cases hstep with
  | compute hout hact =>
    simp only [Function.update_self]
    exact callbackHist_compute hat (hsetup r) hact
  | enter => simp at hissued
  | leave hin hact hrel =>
    simp only [Function.update_self] at hat' ⊢
    exact callbackHist_collective hat hact hat'

theorem ReachesWithCallbacks.tracks (hc : ReachesWithCallbacks node setupOps runOps c)
    (hsetup : ∀ r, (node r).setupThrows = false) :
    Tracks (benchProg (fun _ => .cycle) node) (fun _ => .roleBegin)
      (fun r => callbackWork (setupOps r) (runOps r))
      (fun r => callbackHist r (setupOps r) (runOps r)) c :=
  Reachable.tracks (isHistory_callbackHist hsetup) hc

/-- Rank `r` is in its `setup()`. -/
def InSetup (c : Config mpiSize (Cycle × List ω) Payload (Event ⊕ ω)) (r : Fin mpiSize) : Prop :=
  ∃ loop, (c.loc r).1 = .setup loop ∧ loop.pc = .setup

section InSetup

variable {r : Fin mpiSize} (hc : ReachesWithCallbacks node setupOps runOps c)
  (hsetup : ∀ r, (node r).setupThrows = false) (hr : InSetup c r)
include hc hsetup hr

theorem InSetup.left_eq : c.left r = 2 * r.val + 2 := by
  obtain ⟨loop, hloc, hpc⟩ := hr
  have hat : CycleAt .cycle (node r) r (c.left r) (c.loc r).1 :=
    cycleAt_of_setups_return hsetup (hc.tracks hsetup).reachable r
  rw [hloc] at hat
  obtain ⟨htwo, ⟨-, hat⟩, -⟩ := hat
  rw [hpc] at hat
  -- two collectives before the loop, and two in each of the earlier rounds
  omega

/-- The ranks below have returned from their `setup()`. -/
theorem InSetup.setupReturned_of_lt {w : Fin mpiSize} (hw : w < r) :
    (c.loc w).1.setupReturned w := by
  have hreach := (hc.tracks hsetup).reachable
  have hleft := hr.left_eq hc hsetup
  have hlt : w.val < r.val := hw
  -- the barrier of the round of `w`, which `r` has left
  have hbarrier : (cycleSched (2 * w.val + 2) : Collective mpiSize Payload) = .barrier := by
    rw [cycleSched, if_neg (by omega), if_pos (by omega), loopSched, if_pos (by omega)]
  have hentered := entered_of_setups_return hsetup hreach (by omega) hbarrier
    (p := r) (show 2 * w.val + 2 < c.left r by omega) w
  refine setupReturned_of_entered (cycleAt_of_setups_return hsetup hreach w) (hsetup w) ?_
  -- `w` has left the barrier of its round or waits in it
  rcases hreach.coherent.pending w with hout | ⟨hin, x, next, hact, -⟩
  · have hlen : c.erase.left w = (c.erase.issued w).length := hout
    exact .inl (by omega)
  · rcases Nat.lt_or_ge (2 * w.val + 2) (c.erase.left w) with hgt | hle
    · exact .inl hgt
    · exact .inr ⟨by omega, x, next, hact⟩

/-- No rank has done anything but operations of its `setup()`. -/
theorem InSetup.ops_isPrefix (q : Fin mpiSize) : c.ops q <+: setupOps q := by
  have ht := hc.tracks hsetup
  have hleft := hr.left_eq hc hsetup
  have hq : c.left q ≤ 2 * mpiSize + 2 := by
    by_contra hgt
    -- a rank that is further has left the barrier before `run()`
    have hbarrier : (cycleSched (2 * mpiSize + 2) : Collective mpiSize Payload) = .barrier := by
      rw [cycleSched, if_neg (by omega), if_neg (by omega)]
    have hentered := entered_of_setups_return hsetup ht.reachable (by omega) hbarrier
      (p := q) (show 2 * mpiSize + 2 < c.left q by omega) r
    -- but `r` is still in the loop
    have hr' := r.isLt
    rcases ht.reachable.coherent.pending r with hout | ⟨hin, -⟩
    · have hlen : c.left r = (c.erase.issued r).length := hout
      omega
    · have hin' : c.left r + 1 = (c.erase.issued r).length := hin
      omega
  exact (ht.ops_isPrefix q).trans
    (prefix_setupOps (cycleAt_of_setups_return hsetup ht.reachable q) (hsetup q) hq)

/-- The ranks below have done all operations of their `setup()`. -/
theorem InSetup.ops_eq {w : Fin mpiSize} (hw : w < r) : c.ops w = setupOps w := by
  have hdone := (hc.tracks hsetup).hist_isPrefix w
  have hreturned := hr.setupReturned_of_lt hc hsetup hw
  -- all operations of the `setup()` are done, and no others
  have hsub : setupOps w <+: c.ops w := (setupOps_prefix_of_setupReturned hreturned).trans hdone
  exact (hr.ops_isPrefix hc hsetup w).eq_of_length_le hsub.length_le

end InSetup

end Runs

end TestBench
