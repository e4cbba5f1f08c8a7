import StateTableBench.Spmd.Agreement
import StateTableBench.TestBench.ThrottledSetup

/-!
# The test cycle of a bench

The run of a bench from the init barrier to the last barrier of `nodeTestCycle`
(`TestBench.java`). Each rank runs the code of its role around the init barrier and then the test
cycle: a barrier, the throttled setup, a barrier, `run()`, a barrier, `shutdown()` and
`postProcessResults()`, a barrier. Exceptions of the callbacks are caught, since a rank that
misses a barrier blocks the whole test.

A `setup()` that throws is caught as well, but only outside the loop of `throttledSetup`: its rank
leaves the loop early and misses the collectives of the remaining rounds. `CycleAt` is the plan of
a rank, whichever of its callbacks throw.
-/

open Spmd

namespace TestBench

/-- How far the code of a role gets. -/
inductive Reach
  /-- It throws before the init barrier. -/
  | beforeInit
  /-- It throws between the init barrier and `nodeTestCycle`. -/
  | beforeCycle
  /-- It gets to `nodeTestCycle`. -/
  | cycle
deriving DecidableEq

/-- Which callbacks of a `TestNode` throw an exception. -/
structure Callbacks where
  setupThrows : Bool
  runThrows : Bool
  shutdownThrows : Bool
  postProcessThrows : Bool
deriving DecidableEq

/-- The local state of a rank: a position in `run` and `nodeTestCycle`. -/
inductive Cycle
  | roleBegin
  | initBarrier
  | roleEnd
  /-- An exception has left `run`. -/
  | escaped
  | gather
  | setup (loop : Loop)
  | setupDone
  | run
  | runDone
  | shutdown
  | postProcess
  | postDone
  | finished
deriving DecidableEq

variable {mpiSize : ℕ} [NeZero mpiSize]

/-- A callback in a `try` block whose handler only logs. -/
def catching (throws : Bool) (next : Cycle) : Act mpiSize Cycle Payload Event :=
  .compute (if throws then some .caught else none) next

/-- The run of a bench on rank `mpiRank`. -/
def runBench (reach : Reach) (node : Callbacks) (mpiRank : Fin mpiSize) :
    Cycle → Act mpiSize Cycle Payload Event
  | .roleBegin => .compute none (if reach = .beforeInit then .escaped else .initBarrier)
  | .initBarrier => .barrier .roleEnd
  | .roleEnd => .compute none (if reach = .beforeCycle then .escaped else .gather)
  | .gather => .barrier (.setup Loop.init)
  | .setup loop =>
    -- an exception of `setup()` is caught here, outside the loop
    (throttledSetup node.setupThrows mpiRank loop).within Cycle.setup
      (catching (decide (loop.pc = .threw)) .setupDone)
  | .setupDone => .barrier .run
  | .run => catching node.runThrows .runDone
  | .runDone => .barrier .shutdown
  | .shutdown => catching node.shutdownThrows .postProcess
  | .postProcess => catching node.postProcessThrows .postDone
  | .postDone => .barrier .finished
  | .finished => .halt
  | .escaped => .halt

/-! ## The plan of the test cycle -/

/-- The collectives of a run in which every rank goes through all rounds. -/
def cycleSched (i : ℕ) : Collective mpiSize Payload :=
  if i < 2 then .barrier
  else if i < 2 * mpiSize + 2 then loopSched (i - 2)
  else .barrier

/-- Where a rank may be after it has left `i` collectives. -/
def CycleAt (reach : Reach) (node : Callbacks) (r : Fin mpiSize) (i : ℕ) : Cycle → Prop
  | .roleBegin => i = 0
  | .initBarrier => i = 0 ∧ reach ≠ .beforeInit
  | .roleEnd => i = 1 ∧ reach ≠ .beforeInit
  | .escaped => i = 0 ∧ reach = .beforeInit ∨ i = 1 ∧ reach = .beforeCycle
  | .gather => i = 1 ∧ reach = .cycle
  | .setup loop => 2 ≤ i ∧ LoopAt node.setupThrows r (i - 2) loop ∧ reach = .cycle
  | .setupDone => i = 2 * rounds node.setupThrows r + 2 ∧ reach = .cycle
  | .run => i = 2 * rounds node.setupThrows r + 3 ∧ reach = .cycle
  | .runDone => i = 2 * rounds node.setupThrows r + 3 ∧ reach = .cycle
  | .shutdown => i = 2 * rounds node.setupThrows r + 4 ∧ reach = .cycle
  | .postProcess => i = 2 * rounds node.setupThrows r + 4 ∧ reach = .cycle
  | .postDone => i = 2 * rounds node.setupThrows r + 4 ∧ reach = .cycle
  | .finished => i = 2 * rounds node.setupThrows r + 5 ∧ reach = .cycle

/-- A bound on the computations until the next collective or the end. -/
def Cycle.work : Cycle → ℕ
  | .roleBegin => 1
  | .roleEnd => 1
  | .setup loop => loop.work + 1
  | .run => 1
  | .shutdown => 2
  | .postProcess => 1
  | _ => 0

theorem Cycle.work_le (s : Cycle) : s.work ≤ 4 := by
  cases s with
  | setup loop =>
    have hloop := loop.work_le
    show loop.work + 1 ≤ 4
    omega
  | _ => simp [work]

/-- The number of collectives that a rank issues. -/
def collectives (reach : Reach) (node : Callbacks) (r : Fin mpiSize) : ℕ :=
  match reach with
  | .beforeInit => 0
  | .beforeCycle => 1
  | .cycle => 2 * rounds node.setupThrows r + 5

section Step

variable {reach : Reach} {node : Callbacks} {r : Fin mpiSize} {i : ℕ} {s : Cycle}

/-! ### The moves of a rank -/

/-- Where the computations of a rank lead. -/
inductive Computes (reach : Reach) (node : Callbacks) (r : Fin mpiSize) : Cycle → Cycle → Prop
  | roleBegin :
      Computes reach node r .roleBegin (if reach = .beforeInit then .escaped else .initBarrier)
  | roleEnd : Computes reach node r .roleEnd (if reach = .beforeCycle then .escaped else .gather)
  | setup {loop loop' : Loop} {event : Option Event}
      (hloop : throttledSetup node.setupThrows r loop = .compute event loop') :
      Computes reach node r (.setup loop) (.setup loop')
  | leaveLoop {loop : Loop} (hhalt : throttledSetup node.setupThrows r loop = .halt) :
      Computes reach node r (.setup loop) .setupDone
  | run : Computes reach node r .run .runDone
  | shutdown : Computes reach node r .shutdown .postProcess
  | postProcess : Computes reach node r .postProcess .postDone

theorem computes_of_runBench {event : Option Event} {next : Cycle}
    (hact : runBench reach node r s = .compute event next) : Computes reach node r s next := by
  cases s with
  | roleBegin =>
    obtain ⟨-, rfl⟩ := Act.compute.inj hact
    exact .roleBegin
  | roleEnd =>
    obtain ⟨-, rfl⟩ := Act.compute.inj hact
    exact .roleEnd
  | setup loop =>
    rcases Act.within_compute hact with ⟨loop', hloop, rfl⟩ | ⟨hhalt, hdone⟩
    · exact .setup hloop
    · obtain ⟨-, rfl⟩ := Act.compute.inj hdone
      exact .leaveLoop hhalt
  | run =>
    obtain ⟨-, rfl⟩ := Act.compute.inj hact
    exact .run
  | shutdown =>
    obtain ⟨-, rfl⟩ := Act.compute.inj hact
    exact .shutdown
  | postProcess =>
    obtain ⟨-, rfl⟩ := Act.compute.inj hact
    exact .postProcess
  | initBarrier => cases hact
  | escaped => cases hact
  | gather => cases hact
  | setupDone => cases hact
  | runDone => cases hact
  | postDone => cases hact
  | finished => cases hact

/-- Which collectives a rank enters, and where they lead. -/
inductive Enters (reach : Reach) (node : Callbacks) (r : Fin mpiSize) :
    Cycle → Collective mpiSize Payload → (Payload → Cycle) → Prop
  | initBarrier : Enters reach node r .initBarrier .barrier fun _ => .roleEnd
  | gather : Enters reach node r .gather .barrier fun _ => .setup Loop.init
  | setup {loop : Loop} {x : Collective mpiSize Payload} {next : Payload → Loop}
      (hloop : (throttledSetup node.setupThrows r loop).collective? = some (x, next)) :
      Enters reach node r (.setup loop) x fun v => .setup (next v)
  | setupDone : Enters reach node r .setupDone .barrier fun _ => .run
  | runDone : Enters reach node r .runDone .barrier fun _ => .shutdown
  | postDone : Enters reach node r .postDone .barrier fun _ => .finished

theorem enters_of_runBench {x : Collective mpiSize Payload} {next : Payload → Cycle}
    (hact : (runBench reach node r s).collective? = some (x, next)) :
    Enters reach node r s x next := by
  cases s with
  | initBarrier =>
    obtain ⟨rfl, rfl⟩ := Prod.mk.inj (Option.some.inj hact)
    exact .initBarrier
  | gather =>
    obtain ⟨rfl, rfl⟩ := Prod.mk.inj (Option.some.inj hact)
    exact .gather
  | setup loop =>
    rcases Act.within_collective hact with ⟨next', hloop, hnext⟩ | ⟨-, hdone⟩
    · obtain rfl : next = fun v => .setup (next' v) := funext hnext
      exact .setup hloop
    · cases hdone
  | setupDone =>
    obtain ⟨rfl, rfl⟩ := Prod.mk.inj (Option.some.inj hact)
    exact .setupDone
  | runDone =>
    obtain ⟨rfl, rfl⟩ := Prod.mk.inj (Option.some.inj hact)
    exact .runDone
  | postDone =>
    obtain ⟨rfl, rfl⟩ := Prod.mk.inj (Option.some.inj hact)
    exact .postDone
  | roleBegin => cases hact
  | roleEnd => cases hact
  | escaped => cases hact
  | run => cases hact
  | shutdown => cases hact
  | postProcess => cases hact
  | finished => cases hact

/-! ### The moves keep to the plan -/

theorem CycleAt.compute (h : CycleAt reach node r i s) {event : Option Event} {next : Cycle}
    (hact : runBench reach node r s = .compute event next) :
    CycleAt reach node r i next ∧ next.work < s.work := by
  cases computes_of_runBench hact with
  | roleBegin =>
    split
    · next hreach => exact ⟨.inl ⟨h, hreach⟩, by simp [Cycle.work]⟩
    · next hreach => exact ⟨⟨h, hreach⟩, by simp [Cycle.work]⟩
  | roleEnd =>
    split
    · next hreach => exact ⟨.inr ⟨h.1, hreach⟩, by simp [Cycle.work]⟩
    · next hreach =>
      have hcycle : reach = .cycle := by
        cases reach with
        | beforeInit => exact absurd rfl h.2
        | beforeCycle => exact absurd rfl hreach
        | cycle => rfl
      exact ⟨⟨h.1, hcycle⟩, by simp [Cycle.work]⟩
  | setup hloop =>
    obtain ⟨htwo, hat, hreach⟩ := h
    obtain ⟨hat', hwork⟩ := hat.compute hloop
    exact ⟨⟨htwo, hat', hreach⟩, by simpa [Cycle.work] using hwork⟩
  | leaveLoop hhalt =>
    -- the loop is left, by the last round or by an exception
    obtain ⟨htwo, hat, hreach⟩ := h
    have hend := hat.halt hhalt
    exact ⟨⟨by omega, hreach⟩, by simp [Cycle.work]⟩
  | run => exact ⟨h, by simp [Cycle.work]⟩
  | shutdown => exact ⟨h, by simp [Cycle.work]⟩
  | postProcess => exact ⟨h, by simp [Cycle.work]⟩

omit [NeZero mpiSize] in
theorem two_mul_rounds_le (throws : Bool) (r : Fin mpiSize) :
    2 * rounds throws r ≤ 2 * mpiSize :=
  Nat.mul_le_mul_left 2 (rounds_le throws r)

/-- A barrier fits every position of the plan that is not a broadcast. -/
theorem fits_cycleSched (h : i < 2 ∨ 2 * mpiSize + 2 ≤ i ∨ i % 2 = 0) :
    (Collective.barrier : Collective mpiSize Payload).Fits r (cycleSched i) := by
  unfold cycleSched loopSched
  split
  · trivial
  · split
    · rw [if_pos (by omega)]
      trivial
    · trivial

/-- Every collective leads on in the plan, and it fits the plan unless the rank has left the loop
early and is past the round in which it did. -/
theorem CycleAt.collective (h : CycleAt reach node r i s) {x : Collective mpiSize Payload}
    {next : Payload → Cycle}
    (hi : i < 2 * rounds node.setupThrows r + 3 ∨ rounds node.setupThrows r = mpiSize)
    (hact : (runBench reach node r s).collective? = some (x, next)) :
    x.Fits r (cycleSched i) ∧
      ∀ v, (cycleSched i : Collective mpiSize Payload).Delivers v →
        CycleAt reach node r (i + 1) (next v) := by
  have hrounds := two_mul_rounds_le node.setupThrows r
  cases enters_of_runBench hact with
  | initBarrier =>
    have hi0 : i = 0 := h.1
    exact ⟨fits_cycleSched (by omega), fun _ _ => ⟨by omega, h.2⟩⟩
  | gather =>
    obtain ⟨rfl, hreach⟩ := h
    exact ⟨fits_cycleSched (by omega), fun _ _ => ⟨le_rfl, LoopAt.init, hreach⟩⟩
  | setup hloop =>
    obtain ⟨htwo, hat, hreach⟩ := h
    obtain ⟨hfit, hafter⟩ := hat.collective hloop
    have hlt := hat.lt_of_collective hloop
    -- inside the loop the plan is the one of the loop
    have hsched : (cycleSched i : Collective mpiSize Payload) = loopSched (i - 2) := by
      rw [cycleSched, if_neg (by omega), if_pos (by omega)]
    rw [hsched]
    refine ⟨hfit, fun v hv => ?_⟩
    have hsub : i + 1 - 2 = i - 2 + 1 := by omega
    exact ⟨by omega, by rw [hsub]; exact hafter v hv, hreach⟩
  | setupDone =>
    have hi2 : i = 2 * rounds node.setupThrows r + 2 := h.1
    exact ⟨fits_cycleSched (by omega), fun _ _ => ⟨by omega, h.2⟩⟩
  | runDone =>
    -- at an odd position: only a rank that went through all rounds may be here
    have hi3 : i = 2 * rounds node.setupThrows r + 3 := h.1
    exact ⟨fits_cycleSched (by omega), fun _ _ => ⟨by omega, h.2⟩⟩
  | postDone =>
    have hi4 : i = 2 * rounds node.setupThrows r + 4 := h.1
    exact ⟨fits_cycleSched (by omega), fun _ _ => ⟨by omega, h.2⟩⟩

/-- A rank enters no more collectives than `collectives` says. -/
theorem CycleAt.lt_of_collective (h : CycleAt reach node r i s) {x : Collective mpiSize Payload}
    {next : Payload → Cycle} (hact : (runBench reach node r s).collective? = some (x, next)) :
    i < collectives reach node r := by
  unfold collectives
  cases enters_of_runBench hact with
  | initBarrier =>
    obtain ⟨rfl, hreach⟩ := h
    cases reach with
    | beforeInit => exact absurd rfl hreach
    | beforeCycle => exact Nat.one_pos
    | cycle => exact Nat.succ_pos _
  | gather =>
    obtain ⟨rfl, rfl⟩ := h
    show 1 < 2 * rounds node.setupThrows r + 5
    omega
  | setup hloop =>
    obtain ⟨htwo, hat, rfl⟩ := h
    have hlt := hat.lt_of_collective hloop
    show i < 2 * rounds node.setupThrows r + 5
    omega
  | setupDone =>
    obtain ⟨rfl, rfl⟩ := h
    exact Nat.add_lt_add_left (by decide) _
  | runDone =>
    obtain ⟨rfl, rfl⟩ := h
    exact Nat.add_lt_add_left (by decide) _
  | postDone =>
    obtain ⟨rfl, rfl⟩ := h
    exact Nat.add_lt_add_left (by decide) _

/-- A rank comes to its end after all its collectives. -/
theorem CycleAt.halt (h : CycleAt reach node r i s) (hact : runBench reach node r s = .halt) :
    i = collectives reach node r := by
  cases s with
  | escaped =>
    rcases h with ⟨rfl, rfl⟩ | ⟨rfl, rfl⟩
    · rfl
    · rfl
  | finished =>
    obtain ⟨rfl, rfl⟩ := h
    rfl
  | setup loop => cases (Act.within_halt hact).2
  | roleBegin => cases hact
  | initBarrier => cases hact
  | roleEnd => cases hact
  | gather => cases hact
  | setupDone => cases hact
  | run => cases hact
  | runDone => cases hact
  | shutdown => cases hact
  | postProcess => cases hact
  | postDone => cases hact

end Step

end TestBench
