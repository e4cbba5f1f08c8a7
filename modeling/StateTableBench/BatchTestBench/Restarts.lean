import StateTableBench.BatchTestBench.Main

/-!
# A batch across the restarts of the JVM

`testrun-batch.sh` launches one MPI job after the other, with a counter in `bench.restarts`, as long
as the file `restart_jvm` exists after a job. The root of a job creates the file after its run, and
deletes it once the batch is finished; a barrier keeps the ranks from ending before that.

`launch` is `main` together with what it does to the file and the benches that it starts. The
collectives of a bench are taken to be the same on all ranks. `EndsIn.own_eq` says what every rank
of a job does in every interleaving, and `batch_executes_every_run` what the script does: it
launches one job for each run of the batch, in order, and one more that finds the batch finished.
-/

open Spmd

namespace BatchTestBench

/-- What can be observed of a rank. -/
inductive JobEvent
  /-- `testBench.run()` is called. -/
  | run (testBench : Bench)
  /-- The owner of the restart file calls `setRestartJvm`. -/
  | setRestartJvm (restart : Bool)

/-- A position in `main`, or the call of `setRestartJvm` before the last barrier. -/
inductive Launch (mpiSize : ℕ)
  | main (s : Position mpiSize)
  | setRestartJvm (restart : Bool)

variable {mpiSize : ℕ} [NeZero mpiSize]

/-- Where a rank goes after `bench.run()`, whether or not it has thrown. -/
def Launch.afterRun : Position mpiSize → Launch mpiSize
  | .finalBarrier => .setRestartJvm true
  | s => .main s

/-- The bench that is started for a run: its configuration names one, and nothing throws before. -/
def startedBench (batchConfiguration : Config) (currentRunConfiguration : Option Config) :
    Option Bench :=
  match currentRunConfiguration with
  | none => none
  | some run =>
    match effective batchConfiguration run with
    | .ok (some testBench) =>
      match batchConfiguration.getString "Bookkeeper.basePath" with
      | .ok _ => some testBench
      | .error _ => none
    | .ok none => none
    | .error _ => none

/-- The call of `testBench.run()` in a position, if `preRun` has returned `true`. -/
def Position.started (batchConfiguration : Config) : Position mpiSize → Option JobEvent
  | .ran run true => (startedBench batchConfiguration run).map .run
  | _ => none

/-- A step of `main` with an event, where the last barrier comes after the call of
`setRestartJvm`. -/
def Launch.ofMain (event : Option JobEvent) :
    Act mpiSize (Position mpiSize) (List Int32) Empty →
      Act mpiSize (Launch mpiSize) (List Int32) JobEvent
  | .compute _ next => .compute event (.afterRun next)
  | .barrier next => .barrier (.main next)
  | .bcast root mine next => .bcast root mine fun data => .main (next data)
  | .halt => .halt

section Launch

variable (runs : ConfigList Config) (batchConfiguration : Config) (outcome : ScriptOutcome)
variable (block : Bench → List (Option (Fin mpiSize))) (batchRunNumber : Fin mpiSize → Int32)

/-- `main` on rank `mpiRank`, with the calls of `testBench.run()` and `setRestartJvm`. -/
def launch (mpiRank : Fin mpiSize) :
    Launch mpiSize → Act mpiSize (Launch mpiSize) (List Int32) JobEvent
  | .main (.constructed app) =>
    .compute none
      (if app.isBatchRunFinished then .setRestartJvm false
        else .main (.preRun app.currentRunConfiguration))
  | .main s =>
    Launch.ofMain (s.started batchConfiguration)
      (main runs batchConfiguration outcome block batchRunNumber mpiRank s)
  -- only the root calls it, and only the root owns the file
  | .setRestartJvm restart =>
    .compute (if mpiRank = 0 then some (.setRestartJvm restart) else none) (.main .finalBarrier)

/-- Every rank starts with the constructor. -/
def Launch.init : Launch mpiSize := .main .init

/-- The collectives that a rank will issue. -/
def restLaunch (mpiRank : Fin mpiSize) : Launch mpiSize → List (Collective mpiSize (List Int32))
  | .main s => rest runs batchConfiguration outcome block batchRunNumber mpiRank s
  | .setRestartJvm _ => [.barrier]

/-- A bound on the computations until the next collective. -/
def Launch.work : Launch mpiSize → ℕ
  | .main s => 2 * s.work
  | .setRestartJvm _ => 1

/-- The call of `setRestartJvm` that is to come. -/
def todoRestart (mpiRank : Fin mpiSize) (restart : Bool) : List JobEvent :=
  if mpiRank = 0 then [.setRestartJvm restart] else []

/-- The events to come after `preRun`. -/
def todoRan (mpiRank : Fin mpiSize) (run : Option Config) (succeeded : Bool) : List JobEvent :=
  ((Position.ran run succeeded : Position mpiSize).started batchConfiguration).toList ++
    todoRestart mpiRank true

/-- The events to come after the constructor. -/
def todoConstructed (mpiRank : Fin mpiSize) : Construction Config → List JobEvent
  | .constructed app =>
    if app.isBatchRunFinished then todoRestart mpiRank false
    else todoRan batchConfiguration mpiRank app.currentRunConfiguration
      (succeeds batchConfiguration outcome)
  | _ => []

/-- The events that a rank will produce. -/
def todoLaunch (mpiRank : Fin mpiSize) : Launch mpiSize → List JobEvent
  | .main (.construct .broadcastBatchRunNumber) =>
    todoConstructed batchConfiguration outcome mpiRank
      (selectRun runs (batchRunNumber mpiRank) (batchRunNumber 0))
  | .main (.construct (.selectRun field)) =>
    todoConstructed batchConfiguration outcome mpiRank
      (selectRun runs (batchRunNumber mpiRank) field)
  | .main (.construct s) => todoConstructed batchConfiguration outcome mpiRank s
  | .main (.constructed app) =>
    todoConstructed batchConfiguration outcome mpiRank (.constructed app)
  | .main (.preRun run) =>
    todoRan batchConfiguration mpiRank run (succeeds batchConfiguration outcome)
  -- the other ranks receive the value of the root
  | .main (.broadcast run succeeded) =>
    todoRan batchConfiguration mpiRank run
      (if mpiRank = 0 then succeeded else succeeds batchConfiguration outcome)
  | .main (.ran run succeeded) => todoRan batchConfiguration mpiRank run succeeded
  | .main (.bench _) => todoRestart mpiRank true
  | .main (.finalBarrier) => []
  | .main (.finished) => []
  | .main (.escaped) => []
  | .setRestartJvm restart => todoRestart mpiRank restart

end Launch

section Announces

variable {runs : ConfigList Config} {batchConfiguration : Config} {outcome : ScriptOutcome}
variable {block : Bench → List (Option (Fin mpiSize))} {batchRunNumber : Fin mpiSize → Int32}
variable {r : Fin mpiSize}

/-- Everywhere else a rank does what `main` does. -/
theorem launch_of_ne_constructed {s : Position mpiSize} (hs : ∀ app, s ≠ .constructed app) :
    launch runs batchConfiguration outcome block batchRunNumber r (.main s) =
      Launch.ofMain (s.started batchConfiguration)
        (main runs batchConfiguration outcome block batchRunNumber r s) := by
  cases s with
  | constructed app => exact absurd rfl (hs app)
  | construct s => rfl
  | preRun run => rfl
  | broadcast run succeeded => rfl
  | ran run succeeded => rfl
  | bench items => rfl
  | finalBarrier => rfl
  | finished => rfl
  | escaped => rfl

omit [NeZero mpiSize] in
/-- A local step of the launch is one of `main`. -/
theorem Launch.ofMain_compute {act : Act mpiSize (Position mpiSize) (List Int32) Empty}
    {next : Launch mpiSize} {event event' : Option JobEvent}
    (h : Launch.ofMain event act = .compute event' next) :
    ∃ next', act = .compute none next' ∧ event' = event ∧ next = .afterRun next' := by
  cases act with
  | compute e next' =>
    obtain ⟨rfl, rfl⟩ := Act.compute.inj h
    cases e with
    | none => exact ⟨next', rfl, rfl, rfl⟩
    | some e => exact e.elim
  | barrier next' => cases h
  | bcast root mine next' => cases h
  | halt => cases h

omit [NeZero mpiSize] in
/-- A collective of the launch is one of `main`. -/
theorem Launch.ofMain_collective {act : Act mpiSize (Position mpiSize) (List Int32) Empty}
    {x : Collective mpiSize (List Int32)} {next : List Int32 → Launch mpiSize}
    {event : Option JobEvent} (h : (Launch.ofMain event act).collective? = some (x, next)) :
    ∃ next', act.collective? = some (x, next') ∧ ∀ v, next v = .main (next' v) := by
  cases act with
  | compute event' next' => cases h
  | barrier next' =>
    obtain ⟨rfl, rfl⟩ := Prod.mk.inj (Option.some.inj h)
    exact ⟨_, rfl, fun _ => rfl⟩
  | bcast root mine next' =>
    obtain ⟨rfl, rfl⟩ := Prod.mk.inj (Option.some.inj h)
    exact ⟨_, rfl, fun _ => rfl⟩
  | halt => cases h

omit [NeZero mpiSize] in
/-- The launch halts where `main` does. -/
theorem Launch.ofMain_halt {act : Act mpiSize (Position mpiSize) (List Int32) Empty}
    {event : Option JobEvent} (h : Launch.ofMain event act = .halt) : act = .halt := by
  cases act with
  | compute event' next' => cases h
  | barrier next' => cases h
  | bcast root mine next' => cases h
  | halt => rfl

/-- The call of `setRestartJvm` comes before the last barrier. -/
theorem restLaunch_afterRun (next : Position mpiSize) :
    restLaunch runs batchConfiguration outcome block batchRunNumber r (.afterRun next) =
      rest runs batchConfiguration outcome block batchRunNumber r next := by
  cases next <;> rfl

omit [NeZero mpiSize] in
theorem Launch.work_afterRun_le (next : Position mpiSize) :
    (Launch.afterRun next).work ≤ 2 * next.work + 1 := by
  cases next with
  | finalBarrier => simp [Launch.afterRun, Launch.work]
  | construct s => exact Nat.le_succ _
  | constructed app => exact Nat.le_succ _
  | preRun run => exact Nat.le_succ _
  | broadcast run succeeded => exact Nat.le_succ _
  | ran run succeeded => exact Nat.le_succ _
  | bench items => exact Nat.le_succ _
  | finished => exact Nat.le_succ _
  | escaped => exact Nat.le_succ _

/-- A local step leaves the collectives that are to come. -/
theorem restLaunch_compute {s next : Launch mpiSize} {event : Option JobEvent}
    (hact : launch runs batchConfiguration outcome block batchRunNumber r s = .compute event next) :
    restLaunch runs batchConfiguration outcome block batchRunNumber r next =
        restLaunch runs batchConfiguration outcome block batchRunNumber r s ∧
      next.work < s.work := by
  cases s with
  | setRestartJvm restart =>
    obtain ⟨-, rfl⟩ := Act.compute.inj hact
    exact ⟨rfl, by simp [Launch.work, Position.work]⟩
  | main s =>
    by_cases hs : ∃ app, s = .constructed app
    · obtain ⟨app, rfl⟩ := hs
      obtain ⟨-, rfl⟩ := Act.compute.inj hact
      cases hfinished : app.isBatchRunFinished with
      | true => simp [restLaunch, rest, restConstructed, hfinished, Launch.work, Position.work]
      | false => simp [restLaunch, rest, restConstructed, hfinished, Launch.work, Position.work]
    · rw [launch_of_ne_constructed (not_exists.mp hs)] at hact
      obtain ⟨next', hmain, -, rfl⟩ := Launch.ofMain_compute hact
      obtain ⟨hrest, hwork⟩ := rest_compute hmain
      rw [restLaunch_afterRun]
      refine ⟨hrest, ?_⟩
      have hle := Launch.work_afterRun_le next'
      show (Launch.afterRun next').work < 2 * s.work
      omega

/-- `restLaunch` announces the collectives of the launch. -/
theorem announces_restLaunch :
    Announces (launch runs batchConfiguration outcome block batchRunNumber)
      (restLaunch runs batchConfiguration outcome block batchRunNumber) Launch.work 12 where
  compute := restLaunch_compute
  collective {r s x next} hact := by
    cases s with
    | setRestartJvm restart => cases hact
    | main s =>
      by_cases hs : ∃ app, s = .constructed app
      · obtain ⟨app, rfl⟩ := hs
        cases hact
      · rw [launch_of_ne_constructed (not_exists.mp hs)] at hact
        obtain ⟨next', hmain, hnext⟩ := Launch.ofMain_collective hact
        obtain ⟨y, ys, hrest, hfit, hdelivers⟩ := rest_collective hmain
        refine ⟨y, ys, hrest, hfit, fun v hv => ?_⟩
        rw [hnext v]
        exact hdelivers v hv
  halt {r s} hact := by
    cases s with
    | setRestartJvm restart => cases hact
    | main s =>
      by_cases hs : ∃ app, s = .constructed app
      · obtain ⟨app, rfl⟩ := hs
        cases hact
      · rw [launch_of_ne_constructed (not_exists.mp hs)] at hact
        exact rest_halt (Launch.ofMain_halt hact)
  work_le s := by
    cases s with
    | setRestartJvm restart => exact (by decide : 1 ≤ 12)
    | main s =>
      have hle : s.work ≤ 6 := (@announces_rest mpiSize _ runs batchConfiguration outcome block
        batchRunNumber).work_le s
      show 2 * s.work ≤ 12
      omega

/-- Without a bench, only the file is to be created. -/
theorem todoRan_false (run : Option Config) :
    todoRan batchConfiguration r run false = todoRestart r true := rfl

/-- The events after a computation in `bench.run()`. -/
theorem todoLaunch_preRun {run : Option Config} {next : Position mpiSize} {event : Option Empty}
    (hact : main runs batchConfiguration outcome block batchRunNumber r (.preRun run) =
      .compute event next) :
    todoLaunch runs batchConfiguration outcome batchRunNumber r (.afterRun next) =
      todoRan batchConfiguration r run (succeeds batchConfiguration outcome) := by
  unfold main at hact
  by_cases hr : r = 0
  · simp only [hr, if_true] at hact
    cases hscript : executePreRunScript batchConfiguration outcome with
    | ok succeeded =>
      rw [hscript] at hact
      obtain ⟨-, rfl⟩ := Act.compute.inj hact
      simp [Launch.afterRun, todoLaunch, succeeds, hr, hscript]
    | error exception =>
      -- the bench is not started, on any rank
      rw [hscript] at hact
      obtain ⟨-, rfl⟩ := Act.compute.inj hact
      simp [Launch.afterRun, todoLaunch, succeeds, hscript, todoRan_false]
  · simp only [hr, if_false] at hact
    obtain ⟨-, rfl⟩ := Act.compute.inj hact
    simp [Launch.afterRun, todoLaunch, hr]

omit [NeZero mpiSize] in
/-- A rank gets into a bench exactly if it starts one. -/
theorem startBench_eq_startedBench (run : Option Config) :
    startBench batchConfiguration block run =
      match startedBench batchConfiguration run with
      | some testBench => .bench (block testBench)
      | none => .finalBarrier := by
  cases run with
  | none => rfl
  | some run =>
    simp only [startBench, startedBench]
    cases effective batchConfiguration run with
    | error exception => rfl
    | ok testBench =>
      cases testBench with
      | none => rfl
      | some testBench =>
        simp only
        cases batchConfiguration.getString "Bookkeeper.basePath" <;> rfl

/-- Once the bench has been started or not, only the file is to be created. -/
theorem todoLaunch_afterRan {run : Option Config} {succeeded : Bool} :
    todoLaunch runs batchConfiguration outcome batchRunNumber r (.afterRun
      (if succeeded then startBench batchConfiguration block run else .finalBarrier)) =
        todoRestart r true := by
  cases succeeded with
  | false => rfl
  | true =>
    rw [startBench_eq_startedBench]
    cases startedBench batchConfiguration run with
    | none => rfl
    | some testBench => rfl

/-- The constructor computes the selection of the run. -/
theorem todoLaunch_construct {s : Construction Config} {next : Position mpiSize}
    {event : Option Empty}
    (hact : main runs batchConfiguration outcome block batchRunNumber r (.construct s) =
      .compute event next) :
    todoLaunch runs batchConfiguration outcome batchRunNumber r (.afterRun next) =
      todoLaunch runs batchConfiguration outcome batchRunNumber r (.main (.construct s)) := by
  cases s with
  | broadcastBatchRunNumber =>
    obtain ⟨mine, next', hbcast, -⟩ := construct_broadcast runs batchRunNumber r
    change (construct runs batchRunNumber r .broadcastBatchRunNumber).within _ _ = _ at hact
    rw [hbcast] at hact
    cases hact
  | selectRun field =>
    obtain ⟨-, rfl⟩ := Act.compute.inj hact
    rcases @selectRun_eq runs (batchRunNumber r) field with ⟨app, hselect⟩ | hselect
    · simp [Launch.afterRun, todoLaunch, hselect]
    · simp [Launch.afterRun, todoLaunch, hselect]
  | constructed app =>
    obtain ⟨-, rfl⟩ := Act.compute.inj hact
    rfl
  | threw =>
    obtain ⟨-, rfl⟩ := Act.compute.inj hact
    rfl

/-- A local step takes its event off those that are to come. -/
theorem todoLaunch_compute {s next : Launch mpiSize} {event : Option JobEvent}
    (hact : launch runs batchConfiguration outcome block batchRunNumber r s = .compute event next) :
    todoLaunch runs batchConfiguration outcome batchRunNumber r s =
      event.toList ++ todoLaunch runs batchConfiguration outcome batchRunNumber r next := by
  cases s with
  | setRestartJvm restart =>
    obtain ⟨rfl, rfl⟩ := Act.compute.inj hact
    by_cases hr : r = 0
    · simp [todoLaunch, todoRestart, hr]
    · simp [todoLaunch, todoRestart, hr]
  | main s =>
    by_cases hs : ∃ app, s = .constructed app
    · obtain ⟨app, rfl⟩ := hs
      obtain ⟨rfl, rfl⟩ := Act.compute.inj hact
      cases hfinished : app.isBatchRunFinished with
      | true => simp [todoLaunch, todoConstructed, hfinished]
      | false => simp [todoLaunch, todoConstructed, hfinished]
    · rw [launch_of_ne_constructed (not_exists.mp hs)] at hact
      obtain ⟨next', hmain, rfl, rfl⟩ := Launch.ofMain_compute hact
      cases s with
      | construct s => exact (todoLaunch_construct hmain).symm
      | constructed app => exact absurd ⟨app, rfl⟩ hs
      | preRun run => exact (todoLaunch_preRun hmain).symm
      | ran run succeeded =>
        obtain ⟨-, rfl⟩ := Act.compute.inj hmain
        rw [todoLaunch_afterRan]
        rfl
      | bench items =>
        cases items with
        | nil =>
          obtain ⟨-, rfl⟩ := Act.compute.inj hmain
          rfl
        | cons item items => cases item <;> cases hmain
      | broadcast run succeeded =>
        obtain ⟨mine, next', hbcast⟩ := main_broadcast runs batchConfiguration outcome block
          batchRunNumber r run succeeded
        rw [hbcast] at hmain
        cases hmain
      | finalBarrier => cases hmain
      | finished => cases hmain
      | escaped => cases hmain

/-- The number of the root selects the run. -/
theorem todoLaunch_constructCollective {s : Construction Config}
    {x y : Collective mpiSize (List Int32)} {ys : List (Collective mpiSize (List Int32))}
    {next : List Int32 → Position mpiSize} {v : List Int32}
    (hact : (main runs batchConfiguration outcome block batchRunNumber r
      (.construct s)).collective? = some (x, next))
    (hrest : rest runs batchConfiguration outcome block batchRunNumber r (.construct s) = y :: ys)
    (hv : y.Delivers v) :
    todoLaunch runs batchConfiguration outcome batchRunNumber r (.main (next v)) =
      todoLaunch runs batchConfiguration outcome batchRunNumber r (.main (.construct s)) := by
  cases s with
  | broadcastBatchRunNumber =>
    obtain ⟨rfl, -⟩ := List.cons.inj hrest
    obtain rfl : v = [batchRunNumber 0] := hv
    obtain ⟨mine, next', hbcast, -, hnext⟩ := construct_broadcast runs batchRunNumber r
    change ((construct runs batchRunNumber r .broadcastBatchRunNumber).within _ _).collective? =
      _ at hact
    rw [hbcast] at hact
    obtain ⟨-, rfl⟩ := Prod.mk.inj (Option.some.inj hact)
    show todoLaunch _ _ _ _ _ (.main (.construct (next' [batchRunNumber 0]))) = _
    rw [hnext]
    rfl
  | selectRun field => cases hact
  | constructed app => cases hact
  | threw => cases hact

/-- The other ranks go on with what the root found. -/
theorem todoLaunch_broadcast {run : Option Config} {succeeded : Bool}
    {x y : Collective mpiSize (List Int32)} {ys : List (Collective mpiSize (List Int32))}
    {next : List Int32 → Position mpiSize} {v : List Int32}
    (hact : (main runs batchConfiguration outcome block batchRunNumber r
      (.broadcast run succeeded)).collective? = some (x, next))
    (hrest : rest runs batchConfiguration outcome block batchRunNumber r
      (.broadcast run succeeded) = y :: ys)
    (hv : y.Delivers v) :
    todoLaunch runs batchConfiguration outcome batchRunNumber r (.main (next v)) =
      todoLaunch runs batchConfiguration outcome batchRunNumber r
        (.main (.broadcast run succeeded)) := by
  unfold main at hact
  by_cases hr : r = 0
  · simp only [hr, if_true] at hact
    obtain ⟨-, rfl⟩ := Prod.mk.inj (Option.some.inj hact)
    simp [todoLaunch, hr]
  · simp only [hr, if_false] at hact
    obtain ⟨-, rfl⟩ := Prod.mk.inj (Option.some.inj hact)
    simp only [rest, hr, if_false, restBroadcast] at hrest
    obtain ⟨rfl, -⟩ := List.cons.inj hrest
    obtain rfl : v = [if succeeds batchConfiguration outcome then 1 else 0] := hv
    cases hsucceeds : succeeds batchConfiguration outcome <;> simp [todoLaunch, hr, hsucceeds]

/-- What is handed over does not change the events to come. -/
theorem todoLaunch_collective {s : Position mpiSize} {x y : Collective mpiSize (List Int32)}
    {ys : List (Collective mpiSize (List Int32))} {next : List Int32 → Position mpiSize}
    {v : List Int32}
    (hact : (main runs batchConfiguration outcome block batchRunNumber r s).collective? =
      some (x, next))
    (hrest : rest runs batchConfiguration outcome block batchRunNumber r s = y :: ys)
    (hv : y.Delivers v) :
    todoLaunch runs batchConfiguration outcome batchRunNumber r (.main (next v)) =
      todoLaunch runs batchConfiguration outcome batchRunNumber r (.main s) := by
  cases s with
  | construct s => exact todoLaunch_constructCollective hact hrest hv
  | broadcast run succeeded => exact todoLaunch_broadcast hact hrest hv
  | bench items =>
    cases items with
    | nil => cases hact
    | cons item items =>
      cases item with
      | none =>
        obtain ⟨-, rfl⟩ := Prod.mk.inj (Option.some.inj hact)
        rfl
      | some root =>
        obtain ⟨-, rfl⟩ := Prod.mk.inj (Option.some.inj hact)
        rfl
  | finalBarrier =>
    obtain ⟨-, rfl⟩ := Prod.mk.inj (Option.some.inj hact)
    rfl
  | preRun run =>
    obtain ⟨next', hcompute⟩ := main_preRun runs batchConfiguration outcome block
      batchRunNumber r run
    rw [hcompute] at hact
    cases hact
  | constructed app => cases hact
  | ran run succeeded => cases hact
  | finished => cases hact
  | escaped => cases hact

/-- `main` halts at its end, or with an exception. -/
theorem main_halt {s : Position mpiSize}
    (hact : main runs batchConfiguration outcome block batchRunNumber r s = .halt) :
    s = .finished ∨ s = .escaped := by
  cases s with
  | finished => exact .inl rfl
  | escaped => exact .inr rfl
  | construct s => cases (Act.within_halt hact).2
  | preRun run =>
    obtain ⟨next', hcompute⟩ := main_preRun runs batchConfiguration outcome block
      batchRunNumber r run
    rw [hcompute] at hact
    cases hact
  | broadcast run succeeded =>
    obtain ⟨mine, next', hbcast⟩ := main_broadcast runs batchConfiguration outcome block
      batchRunNumber r run succeeded
    rw [hbcast] at hact
    cases hact
  | bench items =>
    cases items with
    | nil => cases hact
    | cons item items => cases item <;> cases hact
  | constructed app => cases hact
  | ran run succeeded => cases hact
  | finalBarrier => cases hact

/-- `todoLaunch` foretells the events of the launch. -/
theorem foretells_todoLaunch :
    Foretells (launch runs batchConfiguration outcome block batchRunNumber)
      (restLaunch runs batchConfiguration outcome block batchRunNumber)
      (todoLaunch runs batchConfiguration outcome batchRunNumber) where
  compute := todoLaunch_compute
  collective {r s x next y ys v} hact hrest hv := by
    cases s with
    | setRestartJvm restart => cases hact
    | main s =>
      by_cases hs : ∃ app, s = .constructed app
      · obtain ⟨app, rfl⟩ := hs
        cases hact
      · rw [launch_of_ne_constructed (not_exists.mp hs)] at hact
        obtain ⟨next', hmain, hnext⟩ := Launch.ofMain_collective hact
        rw [hnext]
        exact todoLaunch_collective hmain hrest hv
  halt {r s} hact := by
    cases s with
    | setRestartJvm restart => cases hact
    | main s =>
      by_cases hs : ∃ app, s = .constructed app
      · obtain ⟨app, rfl⟩ := hs
        cases hact
      · rw [launch_of_ne_constructed (not_exists.mp hs)] at hact
        rcases main_halt (Launch.ofMain_halt hact) with rfl | rfl
        · rfl
        · rfl

end Announces

/-! ## One job -/

section Job

variable (runs : ConfigList Config) (batchConfiguration : Config) (outcome : ScriptOutcome)
variable (block : Bench → List (Option (Fin mpiSize)))

/-- The ranks of a job. -/
abbrev JobConfig (mpiSize : ℕ) : Type :=
  Spmd.Config mpiSize (Launch mpiSize) (List Int32) JobEvent

/-- A job that was launched with the number `timesStarted` comes to its end in `c`. -/
structure EndsIn (timesStarted : Int32) (c : JobConfig mpiSize) : Prop where
  reachable : Reachable (launch runs batchConfiguration outcome block fun _ => timesStarted)
    (fun _ => .init) c
  stuck : Stuck (launch runs batchConfiguration outcome block fun _ => timesStarted) c

/-- The bench that is started in the job for the run with index `i`. -/
def jobBench (i : ℕ) : Option Bench :=
  if succeeds batchConfiguration outcome then startedBench batchConfiguration runs.elems[i]?
  else none

/-- The events of a rank in this job: first the bench is started. -/
def jobEvents (i : ℕ) (mpiRank : Fin mpiSize) : List JobEvent :=
  ((jobBench runs batchConfiguration outcome i).map JobEvent.run).toList ++
    todoRestart mpiRank (decide (i < runs.elems.length))

variable {runs batchConfiguration outcome block} {i : ℕ}

theorem one_le_ofNat_succ (hi : i + 1 < 2 ^ 31) : (1 : Int32) ≤ Int32.ofNat (i + 1) := by
  have hone : Int32.toInt 1 = 1 := rfl
  rw [Int32.le_iff_toInt_le, Int32.toInt_ofNat_of_lt hi, hone]
  omega

/-- What is announced in the constructor is the run with the index of the job. -/
theorem todoLaunch_init (hi : i + 1 < 2 ^ 31) (r : Fin mpiSize) :
    todoLaunch runs batchConfiguration outcome (fun _ => Int32.ofNat (i + 1)) r .init =
      jobEvents runs batchConfiguration outcome i r := by
  have hone := one_le_ofNat_succ hi
  have hget : runs.get (Int32.ofNat (i + 1) - 1) = runs.elems[i]? := by
    rw [runs.get_sub_one_of_one_le hone, Int32.toInt_ofNat_of_lt hi]
    congr 1
  show todoConstructed batchConfiguration outcome r (selectRun runs _ _) = _
  rw [selectRun_of_one_le runs _ hone, todoConstructed, hget, jobEvents, jobBench]
  by_cases hlt : i < runs.elems.length
  · -- the run exists, and its bench is started unless the script fails
    rw [List.getElem?_eq_getElem hlt, decide_eq_true hlt]
    cases hsucceeds : succeeds batchConfiguration outcome with
    | true => rfl
    | false => rfl
  · rw [List.getElem?_eq_none (not_lt.mp hlt), decide_eq_false hlt]
    cases succeeds batchConfiguration outcome <;> rfl

theorem restLaunch_init (hreadable : PreRunReadable batchConfiguration) (k : Int32)
    (r : Fin mpiSize) :
    restLaunch runs batchConfiguration outcome block (fun _ => k) r .init =
      restLaunch runs batchConfiguration outcome block (fun _ => k) 0 .init :=
  rest_init_of_readable outcome block hreadable r

/-- In every interleaving of the ranks, each of them has come to its end when none can make a step
any more, and has executed the run of the job. -/
theorem EndsIn.own_eq (hreadable : PreRunReadable batchConfiguration) (hi : i + 1 < 2 ^ 31)
    {c : JobConfig mpiSize}
    (h : EndsIn runs batchConfiguration outcome block (Int32.ofNat (i + 1)) c) (r : Fin mpiSize) :
    c.own r = jobEvents runs batchConfiguration outcome i r := by
  rw [← todoLaunch_init hi r]
  exact (announces_restLaunch.own_eq foretells_todoLaunch (restLaunch_init hreadable _)
    h.reachable h.stuck r).2

/-- A job comes to an end after finitely many steps, in whatever order the ranks make them. -/
theorem job_terminates (hreadable : PreRunReadable batchConfiguration) (k : Int32) :
    (∃ μ : JobConfig mpiSize → ℕ, ∀ c c',
      Reachable (launch runs batchConfiguration outcome block fun _ => k) (fun _ => .init) c →
        Step (launch runs batchConfiguration outcome block fun _ => k) c c' → μ c' < μ c) ∧
      ∃ c : JobConfig mpiSize, EndsIn runs batchConfiguration outcome block k c := by
  have hall : ∀ r, restLaunch runs batchConfiguration outcome block (fun _ => k) r .init =
      restLaunch runs batchConfiguration outcome block (fun _ => k) 0 .init :=
    restLaunch_init hreadable k
  obtain ⟨hmeasure, c, hc, hstuck⟩ := announces_restLaunch.terminates hall
  exact ⟨hmeasure, c, hc, hstuck⟩

end Job

/-! ## The script -/

/-- What the file system answers to the calls of a job. -/
structure FileAnswers where
  /-- `createNewFile` creates the file. -/
  created : Bool
  /-- `delete` deletes it. -/
  deleted : Bool

/-- Whether the restart file exists after a call of `setRestartJvm`. -/
def setRestartJvm (answers : FileAnswers) (fileExists restart : Bool) : Bool :=
  if restart && !fileExists then answers.created
  else if !restart && fileExists then !answers.deleted
  else fileExists

/-- Whether the restart file exists after the events of its owner. -/
def restartFile (answers : FileAnswers) (fileExists : Bool) (events : List JobEvent) : Bool :=
  events.foldl (fun fileExists event =>
    match event with
    | .setRestartJvm restart => setRestartJvm answers fileExists restart
    | .run _ => fileExists) fileExists

/-- `Integer.parseInt` of the counter. -/
def timesStarted (counter : ℕ) : Option Int32 :=
  if counter < 2 ^ 31 then some (Int32.ofNat counter) else none

section Script

variable (runs : ConfigList Config) (batchConfiguration : Config)
variable (outcome : ℕ → ScriptOutcome) (block : Bench → List (Option (Fin mpiSize)))
variable (answers : ℕ → FileAnswers)

/-- `run_jvm` with a counter: the end of the job, if its ranks start at all, and whether the restart
file exists before and after it. -/
inductive RunJvm (counter : ℕ) (before : Bool) : Option (JobConfig mpiSize) → Bool → Prop
  | job {k : Int32} {c : JobConfig mpiSize} : timesStarted counter = some k →
      EndsIn runs batchConfiguration (outcome counter) block k c →
      RunJvm counter before (some c) (restartFile (answers counter) before (c.own 0))
  /-- `Integer.parseInt` throws on every rank. -/
  | malformedCounter : timesStarted counter = none → RunJvm counter before none before

/-- The script from a value of its counter on, with the jobs that it launches. -/
inductive Script : ℕ → Bool → List (Option (JobConfig mpiSize)) → Prop
  | stop {counter : ℕ} {before : Bool} {job : Option (JobConfig mpiSize)} :
      RunJvm runs batchConfiguration outcome block answers counter before job false →
      Script counter before [job]
  | again {counter : ℕ} {before : Bool} {job : Option (JobConfig mpiSize)}
      {jobs : List (Option (JobConfig mpiSize))} :
      RunJvm runs batchConfiguration outcome block answers counter before job true →
      Script (counter + 1) true jobs → Script counter before (job :: jobs)

variable {runs batchConfiguration outcome block answers} {i : ℕ} {before after : Bool}
variable {job : Option (JobConfig mpiSize)} {jobs : List (Option (JobConfig mpiSize))}

/-- The file after the events of the root. -/
theorem restartFile_jobEvents (script : ScriptOutcome) (a : FileAnswers) (before : Bool) :
    restartFile a before (jobEvents runs batchConfiguration script i (0 : Fin mpiSize)) =
      if i < runs.elems.length then before || a.created else before && !a.deleted := by
  -- the start of a bench does not change it
  have hbench : ∀ events, restartFile a before
      (((jobBench runs batchConfiguration script i).map JobEvent.run).toList ++ events) =
        restartFile a before events := by
    intro events
    cases jobBench runs batchConfiguration script i <;> rfl
  rw [jobEvents, hbench]
  by_cases hi : i < runs.elems.length
  · rw [if_pos hi]
    cases before <;> simp [restartFile, todoRestart, setRestartJvm, hi]
  · rw [if_neg hi]
    cases before <;> simp [restartFile, todoRestart, setRestartJvm, hi]

/-- What `run_jvm` does with a counter that is an `int`. -/
theorem RunJvm.spec (hreadable : PreRunReadable batchConfiguration) (hi : i + 1 < 2 ^ 31)
    (h : RunJvm runs batchConfiguration outcome block answers (i + 1) before job after) :
    (∃ c, job = some c ∧
        ∀ r, c.own r = jobEvents runs batchConfiguration (outcome (i + 1)) i r) ∧
      after = if i < runs.elems.length then before || (answers (i + 1)).created
        else before && !(answers (i + 1)).deleted := by
  have hparse : timesStarted (i + 1) = some (Int32.ofNat (i + 1)) := if_pos hi
  cases h with
  | @job k c hk hends =>
    obtain rfl : Int32.ofNat (i + 1) = k := Option.some.inj (hparse.symm.trans hk)
    have hown := hends.own_eq hreadable hi
    refine ⟨⟨c, rfl, hown⟩, ?_⟩
    rw [hown 0, restartFile_jobEvents]
  | malformedCounter hk => cases hparse.symm.trans hk

/-- A JVM started with the next run number comes to an end. -/
theorem exists_runJvm (hreadable : PreRunReadable batchConfiguration) (hi : i + 1 < 2 ^ 31)
    (before : Bool) :
    ∃ (job : Option (JobConfig mpiSize)) (after : Bool),
      RunJvm runs batchConfiguration outcome block answers (i + 1) before job after := by
  have hends : ∃ c : JobConfig mpiSize, EndsIn runs batchConfiguration (outcome (i + 1)) block
      (Int32.ofNat (i + 1)) c := (job_terminates hreadable _).2
  obtain ⟨c, hc⟩ := hends
  exact ⟨_, _, .job (if_pos hi) hc⟩

/-- The jobs that the script launches from the run with index `i` on. -/
theorem Script.executes (hreadable : PreRunReadable batchConfiguration)
    (hlen : runs.elems.length + 1 < 2 ^ 31)
    (hdeleted : (answers (runs.elems.length + 1)).deleted = true) {counter : ℕ}
    (h : Script runs batchConfiguration outcome block answers counter before jobs)
    (hcounter : counter = i + 1) (hi : i ≤ runs.elems.length)
    (hfile : before = true ∨ i = runs.elems.length ∨ (answers (i + 1)).created = true) :
    jobs.length = runs.elems.length + 1 - i ∧
      ∀ j (hj : j < jobs.length), ∃ c, jobs[j] = some c ∧
        ∀ r, c.own r = jobEvents runs batchConfiguration (outcome (i + j + 1)) (i + j) r := by
  induction h generalizing i with
  | @stop counter before job hrun =>
    subst hcounter
    obtain ⟨hjob, hafter⟩ := hrun.spec hreadable (by omega)
    -- while there are runs left, the file exists after the job
    have hlast : i = runs.elems.length := by
      by_contra hne
      rw [if_pos (by omega : i < runs.elems.length), eq_comm, Bool.or_eq_false_iff] at hafter
      rcases hfile with hbefore | hend | hcreated
      · exact absurd (hafter.1.symm.trans hbefore) (by decide)
      · exact hne hend
      · exact absurd (hafter.2.symm.trans hcreated) (by decide)
    refine ⟨by rw [hlast]; simp, fun j hj => ?_⟩
    obtain rfl : j = 0 := by simpa using hj
    exact hjob
  | @again counter before job jobs hrun hrest ih =>
    subst hcounter
    obtain ⟨hjob, hafter⟩ := hrun.spec hreadable (by omega)
    -- the job that finds the batch finished deletes the file
    have hlt : i < runs.elems.length := by
      by_contra hnot
      have hlast : i = runs.elems.length := by omega
      rw [if_neg hnot, hlast, hdeleted] at hafter
      simp at hafter
    obtain ⟨hlength, hjobs⟩ := ih rfl hlt (.inl rfl)
    refine ⟨?_, fun j hj => ?_⟩
    · rw [List.length_cons, hlength]
      omega
    · cases j with
      | zero => exact hjob
      | succ j =>
        obtain ⟨c, hc, hown⟩ := hjobs j (by simpa using hj)
        refine ⟨c, hc, fun r => ?_⟩
        have hindex : i + 1 + j = i + (j + 1) := by omega
        rw [hown r, hindex]

/-- The script comes to its end. -/
theorem exists_script (hreadable : PreRunReadable batchConfiguration)
    (hlen : runs.elems.length + 1 < 2 ^ 31)
    (hdeleted : (answers (runs.elems.length + 1)).deleted = true) (hi : i ≤ runs.elems.length)
    (before : Bool) :
    ∃ jobs, Script runs batchConfiguration outcome block answers (i + 1) before jobs := by
  induction hleft : runs.elems.length - i generalizing i before with
  | zero =>
    obtain rfl : i = runs.elems.length := by omega
    have hrun : ∃ (job : Option (JobConfig mpiSize)) (after : Bool), RunJvm runs
      batchConfiguration outcome block answers _ before job after :=
      exists_runJvm hreadable hlen before
    obtain ⟨job, after, hrun⟩ := hrun
    have hafter := (hrun.spec hreadable hlen).2
    rw [if_neg (lt_irrefl _), hdeleted, Bool.not_true, Bool.and_false] at hafter
    exact ⟨[job], .stop (hafter ▸ hrun)⟩
  | succ left ih =>
    have hrun : ∃ (job : Option (JobConfig mpiSize)) (after : Bool), RunJvm runs
      batchConfiguration outcome block answers (i + 1) before job after :=
      exists_runJvm hreadable (by omega) before
    obtain ⟨job, after, hrun⟩ := hrun
    cases after with
    | false => exact ⟨[job], .stop hrun⟩
    | true =>
      obtain ⟨jobs, hjobs⟩ := ih (by omega : i + 1 ≤ runs.elems.length) true (by omega)
      exact ⟨job :: jobs, .again hrun hjobs⟩

/-- A batch whose configuration has what is read before its runs, and whose restart file can be
created and deleted: the script comes to its end, and whenever it does, whatever the order in which
the ranks of its jobs make their steps, it has launched one job for each run, in which every rank
has started the bench of this run if the script before it succeeds, and one more in which no rank
has started any. -/
theorem batch_executes_every_run (hreadable : PreRunReadable batchConfiguration)
    (hlen : runs.elems.length + 1 < 2 ^ 31)
    (hfile : before = true ∨ runs.elems.length = 0 ∨ (answers 1).created = true)
    (hdeleted : (answers (runs.elems.length + 1)).deleted = true) :
    (∃ jobs, Script runs batchConfiguration outcome block answers 1 before jobs) ∧
    ∀ jobs, Script runs batchConfiguration outcome block answers 1 before jobs →
      jobs.length = runs.elems.length + 1 ∧
      ∀ i (hi : i < jobs.length), ∃ c, jobs[i] = some c ∧
        ∀ r, c.own r = jobEvents runs batchConfiguration (outcome (i + 1)) i r := by
  refine ⟨exists_script hreadable hlen hdeleted (Nat.zero_le _) before, fun jobs hjobs => ?_⟩
  obtain ⟨hlength, hown⟩ := hjobs.executes hreadable hlen hdeleted rfl (Nat.zero_le _)
    (hfile.imp_right (.imp_left Eq.symm))
  refine ⟨hlength, fun i hi => ?_⟩
  have hi := hown i hi
  rwa [Nat.zero_add] at hi

end Script

/-- A batch of two runs. -/
def sampleRuns : ConfigList Config :=
  ⟨[.ofValues [("MergedMapTestBench.numberOfMaps", 4)] [("bench", "MergedMapTestBench")]
      ["MergedMapTestBench"],
    .ofValues [] [("bench", "MultiMergedMapTestBench")] ["MultiMergedMapTestBench"]], by decide⟩

/-- The configuration that its runs share. -/
def sampleBatch : Config :=
  .ofValues [("defaultConfig.MergedMapTestBench.writeRate", 10)]
    [("preRunScript", "./clean.sh"), ("preRunOutputFile", "clean.log"),
      ("Bookkeeper.basePath", "results")]
    ["defaultConfig.MergedMapTestBench", "defaultConfig.MultiMergedMapTestBench"]

/-- The script fails before the second run. -/
def sampleOutcome (counter : ℕ) : ScriptOutcome := .exited (if counter = 2 then 1 else 0)

/-- On three ranks, the batch of two runs takes three jobs, and only in the first one a bench is
started. -/
theorem batch_executes_sampleRuns :
    ((∃ jobs : List (Option (JobConfig 3)), Script sampleRuns sampleBatch sampleOutcome
        (fun _ => [none, some 0]) (fun _ => ⟨true, true⟩) 1 false jobs) ∧
      ∀ jobs : List (Option (JobConfig 3)), Script sampleRuns sampleBatch sampleOutcome
          (fun _ => [none, some 0]) (fun _ => ⟨true, true⟩) 1 false jobs →
        jobs.length = 3 ∧ ∀ i (hi : i < jobs.length), ∃ c, jobs[i] = some c ∧
          ∀ r, c.own r = jobEvents sampleRuns sampleBatch (sampleOutcome (i + 1)) i r) ∧
    (∀ r : Fin 3, jobEvents sampleRuns sampleBatch (sampleOutcome 1) 0 r =
      .run (.mergedMap { numberOfMaps := 4, writeRate := 10 }) :: todoRestart r true) ∧
    (∀ r : Fin 3, jobEvents sampleRuns sampleBatch (sampleOutcome 2) 1 r = todoRestart r true) ∧
    ∀ r : Fin 3, jobEvents sampleRuns sampleBatch (sampleOutcome 3) 2 r = todoRestart r false :=
  ⟨batch_executes_every_run ⟨"./clean.sh", rfl, .inr ⟨"clean.log", rfl⟩⟩ (by decide)
    (.inr (.inr rfl)) rfl, fun _ => rfl, fun _ => rfl, fun _ => rfl⟩

end BatchTestBench
