import StateTableBench.BatchTestBench.Config
import StateTableBench.BatchTestBench.Construction
import StateTableBench.Spmd.Schedule

/-!
# The batch driver

`main` constructs the batch, executes the current run and waits in a barrier for the other ranks
(`BatchTestBench.java`). Before the bench starts, the root executes a script and broadcasts whether
it succeeded. An exception of `run` is caught, so that the rank gets to the last barrier.

The exceptions of the script itself are turned into the result `false`, but those of reading the
configuration are not: if a key is missing, the root goes to the last barrier without the broadcast
for which the other ranks are waiting. `noRankLeftAlone_main_iff` says for which configurations all
ranks stay together.
-/

open Spmd

namespace BatchTestBench

/-- What happens when the script before a run is executed. -/
inductive ScriptOutcome
  /-- The output file does not exist and cannot be created. -/
  | noOutputFile
  /-- Starting the script, or waiting for it, throws. -/
  | threw
  | exited (exitValue : ℤ)
deriving DecidableEq

/-- `executePreRunScript`. -/
def executePreRunScript (batchConfiguration : Config) (outcome : ScriptOutcome) :
    Except ConfigException Bool := do
  let scriptPath ← batchConfiguration.getString "preRunScript"
  if scriptPath = "" then return true
  let _output ← batchConfiguration.getString "preRunOutputFile"
  match outcome with
  | .noOutputFile => return false
  | .threw => return false
  | .exited exitValue => return exitValue = 0

/-- A position in `main`. -/
inductive Position (mpiSize : ℕ)
  | construct (s : Construction Config)
  /-- Before the check whether the batch is finished. -/
  | constructed (app : App Config)
  /-- At the beginning of `preRun`. -/
  | preRun (run : Option Config)
  /-- At the broadcast of `preRun`. -/
  | broadcast (run : Option Config) (succeeded : Bool)
  /-- After `preRun`. -/
  | ran (run : Option Config) (succeeded : Bool)
  /-- In a bench, with its collectives still to come: a barrier, or a broadcast from a root. -/
  | bench (block : List (Option (Fin mpiSize)))
  /-- At the barrier before `MPI.Finalize`. -/
  | finalBarrier
  | finished
  /-- An exception of the constructor has left `main`. -/
  | escaped

variable {mpiSize : ℕ} [NeZero mpiSize]

section Main

variable (runs : ConfigList Config) (batchConfiguration : Config) (outcome : ScriptOutcome)
variable (block : Bench → List (Option (Fin mpiSize))) (batchRunNumber : Fin mpiSize → Int32)

/-- `run` after `preRun`: where a rank goes from there. An exception leads to the last barrier. -/
def startBench (currentRunConfiguration : Option Config) : Position mpiSize :=
  match currentRunConfiguration with
  | none => .finalBarrier
  | some run =>
    match effective batchConfiguration run with
    | .ok (some testBench) =>
      match batchConfiguration.getString "Bookkeeper.basePath" with
      | .ok _ => .bench (block testBench)
      | .error _ => .finalBarrier
    | .ok none => .finalBarrier
    | .error _ => .finalBarrier

/-- `main` on rank `mpiRank`. -/
def main (mpiRank : Fin mpiSize) :
    Position mpiSize → Act mpiSize (Position mpiSize) (List Int32) Empty
  | .construct s =>
    (construct runs batchRunNumber mpiRank s).within .construct
      (.compute none (match s with
        | .constructed app => .constructed app
        | _ => .escaped))
  | .constructed app =>
    .compute none
      (if app.isBatchRunFinished then .finalBarrier else .preRun app.currentRunConfiguration)
  | .preRun run =>
    if mpiRank = 0 then
      match executePreRunScript batchConfiguration outcome with
      | .ok succeeded => .compute none (.broadcast run succeeded)
      -- the exception passes the broadcast
      | .error _ => .compute none .finalBarrier
    else .compute none (.broadcast run false)
  | .broadcast run succeeded =>
    if mpiRank = 0 then .bcast 0 [if succeeded then 1 else 0] fun _ => .ran run succeeded
    else .bcast 0 [0] fun exitState => .ran run (exitState.headD 0 = 1)
  | .ran run succeeded =>
    .compute none (if succeeded then startBench batchConfiguration block run else .finalBarrier)
  | .bench [] => .compute none .finalBarrier
  | .bench (none :: block) => .barrier (.bench block)
  | .bench (some root :: block) => .bcast root [0] fun _ => .bench block
  | .finalBarrier => .barrier .finished
  | .finished => .halt
  | .escaped => .halt

/-- Every rank starts with the constructor. -/
def Position.init : Position mpiSize := .construct .broadcastBatchRunNumber

/-! ## The collectives to come -/

/-- Whether the script succeeds; `false` if it is not executed. -/
def succeeds : Bool :=
  match executePreRunScript batchConfiguration outcome with
  | .ok succeeded => succeeded
  | .error _ => false

/-- The collectives of a bench. -/
def blockCollectives (block : List (Option (Fin mpiSize))) :
    List (Collective mpiSize (List Int32)) :=
  block.map fun
    | none => .barrier
    | some root => .bcast root [0]

/-- The collectives from `startBench` on. -/
def restStart : Position mpiSize → List (Collective mpiSize (List Int32))
  | .bench block => blockCollectives block ++ [.barrier]
  | _ => [.barrier]

/-- The collectives after `preRun`. -/
def restRan (run : Option Config) (succeeded : Bool) : List (Collective mpiSize (List Int32)) :=
  if succeeded then restStart (startBench batchConfiguration block run) else [.barrier]

/-- The broadcast of `preRun` and the collectives after it. -/
def restBroadcast (run : Option Config) (succeeded : Bool) :
    List (Collective mpiSize (List Int32)) :=
  .bcast 0 [if succeeded then 1 else 0] :: restRan batchConfiguration block run succeeded

/-- The collectives from the beginning of `preRun` on. -/
def restPreRun (mpiRank : Fin mpiSize) (run : Option Config) :
    List (Collective mpiSize (List Int32)) :=
  if mpiRank = 0 ∧ (executePreRunScript batchConfiguration outcome).isOk = false then [.barrier]
  else restBroadcast batchConfiguration block run (succeeds batchConfiguration outcome)

/-- The collectives after the constructor. -/
def restConstructed (mpiRank : Fin mpiSize) :
    Construction Config → List (Collective mpiSize (List Int32))
  | .constructed app =>
    if app.isBatchRunFinished then [.barrier]
    else restPreRun batchConfiguration outcome block mpiRank app.currentRunConfiguration
  | _ => []

/-- The collectives that a rank will issue, if the broadcasts hand over the values of the root. -/
def rest (mpiRank : Fin mpiSize) : Position mpiSize → List (Collective mpiSize (List Int32))
  | .construct .broadcastBatchRunNumber =>
    .bcast 0 [batchRunNumber 0] :: restConstructed batchConfiguration outcome block mpiRank
      (selectRun runs (batchRunNumber mpiRank) (batchRunNumber 0))
  | .construct (.selectRun field) =>
    restConstructed batchConfiguration outcome block mpiRank
      (selectRun runs (batchRunNumber mpiRank) field)
  | .construct s => restConstructed batchConfiguration outcome block mpiRank s
  | .constructed app =>
    restConstructed batchConfiguration outcome block mpiRank (.constructed app)
  | .preRun run => restPreRun batchConfiguration outcome block mpiRank run
  | .broadcast run succeeded =>
    restBroadcast batchConfiguration block run
      (if mpiRank = 0 then succeeded else succeeds batchConfiguration outcome)
  | .ran run succeeded => restRan batchConfiguration block run succeeded
  | .bench block => blockCollectives block ++ [.barrier]
  | .finalBarrier => [.barrier]
  | .finished => []
  | .escaped => []

/-- A bound on the computations until the next collective. -/
def Position.work : Position mpiSize → ℕ
  | .construct .broadcastBatchRunNumber => 0
  | .construct (.selectRun _) => 6
  | .construct _ => 5
  | .constructed _ => 4
  | .preRun _ => 3
  | .broadcast _ _ => 0
  | .ran _ _ => 2
  | .bench _ => 1
  | _ => 0

end Main

section Announces

variable {runs : ConfigList Config} {batchConfiguration : Config} {outcome : ScriptOutcome}
variable {block : Bench → List (Option (Fin mpiSize))} {batchRunNumber : Fin mpiSize → Int32}
variable {r : Fin mpiSize}

omit [NeZero mpiSize] in
/-- A run starts a bench or goes on to the last barrier. -/
theorem startBench_eq (run : Option Config) :
    (∃ items, startBench batchConfiguration block run = .bench items) ∨
      startBench batchConfiguration block run = .finalBarrier := by
  unfold startBench
  split
  · exact .inr rfl
  · split
    · split
      · exact .inl ⟨_, rfl⟩
      · exact .inr rfl
    · exact .inr rfl
    · exact .inr rfl

/-- The constructor constructs the application or throws. -/
theorem selectRun_eq (k field : Int32) :
    (∃ app, selectRun runs k field = .constructed app) ∨ selectRun runs k field = .threw := by
  rcases Int32.lt_or_le k 1 with hk | hk
  · exact .inr (selectRun_of_lt_one runs field hk)
  · exact .inl ⟨_, selectRun_of_one_le runs field hk⟩

variable (runs batchConfiguration outcome block batchRunNumber r) in
/-- `preRun` begins with a computation. -/
theorem main_preRun (run : Option Config) :
    ∃ next, main runs batchConfiguration outcome block batchRunNumber r (.preRun run) =
      .compute none next := by
  simp only [main]
  split
  · split
    · exact ⟨_, rfl⟩
    · exact ⟨_, rfl⟩
  · exact ⟨_, rfl⟩

variable (runs batchConfiguration outcome block batchRunNumber r) in
/-- And it ends with a broadcast. -/
theorem main_broadcast (run : Option Config) (succeeded : Bool) :
    ∃ mine next, main runs batchConfiguration outcome block batchRunNumber r
      (.broadcast run succeeded) = .bcast 0 mine next := by
  simp only [main]
  split
  · exact ⟨_, _, rfl⟩
  · exact ⟨_, _, rfl⟩

/-- The constructor computes what it has received. -/
theorem rest_compute_construct {s : Construction Config} {next : Position mpiSize}
    {event : Option Empty}
    (hact : main runs batchConfiguration outcome block batchRunNumber r (.construct s) =
      .compute event next) :
    rest runs batchConfiguration outcome block batchRunNumber r next =
        rest runs batchConfiguration outcome block batchRunNumber r (.construct s) ∧
      next.work < (Position.construct s : Position mpiSize).work := by
  cases s with
  | broadcastBatchRunNumber =>
    obtain ⟨mine, next', hbcast, -⟩ := construct_broadcast runs batchRunNumber r
    change (construct runs batchRunNumber r .broadcastBatchRunNumber).within _ _ = _ at hact
    rw [hbcast] at hact
    cases hact
  | selectRun field =>
    obtain ⟨-, rfl⟩ := Act.compute.inj hact
    rcases @selectRun_eq runs (batchRunNumber r) field with ⟨app, hselect⟩ | hselect
    · simp [rest, hselect, Position.work]
    · simp [rest, hselect, Position.work]
  | constructed app =>
    obtain ⟨-, rfl⟩ := Act.compute.inj hact
    exact ⟨rfl, by simp [Position.work]⟩
  | threw =>
    obtain ⟨-, rfl⟩ := Act.compute.inj hact
    exact ⟨rfl, by simp [Position.work]⟩

/-- Only the root executes the script. If it throws, its broadcast is left out. -/
theorem rest_compute_preRun {run : Option Config} {next : Position mpiSize} {event : Option Empty}
    (hact : main runs batchConfiguration outcome block batchRunNumber r (.preRun run) =
      .compute event next) :
    rest runs batchConfiguration outcome block batchRunNumber r next =
        rest runs batchConfiguration outcome block batchRunNumber r (.preRun run) ∧
      next.work < (Position.preRun run : Position mpiSize).work := by
  unfold main at hact
  by_cases hr : r = 0
  · simp only [hr, if_true] at hact
    cases hscript : executePreRunScript batchConfiguration outcome with
    | ok succeeded =>
      rw [hscript] at hact
      obtain ⟨-, rfl⟩ := Act.compute.inj hact
      simp [rest, restPreRun, succeeds, hr, hscript, Except.isOk, Except.toBool, Position.work]
    | error exception =>
      rw [hscript] at hact
      obtain ⟨-, rfl⟩ := Act.compute.inj hact
      simp [rest, restPreRun, hr, hscript, Except.isOk, Except.toBool, Position.work]
  · simp only [hr, if_false] at hact
    obtain ⟨-, rfl⟩ := Act.compute.inj hact
    simp [rest, restPreRun, hr, Position.work]

/-- A local step leaves the collectives that are to come. -/
theorem rest_compute {s next : Position mpiSize} {event : Option Empty}
    (hact : main runs batchConfiguration outcome block batchRunNumber r s = .compute event next) :
    rest runs batchConfiguration outcome block batchRunNumber r next =
        rest runs batchConfiguration outcome block batchRunNumber r s ∧
      next.work < s.work := by
  cases s with
  | construct s => exact rest_compute_construct hact
  | constructed app =>
    obtain ⟨-, rfl⟩ := Act.compute.inj hact
    split
    · next hfinished => simp [rest, restConstructed, hfinished, Position.work]
    · next hfinished => simp [rest, restConstructed, hfinished, Position.work]
  | preRun run => exact rest_compute_preRun hact
  | ran run succeeded =>
    obtain ⟨-, rfl⟩ := Act.compute.inj hact
    cases succeeded with
    | false => simp [rest, restRan, Position.work]
    | true =>
      rcases @startBench_eq mpiSize batchConfiguration block run with ⟨items, hstart⟩ | hstart
      · simp [rest, restRan, restStart, hstart, Position.work]
      · simp [rest, restRan, restStart, hstart, Position.work]
  | bench items =>
    cases items with
    | nil =>
      obtain ⟨-, rfl⟩ := Act.compute.inj hact
      exact ⟨rfl, by simp [Position.work]⟩
    | cons item items => cases item <;> cases hact
  | broadcast run succeeded =>
    obtain ⟨mine, next', hbcast⟩ := main_broadcast runs batchConfiguration outcome block
      batchRunNumber r run succeeded
    rw [hbcast] at hact
    cases hact
  | finalBarrier => cases hact
  | finished => cases hact
  | escaped => cases hact

/-- All ranks receive the number of the root. -/
theorem rest_collective_construct {s : Construction Config} {x : Collective mpiSize (List Int32)}
    {next : List Int32 → Position mpiSize}
    (hact : (main runs batchConfiguration outcome block batchRunNumber r
      (.construct s)).collective? = some (x, next)) :
    ∃ y ys, rest runs batchConfiguration outcome block batchRunNumber r (.construct s) = y :: ys ∧
      x.Fits r y ∧ ∀ v, y.Delivers v →
        rest runs batchConfiguration outcome block batchRunNumber r (next v) = ys := by
  cases s with
  | broadcastBatchRunNumber =>
    obtain ⟨mine, next', hbcast, hmine, hnext⟩ := construct_broadcast runs batchRunNumber r
    change ((construct runs batchRunNumber r .broadcastBatchRunNumber).within _ _).collective? =
      _ at hact
    rw [hbcast] at hact
    obtain ⟨rfl, rfl⟩ := Prod.mk.inj (Option.some.inj hact)
    refine ⟨_, _, rfl, ⟨rfl, hmine⟩, ?_⟩
    rintro v rfl
    show rest _ _ _ _ _ _ (.construct (next' [batchRunNumber 0])) = _
    rw [hnext]
    rfl
  | selectRun field => cases hact
  | constructed app => cases hact
  | threw => cases hact

/-- The other ranks receive what the root has sent. -/
theorem rest_collective_broadcast {run : Option Config} {succeeded : Bool}
    {x : Collective mpiSize (List Int32)} {next : List Int32 → Position mpiSize}
    (hact : (main runs batchConfiguration outcome block batchRunNumber r
      (.broadcast run succeeded)).collective? = some (x, next)) :
    ∃ y ys, rest runs batchConfiguration outcome block batchRunNumber r
        (.broadcast run succeeded) = y :: ys ∧
      x.Fits r y ∧ ∀ v, y.Delivers v →
        rest runs batchConfiguration outcome block batchRunNumber r (next v) = ys := by
  unfold main at hact
  by_cases hr : r = 0
  · simp only [hr, if_true] at hact
    obtain ⟨rfl, rfl⟩ := Prod.mk.inj (Option.some.inj hact)
    have hrest : rest runs batchConfiguration outcome block batchRunNumber r
        (.broadcast run succeeded) = restBroadcast batchConfiguration block run succeeded := by
      simp [rest, hr]
    exact ⟨_, _, hrest, ⟨rfl, fun _ => rfl⟩, fun _ _ => rfl⟩
  · simp only [hr, if_false] at hact
    obtain ⟨rfl, rfl⟩ := Prod.mk.inj (Option.some.inj hact)
    have hrest : rest runs batchConfiguration outcome block batchRunNumber r
        (.broadcast run succeeded) = restBroadcast batchConfiguration block run
          (succeeds batchConfiguration outcome) := by simp [rest, hr]
    refine ⟨_, _, hrest, ⟨rfl, fun h => absurd h hr⟩, ?_⟩
    rintro v rfl
    cases hsucceeds : succeeds batchConfiguration outcome with
    | true => simp [rest]
    | false => simp [rest]

/-- A collective is the first of those that were to come. -/
theorem rest_collective {s : Position mpiSize} {x : Collective mpiSize (List Int32)}
    {next : List Int32 → Position mpiSize}
    (hact : (main runs batchConfiguration outcome block batchRunNumber r s).collective? =
      some (x, next)) :
    ∃ y ys, rest runs batchConfiguration outcome block batchRunNumber r s = y :: ys ∧
      x.Fits r y ∧ ∀ v, y.Delivers v →
        rest runs batchConfiguration outcome block batchRunNumber r (next v) = ys := by
  cases s with
  | construct s => exact rest_collective_construct hact
  | broadcast run succeeded => exact rest_collective_broadcast hact
  | bench items =>
    cases items with
    | nil => cases hact
    | cons item items =>
      cases item with
      | none =>
        obtain ⟨rfl, rfl⟩ := Prod.mk.inj (Option.some.inj hact)
        exact ⟨_, _, rfl, trivial, fun _ _ => rfl⟩
      | some root =>
        obtain ⟨rfl, rfl⟩ := Prod.mk.inj (Option.some.inj hact)
        exact ⟨_, _, rfl, ⟨rfl, fun _ => rfl⟩, fun _ _ => rfl⟩
  | finalBarrier =>
    obtain ⟨rfl, rfl⟩ := Prod.mk.inj (Option.some.inj hact)
    exact ⟨_, _, rfl, trivial, fun _ _ => rfl⟩
  | preRun run =>
    obtain ⟨next', hcompute⟩ := main_preRun runs batchConfiguration outcome block
      batchRunNumber r run
    rw [hcompute] at hact
    cases hact
  | constructed app => cases hact
  | ran run succeeded => cases hact
  | finished => cases hact
  | escaped => cases hact

/-- Where a rank halts, no collective is to come. -/
theorem rest_halt {s : Position mpiSize}
    (hact : main runs batchConfiguration outcome block batchRunNumber r s = .halt) :
    rest runs batchConfiguration outcome block batchRunNumber r s = [] := by
  cases s with
  | finished => rfl
  | escaped => rfl
  | construct s => cases (Act.within_halt hact).2
  | preRun run =>
    obtain ⟨next', hcompute⟩ := main_preRun runs batchConfiguration outcome block
      batchRunNumber r run
    rw [hcompute] at hact
    cases hact
  | broadcast run succeeded =>
    obtain ⟨mine, next', hbcast⟩ := main_broadcast runs batchConfiguration outcome block
      batchRunNumber r run succeeded
    rw [hbcast] at hact
    cases hact
  | bench items =>
    cases items with
    | nil => cases hact
    | cons item items => cases item <;> cases hact
  | constructed app => cases hact
  | ran run succeeded => cases hact
  | finalBarrier => cases hact

/-- `rest` announces the collectives of `main`. -/
theorem announces_rest :
    Announces (main runs batchConfiguration outcome block batchRunNumber)
      (rest runs batchConfiguration outcome block batchRunNumber) Position.work 6 where
  compute := rest_compute
  collective := rest_collective
  halt := rest_halt
  work_le s := by
    unfold Position.work
    split <;> omega

end Announces

/-! ## The ranks stay together -/

/-- The configuration has what `executePreRunScript` reads: the path of the script and, if it is not
empty, the output file. -/
def PreRunReadable (batchConfiguration : Config) : Prop :=
  ∃ scriptPath, batchConfiguration.getString "preRunScript" = .ok scriptPath ∧
    (scriptPath = "" ∨ ∃ output, batchConfiguration.getString "preRunOutputFile" = .ok output)

/-- Exactly then, `executePreRunScript` does not throw. -/
theorem executePreRunScript_isOk (batchConfiguration : Config) (outcome : ScriptOutcome) :
    (executePreRunScript batchConfiguration outcome).isOk = true ↔
      PreRunReadable batchConfiguration := by
  unfold executePreRunScript PreRunReadable
  cases hscript : batchConfiguration.getString "preRunScript" with
  | error exception => simp [bind, Except.bind, Except.isOk, Except.toBool]
  | ok scriptPath =>
    by_cases hempty : scriptPath = ""
    · simp [bind, Except.bind, pure, Except.pure, Except.isOk, Except.toBool, hempty]
    · cases houtput : batchConfiguration.getString "preRunOutputFile" with
      | error exception => simp [bind, Except.bind, Except.isOk, Except.toBool, hempty]
      | ok output =>
        cases outcome <;>
          simp [bind, Except.bind, pure, Except.pure, Except.isOk, Except.toBool, hempty]

section Together

variable (runs : ConfigList Config) (batchConfiguration : Config) (outcome : ScriptOutcome)
variable (block : Bench → List (Option (Fin mpiSize))) (batchRunNumber : Int32)

variable {runs batchRunNumber}

/-- The collectives of a run that exists. -/
theorem rest_init_of_exists (hone : 1 ≤ batchRunNumber) (hle : batchRunNumber ≤ runs.size)
    (r : Fin mpiSize) :
    rest runs batchConfiguration outcome block (fun _ => batchRunNumber) r .init =
      .bcast 0 [batchRunNumber] :: restPreRun batchConfiguration outcome block r
        (runs.get (batchRunNumber - 1)) := by
  have hsome := runs.get_sub_one_isSome hone
  rw [decide_eq_true hle] at hsome
  rw [Position.init, rest, selectRun_of_one_le runs _ hone, restConstructed, hsome]
  rfl

/-- Without a run, the collectives do not depend on the rank. -/
theorem rest_init_of_not_exists (h : ¬(1 ≤ batchRunNumber ∧ batchRunNumber ≤ runs.size))
    (r : Fin mpiSize) :
    rest runs batchConfiguration outcome block (fun _ => batchRunNumber) r .init =
      rest runs batchConfiguration outcome block (fun _ => batchRunNumber) 0 .init := by
  rcases Int32.lt_or_le batchRunNumber 1 with hlt | hone
  · rw [Position.init, rest, rest, selectRun_of_lt_one runs _ hlt, restConstructed, restConstructed]
    · simp
    · simp
  · have hsome := runs.get_sub_one_isSome hone
    rw [decide_eq_false fun hle => h ⟨hone, hle⟩] at hsome
    rw [Position.init, rest, rest, selectRun_of_one_le runs _ hone, restConstructed,
      restConstructed, hsome]
    rfl

variable {batchConfiguration}

/-- If nothing throws before the broadcast of `preRun`, the collectives do not depend on the rank
either. -/
theorem rest_init_of_readable (hreadable : PreRunReadable batchConfiguration) (r : Fin mpiSize) :
    rest runs batchConfiguration outcome block (fun _ => batchRunNumber) r .init =
      rest runs batchConfiguration outcome block (fun _ => batchRunNumber) 0 .init := by
  have hok := (executePreRunScript_isOk batchConfiguration outcome).mpr hreadable
  by_cases hexists : 1 ≤ batchRunNumber ∧ batchRunNumber ≤ runs.size
  · rw [rest_init_of_exists _ _ _ hexists.1 hexists.2,
      rest_init_of_exists _ _ _ hexists.1 hexists.2, restPreRun, restPreRun, hok]
    simp
  · exact rest_init_of_not_exists _ _ _ hexists r

/-- If the root throws before the broadcast of `preRun`, it is at the last barrier while the others
are at the broadcast. -/
theorem not_noRankLeftAlone_main (hsize : 1 < mpiSize) (hone : 1 ≤ batchRunNumber)
    (hle : batchRunNumber ≤ runs.size) (hreadable : ¬PreRunReadable batchConfiguration) :
    ¬NoRankLeftAlone (main runs batchConfiguration outcome block fun _ => batchRunNumber)
      (fun _ => Position.init) := by
  have hok : (executePreRunScript batchConfiguration outcome).isOk = false := by
    rw [← Bool.not_eq_true, executePreRunScript_isOk]
    exact hreadable
  have hne : (0 : Fin mpiSize) ≠ ⟨1, hsize⟩ := by
    intro heq
    exact absurd (congrArg Fin.val heq) (by simp)
  have hrest := rest_init_of_exists batchConfiguration outcome block hone hle
  have hroot := hrest 0
  have hother := hrest ⟨1, hsize⟩
  rw [restPreRun, if_pos ⟨rfl, hok⟩] at hroot
  rw [restPreRun, if_neg fun h => hne h.1.symm, restBroadcast] at hother
  have hcommon : ∀ r, [Collective.bcast 0 [batchRunNumber]] <+:
      rest runs batchConfiguration outcome block (fun _ => batchRunNumber) r .init := by
    intro r
    rw [hrest r]
    exact ⟨_, rfl⟩
  exact announces_rest.not_noRankLeftAlone hcommon hne hroot hother (by simp [Collective.kind])

variable (runs batchConfiguration batchRunNumber)

/-- All ranks issue the same collectives exactly if there is only one rank, or the run does not
exist, or the configuration has what is read before the broadcast of `preRun`. -/
theorem noRankLeftAlone_main_iff :
    NoRankLeftAlone (main runs batchConfiguration outcome block fun _ => batchRunNumber)
        (fun _ => Position.init) ↔
      mpiSize = 1 ∨ ¬(1 ≤ batchRunNumber ∧ batchRunNumber ≤ runs.size) ∨
        PreRunReadable batchConfiguration := by
  constructor
  · intro halone
    by_contra hnot
    rw [not_or, not_or, not_not] at hnot
    obtain ⟨hone', ⟨hone, hle⟩, hreadable⟩ := hnot
    have hsize : 1 < mpiSize := by
      have hpos := Nat.pos_of_ne_zero (NeZero.ne mpiSize)
      omega
    exact not_noRankLeftAlone_main outcome block hsize hone hle hreadable halone
  · rintro (hsize | hnot | hreadable)
    · have hsub : Subsingleton (Fin mpiSize) := by
        rw [hsize]
        infer_instance
      exact noRankLeftAlone_of_subsingleton
    · exact announces_rest.noRankLeftAlone (rest_init_of_not_exists _ _ _ hnot)
    · exact announces_rest.noRankLeftAlone (rest_init_of_readable _ _ hreadable)

end Together

/-- Three ranks, one run, a script that succeeds, and a bench with two barriers and a broadcast. -/
theorem noRankLeftAlone_withScript :
    NoRankLeftAlone (main
      ⟨[.ofValues [] [("bench", "MergedMapTestBench")] ["MergedMapTestBench"]], by decide⟩
      (.ofValues [] [("preRunScript", "./clean.sh"), ("preRunOutputFile", "clean.log"),
        ("Bookkeeper.basePath", "results")] ["defaultConfig.MergedMapTestBench"])
      (.exited 0) (fun _ => [none, some 2, none]) fun _ : Fin 3 => 1) (fun _ => Position.init) :=
  (noRankLeftAlone_main_iff _ _ _ _ _).mpr
    (.inr (.inr ⟨"./clean.sh", rfl, .inr ⟨"clean.log", rfl⟩⟩))

/-- Two ranks, one run and a configuration without `preRunScript`. -/
theorem not_noRankLeftAlone_withoutScript :
    ¬NoRankLeftAlone (main ⟨[.ofValues [] [("bench", "MergedMapTestBench")] []], by decide⟩
      (.ofValues [] [("Bookkeeper.basePath", "results")] []) (.exited 0) (fun _ => [])
      fun _ : Fin 2 => 1) (fun _ => Position.init) := by
  refine not_noRankLeftAlone_main _ _ (by decide) (by decide) (by decide) ?_
  rintro ⟨scriptPath, hscript, -⟩
  cases hscript

end BatchTestBench
