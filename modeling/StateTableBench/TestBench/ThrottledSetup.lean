import StateTableBench.Spmd.Termination

/-!
# Throttled setup

`throttledSetup` lets the ranks set up one after the other (`TestBench.java`). All ranks go round
a loop; in the round with the value `v` only rank `v` runs `setup()`. Each round ends with a
barrier, after which the root increments its own counter and broadcasts it, and the other ranks
overwrite theirs.

The loop is a machine for the collectives of `Spmd`; a `setup()` that throws leaves it. `At` is
its plan, and the step lemmas below say that every rank keeps to it up to the point where its own
`setup()` throws.
-/

open Spmd

namespace TestBench

/-- The arrays that are broadcast. -/
abbrev Payload := List ℤ

/-- A position in the body of `throttledSetup`. -/
inductive Pc
  /-- At the condition of the loop. -/
  | loopTest
  /-- Before the check whether it is this rank's turn. -/
  | body
  /-- Inside `node.setup()`. -/
  | setup
  /-- At the barrier of the round. -/
  | barrier
  /-- At the broadcast of the round. -/
  | broadcast
  /-- The loop has been left. -/
  | returned
  /-- `node.setup()` has thrown. -/
  | threw
deriving DecidableEq

/-- The local state of a rank in `throttledSetup`. -/
structure Loop where
  pc : Pc
  /-- An `int` that never exceeds `mpiSize`, so that it does not overflow. -/
  nodeThatCanStartWarmup : ℤ
deriving DecidableEq

/-- What can be observed of a rank. -/
inductive Event
  | enterRound (nodeThatCanStartWarmup : ℤ)
  | setupBegin
  | setupEnd
  | leaveLoop
  /-- An exception of a callback was caught and logged. -/
  | caught
deriving DecidableEq

variable {mpiSize : ℕ} [NeZero mpiSize]

/-- `throttledSetup` on rank `mpiRank`, whose `node.setup()` throws if `setupThrows`. -/
def throttledSetup (setupThrows : Bool) (mpiRank : Fin mpiSize) (s : Loop) :
    Act mpiSize Loop Payload Event :=
  let v := s.nodeThatCanStartWarmup
  match s.pc with
  | .loopTest =>
    if v < mpiSize then .compute (some (.enterRound v)) ⟨.body, v⟩
    else .compute (some .leaveLoop) ⟨.returned, v⟩
  | .body =>
    if v = mpiRank.val then .compute (some .setupBegin) ⟨.setup, v⟩
    else .compute none ⟨.barrier, v⟩
  | .setup =>
    -- an exception leaves the loop before the barrier of the round
    if setupThrows then .compute none ⟨.threw, v⟩
    else .compute (some .setupEnd) ⟨.barrier, v⟩
  | .barrier => .barrier ⟨.broadcast, v⟩
  | .broadcast =>
    if mpiRank = 0 then .bcast 0 [v + 1] fun _ => ⟨.loopTest, v + 1⟩
    else .bcast 0 [0] fun data => ⟨.loopTest, data.headD 0⟩
  | .returned => .halt
  | .threw => .halt

/-- Every rank starts with the value `0`. -/
def Loop.init : Loop := ⟨.loopTest, 0⟩

/-! ## The plan of the loop -/

/-- The collectives of the loop: two in each round. -/
def loopSched (i : ℕ) : Collective mpiSize Payload :=
  if i % 2 = 0 then .barrier else .bcast 0 [(i / 2 : ℕ) + 1]

/-- The number of rounds that a rank completes. -/
def rounds (setupThrows : Bool) (mpiRank : Fin mpiSize) : ℕ :=
  if setupThrows then mpiRank.val else mpiSize

omit [NeZero mpiSize] in
theorem rounds_le (setupThrows : Bool) (r : Fin mpiSize) : rounds setupThrows r ≤ mpiSize := by
  unfold rounds
  split
  · exact r.isLt.le
  · exact le_rfl

/-- Where a rank may be after it has left `i` collectives of the loop. -/
def LoopAt (setupThrows : Bool) (r : Fin mpiSize) (i : ℕ) (s : Loop) : Prop :=
  s.nodeThatCanStartWarmup = (i / 2 : ℕ) ∧
  match s.pc with
  | .loopTest => i % 2 = 0 ∧ i / 2 ≤ rounds setupThrows r
  | .body => i % 2 = 0 ∧ i / 2 ≤ rounds setupThrows r ∧ i / 2 < mpiSize
  | .setup => i % 2 = 0 ∧ i / 2 = r.val
  | .barrier => i % 2 = 0 ∧ i / 2 < rounds setupThrows r
  | .broadcast => i % 2 = 1 ∧ i / 2 < rounds setupThrows r
  | .returned => i % 2 = 0 ∧ i / 2 = mpiSize ∧ setupThrows = false
  | .threw => i % 2 = 0 ∧ i / 2 = r.val ∧ setupThrows = true

/-- A bound on the computations until the next collective or the end of the loop. -/
def Loop.work (s : Loop) : ℕ :=
  match s.pc with
  | .loopTest => 3
  | .body => 2
  | .setup => 1
  | .barrier => 0
  | .broadcast => 0
  | .returned => 0
  | .threw => 0

theorem Loop.work_le (s : Loop) : s.work ≤ 3 := by
  unfold work
  split <;> omega

section Step

variable {setupThrows : Bool} {r : Fin mpiSize} {i : ℕ} {s : Loop}

omit [NeZero mpiSize] in
theorem LoopAt.init : LoopAt setupThrows r 0 Loop.init := by
  simp [LoopAt, Loop.init]

/-- A computation keeps to the plan. -/
theorem LoopAt.compute (h : LoopAt setupThrows r i s) {event : Option Event} {next : Loop}
    (hact : throttledSetup setupThrows r s = .compute event next) :
    LoopAt setupThrows r i next ∧ next.work < s.work := by
  obtain ⟨pc, v⟩ := s
  obtain ⟨hv, hpc⟩ := h
  have hr := r.isLt
  simp only at hv hpc
  cases pc with
  | loopTest =>
    simp only [throttledSetup] at hact
    split at hact
    · obtain ⟨-, rfl⟩ := Act.compute.inj hact
      exact ⟨⟨hv, hpc.1, hpc.2, by omega⟩, by simp [Loop.work]⟩
    · obtain ⟨-, rfl⟩ := Act.compute.inj hact
      -- a rank whose setup throws does not get past its own round
      have hle := rounds_le setupThrows r
      have hthrows : setupThrows = false := by
        by_contra hne
        have hround : rounds setupThrows r = r.val := by simp [rounds, hne]
        omega
      exact ⟨⟨hv, hpc.1, by omega, hthrows⟩, by simp [Loop.work]⟩
  | body =>
    simp only [throttledSetup] at hact
    split at hact
    · obtain ⟨-, rfl⟩ := Act.compute.inj hact
      exact ⟨⟨hv, hpc.1, by omega⟩, by simp [Loop.work]⟩
    · obtain ⟨-, rfl⟩ := Act.compute.inj hact
      refine ⟨⟨hv, hpc.1, ?_⟩, by simp [Loop.work]⟩
      -- it is not this rank's turn, so even a rank whose setup throws completes the round
      have hround : rounds setupThrows r = r.val ∨ rounds setupThrows r = mpiSize := by
        unfold rounds
        split <;> simp
      show i / 2 < rounds setupThrows r
      omega
  | setup =>
    simp only [throttledSetup] at hact
    split at hact
    · next hthrows =>
      obtain ⟨-, rfl⟩ := Act.compute.inj hact
      exact ⟨⟨hv, hpc.1, hpc.2, hthrows⟩, by simp [Loop.work]⟩
    · next hthrows =>
      -- the setup returned, so the rank completes all rounds
      obtain ⟨-, rfl⟩ := Act.compute.inj hact
      have hround : rounds setupThrows r = mpiSize := by simp [rounds, hthrows]
      refine ⟨⟨hv, hpc.1, ?_⟩, by simp [Loop.work]⟩
      show i / 2 < rounds setupThrows r
      omega
  | barrier => cases hact
  | broadcast =>
    simp only [throttledSetup] at hact
    split at hact <;> cases hact
  | returned => cases hact
  | threw => cases hact

/-- The collectives of the loop. -/
theorem throttledSetup_collective {x : Collective mpiSize Payload} {next : Payload → Loop}
    (hact : (throttledSetup setupThrows r s).collective? = some (x, next)) :
    (s.pc = .barrier ∧ x = .barrier ∧ ∀ data, next data = ⟨.broadcast, s.nodeThatCanStartWarmup⟩) ∨
    (s.pc = .broadcast ∧ ∃ mine, x = .bcast 0 mine ∧
      (r = 0 → mine = [s.nodeThatCanStartWarmup + 1]) ∧
      ∀ data, next data =
        ⟨.loopTest, if r = 0 then s.nodeThatCanStartWarmup + 1 else data.headD 0⟩) := by
  obtain ⟨pc, v⟩ := s
  unfold throttledSetup at hact
  cases pc with
  | barrier =>
    obtain ⟨rfl, rfl⟩ := Prod.mk.inj (Option.some.inj hact)
    exact .inl ⟨rfl, rfl, fun _ => rfl⟩
  | broadcast =>
    right
    simp only at hact
    split at hact
    · next hroot =>
      obtain ⟨rfl, rfl⟩ := Prod.mk.inj (Option.some.inj hact)
      exact ⟨rfl, _, rfl, fun _ => rfl, fun _ => by rw [if_pos hroot]⟩
    · next hroot =>
      obtain ⟨rfl, rfl⟩ := Prod.mk.inj (Option.some.inj hact)
      exact ⟨rfl, _, rfl, fun h => absurd h hroot, fun _ => by rw [if_neg hroot]⟩
  | loopTest => simp only at hact; split at hact <;> cases hact
  | body => simp only at hact; split at hact <;> cases hact
  | setup => simp only at hact; split at hact <;> cases hact
  | returned => cases hact
  | threw => cases hact

theorem throttledSetup_halt (hact : throttledSetup setupThrows r s = .halt) :
    s.pc = .returned ∨ s.pc = .threw := by
  obtain ⟨pc, v⟩ := s
  unfold throttledSetup at hact
  cases pc with
  | returned => exact .inl rfl
  | threw => exact .inr rfl
  | barrier => cases hact
  | loopTest => simp only at hact; split at hact <;> cases hact
  | body => simp only at hact; split at hact <;> cases hact
  | setup => simp only at hact; split at hact <;> cases hact
  | broadcast => simp only at hact; split at hact <;> cases hact

/-- The collectives belong to the rounds that the rank completes. -/
theorem LoopAt.lt_of_collective (h : LoopAt setupThrows r i s) {x : Collective mpiSize Payload}
    {next : Payload → Loop}
    (hact : (throttledSetup setupThrows r s).collective? = some (x, next)) :
    i < 2 * rounds setupThrows r := by
  obtain ⟨-, hpc⟩ := h
  rcases throttledSetup_collective hact with ⟨hs, -⟩ | ⟨hs, -⟩
  all_goals
    rw [hs] at hpc
    have hround : i / 2 < rounds setupThrows r := hpc.2
    omega

/-- A collective fits the plan, and the value it hands over is the next one. -/
theorem LoopAt.collective (h : LoopAt setupThrows r i s) {x : Collective mpiSize Payload}
    {next : Payload → Loop}
    (hact : (throttledSetup setupThrows r s).collective? = some (x, next)) :
    x.Fits r (loopSched i) ∧
      ∀ v, (loopSched i : Collective mpiSize Payload).Delivers v →
        LoopAt setupThrows r (i + 1) (next v) := by
  obtain ⟨hv, hpc⟩ := h
  rcases throttledSetup_collective hact with ⟨hs, rfl, hnext⟩ | ⟨hs, mine, rfl, hmine, hnext⟩
  · rw [hs] at hpc
    rw [loopSched, if_pos hpc.1]
    refine ⟨trivial, fun data _ => ?_⟩
    rw [hnext]
    refine ⟨?_, ?_, ?_⟩
    · show s.nodeThatCanStartWarmup = ((i + 1) / 2 : ℕ)
      omega
    · omega
    · show (i + 1) / 2 < rounds setupThrows r
      have hlt : i / 2 < rounds setupThrows r := hpc.2
      omega
  · rw [hs] at hpc
    have hodd : ¬i % 2 = 0 := by omega
    rw [loopSched, if_neg hodd]
    refine ⟨⟨rfl, fun hroot => ?_⟩, ?_⟩
    · rw [hmine hroot, hv]
    · rintro data rfl
      rw [hnext]
      refine ⟨?_, ?_, ?_⟩
      · -- the root increments its counter, the others receive the same value
        show (if r = 0 then s.nodeThatCanStartWarmup + 1 else (i / 2 : ℕ) + 1) =
          ((i + 1) / 2 : ℕ)
        split <;> omega
      · omega
      · show (i + 1) / 2 ≤ rounds setupThrows r
        have hlt : i / 2 < rounds setupThrows r := hpc.2
        omega

/-- A rank ends after all rounds, or in its own round if its setup throws. -/
theorem LoopAt.halt (h : LoopAt setupThrows r i s)
    (hact : throttledSetup setupThrows r s = .halt) : i = 2 * rounds setupThrows r := by
  obtain ⟨-, hpc⟩ := h
  rcases throttledSetup_halt hact with hs | hs
  · rw [hs] at hpc
    obtain ⟨heven, hround, rfl⟩ := hpc
    simp only [rounds, Bool.false_eq_true, if_false]
    omega
  · rw [hs] at hpc
    obtain ⟨heven, hround, rfl⟩ := hpc
    simp only [rounds, if_true]
    omega

end Step

end TestBench
