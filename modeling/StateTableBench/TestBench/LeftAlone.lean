import StateTableBench.TestBench.NodeTestCycle

/-!
# Which runs leave a rank alone

All ranks issue the same collectives exactly when there is only one rank, or the code of all roles
gets equally far and no `setup()` throws where it is run.

If so, all ranks follow one plan to its end (`noRankLeftAlone_of_alike`). If not, they follow it
up to the point where the first of them departs from it (`alike_of_noRankLeftAlone`): a rank whose
role throws comes to its end while others enter the next barrier, and a rank whose `setup()` throws
is at the barrier after `run()` while the others are at the broadcast of the round.
-/

open Spmd

namespace TestBench

variable {mpiSize : ℕ} [NeZero mpiSize]
variable (reach : Fin mpiSize → Reach) (node : Fin mpiSize → Callbacks)

/-- All ranks together. -/
def benchProg (r : Fin mpiSize) : Cycle → Act mpiSize Cycle Payload Event :=
  runBench (reach r) (node r) r

/-- The plan of the test cycle, up to `len` collectives. -/
def cyclePlan (len : ℕ) : Plan mpiSize Cycle Payload where
  sched := cycleSched
  len
  At r := CycleAt (reach r) (node r) r
  work := Cycle.work
  bound := 4

variable {reach node}

/-- The ranks follow the plan as long as none of them has come to its end or has left the loop
early. -/
theorem follows_cyclePlan {len : ℕ} (hend : ∀ r, len ≤ collectives (reach r) (node r) r)
    (hloop : ∀ r, len ≤ 2 * rounds (node r).setupThrows r + 3 ∨
      rounds (node r).setupThrows r = mpiSize) :
    Follows (benchProg reach node) (fun _ => .roleBegin) (cyclePlan reach node len) where
  start _ := rfl
  compute _ hat hact := hat.compute hact
  collective {r i s x next} hi hat hact := by
    have hlt : i < len := hi
    refine hat.collective ?_ hact
    rcases hloop r with h | h
    · exact .inl (by omega)
    · exact .inr h
  not_halt {r i s} hi hat hact := by
    have hlt : i < len := hi
    have hstop := hat.halt hact
    have hr := hend r
    omega
  work_le := Cycle.work_le

/-- If all ranks come to their end with the plan, it is complete. -/
theorem complete_cyclePlan {len : ℕ} (hend : ∀ r, len = collectives (reach r) (node r) r) :
    Complete (benchProg reach node) (cyclePlan reach node len) := by
  intro r s hat
  by_contra hne
  obtain ⟨⟨x, next⟩, hact⟩ := Option.ne_none_iff_exists'.mp hne
  have hlt : len < collectives (reach r) (node r) r := CycleAt.lt_of_collective hat hact
  have hr := hend r
  omega

/-- If all ranks issue equally many collectives, and none leaves the loop early, nobody is left
alone. -/
theorem noRankLeftAlone_of_collectives (len : ℕ)
    (hend : ∀ r, len = collectives (reach r) (node r) r)
    (hloop : ∀ r, reach r = .cycle → (node r).setupThrows = false) :
    NoRankLeftAlone (benchProg reach node) (fun _ => .roleBegin) := by
  refine Follows.noRankLeftAlone (follows_cyclePlan (fun r => (hend r).le) fun r => ?_)
    (complete_cyclePlan hend)
  have hr := hend r
  unfold collectives at hr
  cases hrole : reach r with
  | beforeInit => simp only [hrole] at hr; omega
  | beforeCycle => simp only [hrole] at hr; omega
  | cycle => exact .inr (by simp [rounds, hloop r hrole])

/-! ## Where the ranks part ways -/

section PartWays

variable {p q : Fin mpiSize} {s : Cycle}

/-- A rank that is not about to compute, before the init barrier. -/
theorem runBench_of_at_zero (hat : CycleAt (reach p) (node p) p 0 s)
    (hstop : ∀ event next, benchProg reach node p s ≠ .compute event next) :
    (reach p = .beforeInit ∧ s = .escaped) ∨ (reach p ≠ .beforeInit ∧ s = .initBarrier) := by
  cases s with
  | roleBegin => exact absurd rfl (hstop _ _)
  | initBarrier => exact .inr ⟨hat.2, rfl⟩
  | escaped =>
    rcases hat with ⟨-, hreach⟩ | ⟨h, -⟩
    · exact .inl ⟨hreach, rfl⟩
    · omega
  | setup loop =>
    have htwo := hat.1
    omega
  | roleEnd => exact absurd hat.1 (by omega)
  | gather => exact absurd hat.1 (by omega)
  | setupDone => exact absurd hat.1 (by omega)
  | run => exact absurd hat.1 (by omega)
  | runDone => exact absurd hat.1 (by omega)
  | shutdown => exact absurd hat.1 (by omega)
  | postProcess => exact absurd hat.1 (by omega)
  | postDone => exact absurd hat.1 (by omega)
  | finished => exact absurd hat.1 (by omega)

/-- A rank that is not about to compute, between the init barrier and the test cycle. -/
theorem runBench_of_at_one (hat : CycleAt (reach p) (node p) p 1 s)
    (hstop : ∀ event next, benchProg reach node p s ≠ .compute event next) :
    (reach p = .beforeCycle ∧ s = .escaped) ∨ (reach p = .cycle ∧ s = .gather) := by
  cases s with
  | roleEnd => exact absurd rfl (hstop _ _)
  | gather => exact .inr ⟨hat.2, rfl⟩
  | escaped =>
    rcases hat with ⟨h, -⟩ | ⟨-, hreach⟩
    · omega
    · exact .inl ⟨hreach, rfl⟩
  | setup loop =>
    have htwo := hat.1
    omega
  | roleBegin => exact absurd hat (by simp [CycleAt])
  | initBarrier => exact absurd hat.1 (by omega)
  | setupDone => exact absurd hat.1 (by omega)
  | run => exact absurd hat.1 (by omega)
  | runDone => exact absurd hat.1 (by omega)
  | shutdown => exact absurd hat.1 (by omega)
  | postProcess => exact absurd hat.1 (by omega)
  | postDone => exact absurd hat.1 (by omega)
  | finished => exact absurd hat.1 (by omega)

/-- A rank that is not about to compute, after the barrier of round `k`: at the broadcast of the
round, or after `run()` if it has left the loop in this round. -/
theorem runBench_of_at_broadcast {k : ℕ}
    (hk : k ≤ rounds (node p).setupThrows p)
    (hat : CycleAt (reach p) (node p) p (2 * k + 3) s)
    (hstop : ∀ event next, benchProg reach node p s ≠ .compute event next) :
    (k = rounds (node p).setupThrows p ∧ s = .runDone) ∨
      (k < rounds (node p).setupThrows p ∧ ∃ loop, s = .setup loop ∧ loop.pc = .broadcast) := by
  cases s with
  | run => exact absurd rfl (hstop _ _)
  -- the barrier that the rank has left was the one after the setup
  | runDone => exact .inl ⟨by have := hat.1; omega, rfl⟩
  | setup loop =>
    obtain ⟨-, ⟨-, hpc⟩, -⟩ := hat
    have hodd : (2 * k + 3 - 2) % 2 = 1 := by omega
    have hne : ¬(2 * k + 3 - 2) % 2 = 0 := by omega
    obtain ⟨pc, v⟩ := loop
    cases pc with
    | broadcast => exact .inr ⟨by have := hpc.2; omega, _, rfl, rfl⟩
    | loopTest => exact absurd hpc.1 hne
    | body => exact absurd hpc.1 hne
    | setup => exact absurd hpc.1 hne
    | barrier => exact absurd hpc.1 hne
    | returned => exact absurd hpc.1 hne
    | threw => exact absurd hpc.1 hne
  | escaped => exact absurd hat (by simp [CycleAt])
  | roleBegin => exact absurd hat (by simp [CycleAt])
  | roleEnd => exact absurd hat.1 (by omega)
  | initBarrier => exact absurd hat.1 (by omega)
  | gather => exact absurd hat.1 (by omega)
  | setupDone => exact absurd hat.1 (by omega)
  | shutdown => exact absurd hat.1 (by omega)
  | postProcess => exact absurd hat.1 (by omega)
  | postDone => exact absurd hat.1 (by omega)
  | finished => exact absurd hat.1 (by omega)

/-- At the broadcast of a round a rank enters a broadcast. -/
theorem collective?_of_broadcast {loop : Loop} (hpc : loop.pc = .broadcast) :
    ∃ x next, (benchProg reach node q (.setup loop)).collective? = some (x, next) ∧
      x.kind = some 0 := by
  obtain ⟨pc, v⟩ := loop
  simp only at hpc
  subst hpc
  simp only [benchProg, runBench, throttledSetup]
  split
  · exact ⟨_, _, rfl, rfl⟩
  · exact ⟨_, _, rfl, rfl⟩

/-- A role that throws before the init barrier leaves the others alone in it. -/
theorem not_noRankLeftAlone_of_beforeInit (hp : reach p = .beforeInit)
    (hq : reach q ≠ .beforeInit) :
    ¬NoRankLeftAlone (benchProg reach node) (fun _ => .roleBegin) := by
  have hf : Follows (benchProg reach node) (fun _ => .roleBegin) (cyclePlan reach node 0) :=
    follows_cyclePlan (fun _ => Nat.zero_le _) fun _ => .inl (Nat.zero_le _)
  have hpq : p ≠ q := by
    rintro rfl
    exact hq hp
  refine hf.not_noRankLeftAlone_of_halt hpq ?_ ?_
  · intro s hat hstop
    rcases runBench_of_at_zero hat hstop with ⟨-, rfl⟩ | ⟨hne, -⟩
    · rfl
    · exact absurd hp hne
  · intro s hat hstop
    rcases runBench_of_at_zero hat hstop with ⟨hin, -⟩ | ⟨-, rfl⟩
    · exact absurd hin hq
    · exact ⟨_, _, rfl⟩

/-- A role that throws after the init barrier leaves the others alone in the next one. -/
theorem not_noRankLeftAlone_of_beforeCycle (hinit : ∀ r, reach r ≠ .beforeInit)
    (hp : reach p = .beforeCycle) (hq : reach q ≠ .beforeCycle) :
    ¬NoRankLeftAlone (benchProg reach node) (fun _ => .roleBegin) := by
  have hone : ∀ r, 1 ≤ collectives (reach r) (node r) r := by
    intro r
    unfold collectives
    cases hrole : reach r with
    | beforeInit => exact absurd hrole (hinit r)
    | beforeCycle => exact le_rfl
    | cycle => exact Nat.le_add_left 1 _
  have hf : Follows (benchProg reach node) (fun _ => .roleBegin) (cyclePlan reach node 1) :=
    follows_cyclePlan hone fun _ => .inl (by omega)
  have hpq : p ≠ q := by
    rintro rfl
    exact hq hp
  refine hf.not_noRankLeftAlone_of_halt hpq ?_ ?_
  · intro s hat hstop
    rcases runBench_of_at_one hat hstop with ⟨-, rfl⟩ | ⟨hcycle, -⟩
    · rfl
    · cases hp.symm.trans hcycle
  · intro s hat hstop
    rcases runBench_of_at_one hat hstop with ⟨hcycle, -⟩ | ⟨-, rfl⟩
    · exact absurd hcycle hq
    · exact ⟨_, _, rfl⟩

/-- The first rank whose setup throws is at the barrier after `run()` while the others are at the
broadcast of its round. -/
theorem not_noRankLeftAlone_of_setupThrows (hcycle : ∀ r, reach r = .cycle)
    (hp : (node p).setupThrows = true) (hmin : ∀ r, (node r).setupThrows = true → p ≤ r)
    (hpq : p ≠ q) : ¬NoRankLeftAlone (benchProg reach node) (fun _ => .roleBegin) := by
  have hroundsp : rounds (node p).setupThrows p = p.val := by simp [rounds, hp]
  have hle : ∀ r, p.val ≤ rounds (node r).setupThrows r := by
    intro r
    unfold rounds
    split
    · next hr => exact hmin r hr
    · exact p.isLt.le
  have hlt : p.val < rounds (node q).setupThrows q := by
    unfold rounds
    split
    · next hq => exact lt_of_le_of_ne (hmin q hq) fun h => hpq (Fin.ext h)
    · exact p.isLt
  -- up to the barrier of round `p` all ranks are on the plan
  have hf : Follows (benchProg reach node) (fun _ => .roleBegin)
      (cyclePlan reach node (2 * p.val + 3)) := by
    refine follows_cyclePlan (fun r => ?_) fun r => .inl ?_
    · rw [hcycle r]
      have hr := hle r
      show _ ≤ 2 * rounds (node r).setupThrows r + 5
      omega
    · have hr := hle r
      omega
  refine hf.not_noRankLeftAlone_of_kind_ne hpq (k := none) (l := some 0) (by simp) ?_ ?_
  · intro s hat hstop
    rcases runBench_of_at_broadcast (hle p) hat hstop with ⟨-, rfl⟩ | ⟨hlt', -⟩
    · exact ⟨_, _, rfl, rfl⟩
    · omega
  · intro s hat hstop
    rcases runBench_of_at_broadcast (hle q) hat hstop with ⟨heq, -⟩ | ⟨-, loop, rfl, hpc⟩
    · omega
    · exact collective?_of_broadcast hpc

end PartWays

/-- Ranks that issue the same collectives get equally far with their roles and have no `setup()`
that throws, or there is only one of them. -/
theorem alike_of_noRankLeftAlone
    (halone : NoRankLeftAlone (benchProg reach node) (fun _ => .roleBegin)) :
    mpiSize = 1 ∨ (∀ r, reach r = .beforeInit) ∨ (∀ r, reach r = .beforeCycle) ∨
      ∀ r, reach r = .cycle ∧ (node r).setupThrows = false := by
  by_contra hcond
  -- nobody throws before the init barrier, and then nobody before the cycle
  simp only [not_or, not_forall] at hcond
  obtain ⟨hsize, ⟨q₁, hq₁⟩, ⟨q₂, hq₂⟩, q₃, hq₃⟩ := hcond
  have hinit : ∀ r, reach r ≠ .beforeInit := fun p hp =>
    not_noRankLeftAlone_of_beforeInit hp hq₁ halone
  have hcycle : ∀ r, reach r = .cycle := by
    intro r
    cases hr : reach r with
    | beforeInit => exact absurd hr (hinit r)
    | beforeCycle => exact absurd halone (not_noRankLeftAlone_of_beforeCycle hinit hr hq₂)
    | cycle => rfl
  have hthrows : (node q₃).setupThrows = true := by
    rw [← Bool.not_eq_false]
    exact fun h => hq₃ ⟨hcycle q₃, h⟩
  -- the first rank that throws, and any other rank
  obtain ⟨p, hp, hmin⟩ := Finset.exists_min_image
    (Finset.univ.filter fun r => (node r).setupThrows = true) id ⟨q₃, by simpa using hthrows⟩
  have hpos := Nat.pos_of_neZero mpiSize
  have : Nontrivial (Fin mpiSize) := Fin.nontrivial_iff_two_le.mpr (by omega)
  obtain ⟨q, hq⟩ := exists_ne p
  exact not_noRankLeftAlone_of_setupThrows hcycle (by simpa using hp)
    (fun r hr => hmin r (by simpa using hr)) hq.symm halone

/-- A single rank, or ranks whose roles get equally far with no `setup()` that throws, issue the
same collectives. -/
theorem noRankLeftAlone_of_alike
    (h : mpiSize = 1 ∨ (∀ r, reach r = .beforeInit) ∨ (∀ r, reach r = .beforeCycle) ∨
      ∀ r, reach r = .cycle ∧ (node r).setupThrows = false) :
    NoRankLeftAlone (benchProg reach node) (fun _ => .roleBegin) := by
  -- in each case all ranks issue the same number of collectives
  rcases h with hsize | hinit | hrole | hall
  · have : Subsingleton (Fin mpiSize) := by
      rw [hsize]
      infer_instance
    exact noRankLeftAlone_of_subsingleton
  · refine noRankLeftAlone_of_collectives 0 (fun r => ?_) fun r hr => ?_
    · rw [hinit r]
      rfl
    · cases (hinit r).symm.trans hr
  · refine noRankLeftAlone_of_collectives 1 (fun r => ?_) fun r hr => ?_
    · rw [hrole r]
      rfl
    · cases (hrole r).symm.trans hr
  · refine noRankLeftAlone_of_collectives (2 * mpiSize + 5) (fun r => ?_) fun r _ => ?_
    · rw [(hall r).1]
      simp [collectives, rounds, (hall r).2]
    · exact (hall r).2

end TestBench
