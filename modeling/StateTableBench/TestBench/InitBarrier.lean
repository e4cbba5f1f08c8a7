import StateTableBench.TestBench.LeftAlone

/-!
# The init barrier

The first collective of a bench is the init barrier, between the code of a writer that sets up its
maps and the code of a reader that connects to them. Along every interleaving, and wherever the
code of the roles throws, a rank that has left this barrier knows that all ranks have entered it
(`entered_of_left`).
-/

open Spmd

namespace TestBench

variable {mpiSize : ℕ} [NeZero mpiSize]

/-- The position is in `nodeTestCycle`. -/
def Cycle.inTest : Cycle → Bool
  | .roleBegin => false
  | .initBarrier => false
  | .roleEnd => false
  | .escaped => false
  | _ => true

section Moves

variable {reach : Reach} {node : Callbacks} {r : Fin mpiSize} {s : Cycle}

/-- Where a computation leads. -/
theorem runBench_compute {event : Option Event} {next : Cycle}
    (hact : runBench reach node r s = .compute event next) :
    (s = .roleBegin ∧ next = if reach = .beforeInit then .escaped else .initBarrier) ∨
    (s = .roleEnd ∧ next = if reach = .beforeCycle then .escaped else .gather) ∨
    (s.inTest = true ∧ next.inTest = true) := by
  cases computes_of_runBench hact with
  | roleBegin => exact .inl ⟨rfl, rfl⟩
  | roleEnd => exact .inr (.inl ⟨rfl, rfl⟩)
  | setup hloop => exact .inr (.inr ⟨rfl, rfl⟩)
  | leaveLoop hhalt => exact .inr (.inr ⟨rfl, rfl⟩)
  | run => exact .inr (.inr ⟨rfl, rfl⟩)
  | shutdown => exact .inr (.inr ⟨rfl, rfl⟩)
  | postProcess => exact .inr (.inr ⟨rfl, rfl⟩)

/-- Where a collective leads. -/
theorem runBench_collective {x : Collective mpiSize Payload} {next : Payload → Cycle}
    (hact : (runBench reach node r s).collective? = some (x, next)) :
    (s = .initBarrier ∧ x = .barrier ∧ ∀ v, next v = .roleEnd) ∨
    (s.inTest = true ∧ ∀ v, (next v).inTest = true) := by
  cases enters_of_runBench hact with
  | initBarrier => exact .inl ⟨rfl, rfl, fun _ => rfl⟩
  | gather => exact .inr ⟨rfl, fun _ => rfl⟩
  | setup hloop => exact .inr ⟨rfl, fun _ => rfl⟩
  | setupDone => exact .inr ⟨rfl, fun _ => rfl⟩
  | runDone => exact .inr ⟨rfl, fun _ => rfl⟩
  | postDone => exact .inr ⟨rfl, fun _ => rfl⟩

end Moves

/-- What the position of rank `r` says about the init barrier. -/
structure AtInit (reach : Fin mpiSize → Reach) (c : Config mpiSize Cycle Payload Event)
    (r : Fin mpiSize) : Prop where
  /-- Before the barrier, or never getting there. -/
  left_eq_zero_iff : c.left r = 0 ↔ c.loc r = .roleBegin ∨ c.loc r = .initBarrier ∨
    c.loc r = .escaped ∧ reach r = .beforeInit
  reach_ne : c.loc r = .initBarrier ∨ 0 < c.left r → reach r ≠ .beforeInit
  /-- The first collective is the init barrier. -/
  first : ∀ x, (c.issued r)[0]? = some x → x = .barrier

variable {reach : Fin mpiSize → Reach} {node : Fin mpiSize → Callbacks}
variable {c c' : Config mpiSize Cycle Payload Event} {r : Fin mpiSize}

omit [NeZero mpiSize] in
theorem atInit_start (r : Fin mpiSize) : AtInit reach (.start fun _ => .roleBegin) r where
  left_eq_zero_iff := by simp [Config.start]
  reach_ne := by simp [Config.start]
  first := by simp [Config.start]

omit [NeZero mpiSize] in
theorem Cycle.ne_of_inTest {s : Cycle} (h : s.inTest = true) :
    s ≠ .roleBegin ∧ s ≠ .initBarrier ∧ s ≠ .escaped := by
  refine ⟨?_, ?_, ?_⟩
  · rintro rfl
    cases h
  · rintro rfl
    cases h
  · rintro rfl
    cases h

omit [NeZero mpiSize] in
/-- In the test cycle the init barrier is behind. -/
theorem AtInit.left_pos (h : AtInit reach c r) (hs : (c.loc r).inTest = true) : 0 < c.left r := by
  obtain ⟨hbegin, hinit, hescaped⟩ := Cycle.ne_of_inTest hs
  refine Nat.pos_of_ne_zero fun hzero => ?_
  rcases h.left_eq_zero_iff.mp hzero with hs' | hs' | ⟨hs', -⟩
  · exact hbegin hs'
  · exact hinit hs'
  · exact hescaped hs'

theorem AtInit.compute (h : AtInit reach c r) {event : Option Event} {next : Cycle}
    (hact : benchProg reach node r (c.loc r) = .compute event next) :
    AtInit reach { c with
      loc := Function.update c.loc r next
      trace := c.trace ++ (event.map (Prod.mk r)).toList } r := by
  rcases runBench_compute hact with ⟨hs, rfl⟩ | ⟨hs, rfl⟩ | ⟨hs, hnext⟩
  · -- the code of the role before the barrier may throw
    have hzero : c.left r = 0 := h.left_eq_zero_iff.mpr (.inl hs)
    refine ⟨?_, ?_, h.first⟩
    · by_cases hthrows : reach r = .beforeInit <;> simp [hzero, hthrows]
    · by_cases hthrows : reach r = .beforeInit <;> simp [hzero, hthrows]
  · -- and so may the code after it
    have hpos : c.left r ≠ 0 := by simp [h.left_eq_zero_iff, hs]
    have hne := h.reach_ne (.inr (Nat.pos_of_ne_zero hpos))
    refine ⟨?_, fun _ => hne, h.first⟩
    by_cases hthrows : reach r = .beforeCycle <;> simp [hpos, hthrows]
  · have hpos := h.left_pos hs
    have hother := Cycle.ne_of_inTest hnext
    refine ⟨?_, fun _ => h.reach_ne (.inr hpos), h.first⟩
    simp [Nat.ne_of_gt hpos, hother]

/-- The first collective is entered before any has been left. -/
theorem AtInit.enter (h : AtInit reach c r) {x : Collective mpiSize Payload}
    {next : Payload → Cycle} (hout : c.Outside r)
    (hact : (benchProg reach node r (c.loc r)).collective? = some (x, next)) :
    AtInit reach { c with issued := Function.update c.issued r (c.issued r ++ [x]) } r := by
  refine ⟨h.left_eq_zero_iff, h.reach_ne, ?_⟩
  intro y hy
  have hy' : (c.issued r ++ [x])[0]? = some y := by simpa using hy
  -- the new collective is the first one only if there was none before
  cases hissued : c.issued r with
  | nil =>
    rw [hissued, List.nil_append, List.getElem?_cons_zero, Option.some.injEq] at hy'
    subst hy'
    have hzero : c.left r = 0 := by
      have hout' : c.left r = (c.issued r).length := hout
      rw [hout', hissued, List.length_nil]
    rcases runBench_collective hact with ⟨-, hx, -⟩ | ⟨hs, -⟩
    · exact hx
    · exact absurd hzero (Nat.ne_of_gt (h.left_pos hs))
  | cons z rest =>
    rw [hissued] at hy'
    exact h.first y (by rw [hissued]; exact hy')

theorem AtInit.leave (h : AtInit reach c r) {x : Collective mpiSize Payload}
    {next : Payload → Cycle}
    (hact : (benchProg reach node r (c.loc r)).collective? = some (x, next)) (v : Payload) :
    AtInit reach { c with
      loc := Function.update c.loc r (next v)
      left := Function.update c.left r (c.left r + 1) } r := by
  have hne : reach r ≠ .beforeInit := by
    rcases runBench_collective hact with ⟨hs, -⟩ | ⟨hs, -⟩
    · exact h.reach_ne (.inl hs)
    · exact h.reach_ne (.inr (h.left_pos hs))
  have hother : next v ≠ .roleBegin ∧ next v ≠ .initBarrier ∧ next v ≠ .escaped := by
    rcases runBench_collective hact with ⟨-, -, hnext⟩ | ⟨-, hnext⟩
    · simp [hnext]
    · exact Cycle.ne_of_inTest (hnext v)
  refine ⟨?_, fun _ => hne, h.first⟩
  simp [hother]

theorem AtInit.step (h : AtInit reach c r) (hstep : StepBy (benchProg reach node) r c c') :
    AtInit reach c' r := by
  cases hstep with
  | compute _ hact => exact h.compute hact
  | enter hout hact => exact h.enter hout hact
  | leave _ hact _ => exact h.leave hact _

/-- Every rank is where its position says, along every interleaving. -/
theorem atInit_of_reachable
    (hc : Reachable (benchProg reach node) (fun _ => .roleBegin) c) : ∀ r, AtInit reach c r := by
  refine hc.inv (I := fun c => ∀ r, AtInit reach c r) (fun r => atInit_start r) ?_
  intro r c c' hall hstep q
  by_cases hq : q = r
  · subst hq
    exact (hall q).step hstep
  · -- the other ranks stay where they are
    have hq' := hall q
    refine ⟨?_, ?_, ?_⟩
    · rw [hstep.left_of_ne hq, hstep.loc_of_ne hq]
      exact hq'.left_eq_zero_iff
    · rw [hstep.left_of_ne hq, hstep.loc_of_ne hq]
      exact hq'.reach_ne
    · rw [hstep.issued_of_ne hq]
      exact hq'.first

/-- Once a rank has left the init barrier, every rank is past it or waits in it. -/
theorem entered_of_left (hc : Reachable (benchProg reach node) (fun _ => .roleBegin) c)
    {p : Fin mpiSize} (hp : 0 < c.left p) (q : Fin mpiSize) :
    0 < c.left q ∨ c.loc q = .initBarrier ∧ ¬c.Outside q := by
  have hcoh := hc.coherent
  have hat := atInit_of_reachable hc
  have hlen : 0 < (c.issued p).length := Nat.lt_of_lt_of_le hp (hcoh.left_le p)
  have hbarrier : (c.issued p)[0]? = some .barrier := by
    have hx := List.getElem?_eq_getElem hlen
    rw [hx, (hat p).first _ hx]
  have hq := hcoh.sync p 0 hp hbarrier q
  by_cases hleft : 0 < c.left q
  · exact .inl hleft
  · right
    have hzero : c.left q = 0 := Nat.eq_zero_of_not_pos hleft
    -- the barrier is issued and not left
    have hin : ¬c.Outside q := by
      intro hout
      have hout' : c.left q = (c.issued q).length := hout
      have hpos := (List.getElem?_eq_some_iff.mp hq).1
      omega
    obtain ⟨-, x, next, hact, -⟩ := (hcoh.pending q).resolve_left hin
    refine ⟨?_, hin⟩
    rcases runBench_collective hact with ⟨hs, -⟩ | ⟨hs, -⟩
    · exact hs
    · exact absurd hzero (Nat.ne_of_gt ((hat q).left_pos hs))

end TestBench
