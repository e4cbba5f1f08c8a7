import StateTableBench.MapSetBenchmark.Watchers

/-!
# The loops that wait for a map

`arpBench` and `macBench` of `LatencyBench` wait for a change after each of their writes, and
`populateArpTable` and `populateMacTable` write a number of entries and then wait until the map has
enough of them. None of them hangs because of a wake-up that is lost: `latencyBench_completes` and
`populate_completes`.

The changes of a `ReplicatedMap` are the writes of the benchmark and those of others. It may take
over several at once, and calls the watcher for each key that has changed. An entry that another one
has superseded is deleted later, which is an update without a call.

The loops over a `ReplicatedSet` are not among these: its watcher is not called if the changes of an
update cancel out, and is called before the set has its new entries.
-/

open Monitor

namespace MapSetBenchmark

/-- A `ReplicatedMap` as far as the waiting goes. -/
structure Replicated where
  /-- The writes of the benchmark that the map has not taken over yet. -/
  own : ℕ
  /-- The changes of others, or of what the benchmark did before, that are still to come. -/
  foreign : ℕ
  /-- The entries that are superseded and still to be deleted. -/
  superseded : ℕ
  /-- The number of keys. -/
  size : ℕ

/-- A write of the benchmark, on its way through ZooKeeper. -/
def Replicated.write (e : Replicated) : Replicated := { e with own := e.own + 1 }

/-- The changes that are to come. -/
def Replicated.pending (e : Replicated) : ℕ := e.own + e.foreign

/-- The map takes over some of them, its own and those of others in any order. Each supersedes at
most one entry. -/
structure Replicated.Applies (e e' : Replicated) : Prop where
  own_le : e'.own ≤ e.own
  foreign_le : e'.foreign ≤ e.foreign
  pending_lt : e'.pending < e.pending
  superseded_le : e'.superseded + e'.pending ≤ e.superseded + e.pending

/-- `ReplicatedMap`: the entries are there before the watcher is called. -/
def replicatedMap : Table Replicated where
  begins e e' calls :=
    (e.Applies e' ∧ 0 < calls) ∨
      -- the keys and their values stay as they are
      (e'.superseded < e.superseded ∧ e' = { e with superseded := e'.superseded } ∧ calls = 0)
  ends e := e

/-- The updates that are to come, with those for the entries that are superseded then. -/
def Replicated.left (e : Replicated) : ℕ := 2 * e.pending + e.superseded

/-- Each application uses up some of what is coming. -/
theorem Replicated.left_lt {e e' : Replicated} {calls : ℕ}
    (h : replicatedMap.begins e e' calls) : e'.left < e.left := by
  rcases h with ⟨happlies, -⟩ | ⟨hless, heq, -⟩
  · have hpending := happlies.pending_lt
    have hsuperseded := happlies.superseded_le
    simp only [Replicated.left]
    omega
  · rw [heq]
    simp only [Replicated.left, Replicated.pending]
    omega

/-- A write brings one more change, which weighs two. -/
theorem Replicated.left_write (e : Replicated) : e.write.left = e.left + 2 := by
  simp only [Replicated.left, Replicated.pending, Replicated.write]
  omega

/-- The positions in a loop of `LatencyBench`, with the number of rounds and of latencies. -/
inductive LatencyPc
  | loop (i latencies : ℕ)
  | written (i latencies : ℕ)
  | received (i latencies : ℕ)

/-- `arpBench` and `macBench` of `LatencyBench`: a write, a wait and a latency in each round. -/
def latencyBench (opCount : ℤ) : Client LatencyPc Replicated
  | .loop i latencies, e =>
    if (i : ℤ) < opCount then .access e.write (.written i latencies) else .finish
  | .written i latencies, _ => .waitForResult (.received i latencies)
  | .received i latencies, e => .access e (.loop (i + 1) (latencies + 1))

/-- The positions in a `populate` method. -/
inductive PopulatePc
  | fill (i : ℕ)
  /-- `waitForResult` has returned; `last` is the size that was read before, if there was one. -/
  | read (last : Option ℕ)
  | test (size : ℕ)

/-- `populateArpTable` and `populateMacTable`. The test of the loop is
`size < (FILL_RATIO * dataSize)`. -/
def populate (dataSize : ℤ) (incomplete : ℕ → Bool) : Client PopulatePc Replicated
  | .fill i, e =>
    if (i : ℤ) < dataSize then .access e.write (.fill (i + 1)) else .waitForResult (.read none)
  | .read _, e => .access e (.test e.size)
  | .test size, _ =>
    if incomplete size then .waitForResult (.read (some size)) else .finish

/-- The watcher has been told of a change, or will be. -/
def Coming (d : Shared Replicated) (t : TableState) : Prop :=
  d.updateRcvd = true ∨ 0 < d.table.pending ∨
    ∃ more, t = .calling (more + 1) ∨ t = .processChange .set more

section Coming

variable {d : Shared Replicated} {t : TableState}

/-- The map does not forget a change before the watcher is told. -/
theorem Coming.step_table (h : Coming d t) {a : Act TableState (Shared Replicated)}
    (ha : TableAct replicatedMap t d a) : Coming (a.data d) a.next := by
  cases ha with
  | update hbegins =>
    rcases hbegins with ⟨-, hcalls⟩ | ⟨-, heq, -⟩
    · obtain ⟨more, rfl⟩ := Nat.exists_eq_succ_of_ne_zero hcalls.ne'
      exact .inr (.inr ⟨more, .inl rfl⟩)
    · -- nothing has changed, and nothing is forgotten
      rw [heq]
      exact h.imp_right (.imp_right fun ⟨_, hor⟩ => by simp at hor)
  | enter => exact .inr (.inr ⟨_, .inr rfl⟩)
  | set => exact .inl rfl
  | notify => exact h.imp_right (.imp_right fun ⟨_, hor⟩ => by simp at hor)
  | exit => exact h.imp_right (.imp_right fun ⟨_, hor⟩ => by simp at hor)
  | finish => exact h.imp_right (.imp_right fun ⟨_, hor⟩ => by simp at hor)

theorem Coming.write (d : Shared Replicated) (t : TableState) :
    Coming { d with table := d.table.write } t :=
  .inr (.inl (by simp only [Replicated.pending, Replicated.write]; omega))

/-- When nothing can happen any more, nothing is coming. -/
theorem not_coming (hrcvd : d.updateRcvd = false)
    (hnone : ∀ table calls, ¬replicatedMap.begins d.table table calls) : ¬Coming d .idle := by
  rintro (htold | hpos | ⟨_, hor⟩)
  · cases hrcvd.symm.trans htold
  · exact hnone ⟨0, 0, 0, 0⟩ 1
      (.inl ⟨⟨Nat.zero_le _, Nat.zero_le _, hpos, Nat.zero_le _⟩, Nat.one_pos⟩)
  · simp at hor

end Coming

section Latencies

variable {opCount : ℤ}

/-- The writes that are to be made. -/
def LatencyPc.writes (opCount : ℤ) : LatencyPc → ℕ
  | .loop i _ => opCount.toNat - i
  | .written i _ | .received i _ => opCount.toNat - (i + 1)

/-- A latency is recorded in between. -/
def LatencyPc.rank : LatencyPc → ℕ
  | .received _ _ => 1
  | _ => 0

/-- The bench has only its operations to make. -/
theorem latencyBench_ends (opCount : ℤ) : Ends (latencyBench opCount) replicatedMap
    (fun k e => 3 * k.writes opCount + e.left) LatencyPc.rank where
  begins := fun h => Nat.add_lt_add_left (Replicated.left_lt h) _
  ends := rfl
  access := fun {k next e e'} h => by
    cases k with
    | loop i latencies =>
      rw [latencyBench] at h
      split at h
      · cases h
        left
        rw [Replicated.left_write]
        simp only [LatencyPc.writes]
        omega
      · cases h
    | written i latencies => cases h
    | received i latencies =>
      cases h
      exact .inr ⟨rfl, Nat.one_pos⟩
  call := fun {k next e} h => by
    cases k with
    | loop i latencies =>
      rw [latencyBench] at h
      split at h <;> cases h
    | written i latencies =>
      cases h
      rfl
    | received i latencies => cases h
  rank_le := fun k => by cases k <;> simp [LatencyPc.rank]

/-- There are as many latencies as rounds, and a change to come after each write. -/
def LatencyPc.Inv (opCount : ℤ) : LatencyPc → Shared Replicated → TableState → Prop
  | .loop i latencies, _, _ => latencies = i ∧ i ≤ opCount.toNat
  | .written i latencies, d, t => latencies = i ∧ i < opCount.toNat ∧ Coming d t
  | .received i latencies, _, _ => latencies = i ∧ i < opCount.toNat

/-- The change is to come until `waitForResult` is told of one. -/
def LatencyPc.Waits (opCount : ℤ) : LatencyPc → Shared Replicated → TableState → Prop
  | .received i latencies, d, t => latencies = i ∧ i < opCount.toNat ∧ Coming d t
  | _, _, _ => False

/-- How the bench and the map move on together. -/
theorem latencyBench_outline (opCount : ℤ) :
    Outline (latencyBench opCount) replicatedMap (LatencyPc.Inv opCount)
      (LatencyPc.Waits opCount) where
  access := fun {k next d t table} hI h => by
    cases k with
    | loop i latencies =>
      rw [latencyBench] at h
      split at h
      · cases h
        exact ⟨hI.1, by omega, Coming.write _ _⟩
      · cases h
    | written i latencies => cases h
    | received i latencies =>
      cases h
      exact ⟨congrArg (· + 1) hI.1, hI.2⟩
  call := fun {k next d t} hI h => by
    cases k with
    | loop i latencies =>
      rw [latencyBench] at h
      split at h <;> cases h
    | written i latencies =>
      cases h
      exact hI
    | received i latencies => cases h
  ret := fun {k d t} hW d' t' => by
    cases k with
    | received i latencies => exact ⟨hW.1, hW.2.1⟩
    | _ => exact hW.elim
  code_table := fun {k d t a} hI ha => by
    cases k with
    | written i latencies => exact ⟨hI.1, hI.2.1, hI.2.2.step_table ha⟩
    | _ => exact hI
  wait_table := fun {k d t a} hW ha => by
    cases k with
    | received i latencies => exact ⟨hW.1, hW.2.1, hW.2.2.step_table ha⟩
    | _ => exact hW.elim

/-- The loops of `LatencyBench` over a map lose no wake-up: every interleaving in which the
benchmark is not woken by nobody for ever comes to its end, and then there is a latency for each of
the operations. -/
theorem latencyBench_completes {foreign superseded size : ℕ}
    {c : Config (Local LatencyPc) (Shared Replicated)}
    (h : Reachable (program .map 0 (latencyBench opCount) replicatedMap)
      (start ⟨0, foreign, superseded, size⟩ (.loop 0 0)) c) :
    Acc (fun c' c => Step (program .map 0 (latencyBench opCount) replicatedMap) c c') c ∧
      (Stuck (program .map 0 (latencyBench opCount) replicatedMap) c →
        c.loc .bench = .code (.loop opCount.toNat opCount.toNat)) := by
  refine ⟨((latencyBench_ends opCount).wellFounded (fun hbreaks => hbreaks.2.false)).apply c,
    fun hstuck => ?_⟩
  have hstage := (latencyBench_outline opCount).stage h ⟨rfl, Nat.zero_le _⟩
  obtain ⟨⟨hidle, hnone⟩, ⟨k, hloc, hfinish⟩ | ⟨⟨k, hloc⟩, hrcvd⟩⟩ := stuck_cases h hstuck
  · rw [hloc] at hstage ⊢
    cases k with
    | loop i latencies =>
      obtain ⟨rfl, hle⟩ := hstage
      have hlast : ¬(latencies : ℤ) < opCount := fun hlt => by
        rw [latencyBench, if_pos hlt] at hfinish
        cases hfinish
      obtain rfl : latencies = opCount.toNat := by omega
      rfl
    | written i latencies => cases hfinish
    | received i latencies => cases hfinish
  · rw [hloc, hidle] at hstage
    cases k with
    | received i latencies => exact absurd hstage.2.2 (not_coming hrcvd hnone)
    | _ => exact hstage.elim

/-- Three operations on an ARP table that somebody else changes, too. -/
theorem latencyBench_completes_three :
    ∃ c, Reachable (program .map 0 (latencyBench 3) replicatedMap)
        (start ⟨0, 2, 1, 10⟩ (.loop 0 0)) c ∧
      c.loc .bench = .code (.loop 3 3) := by
  have hstart : Reachable (program .map 0 (latencyBench 3) replicatedMap)
      (start ⟨0, 2, 1, 10⟩ (.loop 0 0)) (start ⟨0, 2, 1, 10⟩ (.loop 0 0)) := .refl
  obtain ⟨c, hc, hstuck⟩ := hstart.exists_stuck (latencyBench_completes hstart).1
  exact ⟨c, hc, (latencyBench_completes hc).2 hstuck⟩

end Latencies

section Populate

variable {dataSize : ℤ} {incomplete : ℕ → Bool}

/-- The writes that are to be made. -/
def PopulatePc.writes (dataSize : ℤ) : PopulatePc → ℕ
  | .fill i => dataSize.toNat - i
  | _ => 0

/-- The size is read before it is tested. -/
def PopulatePc.rank : PopulatePc → ℕ
  | .read _ => 1
  | _ => 0

/-- The population has only its entries to write. -/
theorem populate_ends (dataSize : ℤ) (incomplete : ℕ → Bool) :
    Ends (populate dataSize incomplete) replicatedMap (fun k e => 3 * k.writes dataSize + e.left)
      PopulatePc.rank where
  begins := fun h => Nat.add_lt_add_left (Replicated.left_lt h) _
  ends := rfl
  access := fun {k next e e'} h => by
    cases k with
    | fill i =>
      rw [populate] at h
      split at h
      · cases h
        left
        rw [Replicated.left_write]
        simp only [PopulatePc.writes]
        omega
      · cases h
    | read last =>
      cases h
      exact .inr ⟨rfl, Nat.one_pos⟩
    | test size =>
      rw [populate] at h
      split at h <;> cases h
  call := fun {k next e} h => by
    cases k with
    | fill i =>
      rw [populate] at h
      split at h
      · cases h
      · cases h
        simp only [PopulatePc.writes]
        omega
    | read last => cases h
    | test size =>
      rw [populate] at h
      split at h
      · cases h
        rfl
      · cases h
  rank_le := fun k => by cases k <;> simp [PopulatePc.rank]

/-- There is a change to come after the first write, and the size that was read is the one of the
map as long as there is none to come. -/
def PopulatePc.Inv (dataSize : ℤ) (foreign : ℕ) :
    PopulatePc → Shared Replicated → TableState → Prop
  | .fill i, d, t => i ≤ dataSize.toNat ∧ (0 < i ∨ 0 < foreign → Coming d t)
  | .read _, _, _ => True
  | .test size, d, t => size = d.table.size ∨ Coming d t

/-- While `waitForResult` has not been told of a change, there is one to come, or the size is not
enough. -/
def PopulatePc.Waits (dataSize : ℤ) (foreign : ℕ) (incomplete : ℕ → Bool) :
    PopulatePc → Shared Replicated → TableState → Prop
  | .read none, d, t => 0 < dataSize ∨ 0 < foreign → Coming d t
  | .read (some size), d, t => incomplete size = true ∧ (size = d.table.size ∨ Coming d t)
  | _, _, _ => False

/-- The size does not change without a change to come. -/
theorem size_or_coming {d : Shared Replicated} {t : TableState} {size : ℕ}
    {a : Act TableState (Shared Replicated)} (h : size = d.table.size ∨ Coming d t)
    (ha : TableAct replicatedMap t d a) :
    size = (a.data d).table.size ∨ Coming (a.data d) a.next := by
  rcases h with hsize | hcoming
  · cases ha with
    | update hbegins =>
      rcases id hbegins with ⟨happlies, -⟩ | ⟨-, heq, -⟩
      · have hcoming : Coming d .idle := .inr (.inl (Nat.zero_lt_of_lt happlies.pending_lt))
        exact .inr (hcoming.step_table (.update hbegins))
      · rw [heq]
        exact .inl hsize
    | _ => exact .inl hsize
  · exact .inr (hcoming.step_table ha)

/-- How the population and the map move on together. -/
theorem populate_outline (dataSize : ℤ) (foreign : ℕ) (incomplete : ℕ → Bool) :
    Outline (populate dataSize incomplete) replicatedMap (PopulatePc.Inv dataSize foreign)
      (PopulatePc.Waits dataSize foreign incomplete) where
  access := fun {k next d t table} hI h => by
    cases k with
    | fill i =>
      rw [populate] at h
      split at h
      · cases h
        exact ⟨by omega, fun _ => Coming.write _ _⟩
      · cases h
    | read last =>
      cases h
      exact .inl rfl
    | test size =>
      rw [populate] at h
      split at h <;> cases h
  call := fun {k next d t} hI h => by
    cases k with
    | fill i =>
      rw [populate] at h
      split at h
      · cases h
      · cases h
        obtain ⟨hle, hcoming⟩ := hI
        exact fun hexpected => hcoming (hexpected.imp_left fun hpos => by omega)
    | read last => cases h
    | test size =>
      rw [populate] at h
      split at h
      next hincomplete =>
        cases h
        exact ⟨hincomplete, hI⟩
      next => cases h
  ret := fun {k d t} hW d' t' => by
    cases k with
    | read last => exact trivial
    | _ => exact hW.elim
  code_table := fun {k d t a} hI ha => by
    cases k with
    | fill i => exact ⟨hI.1, fun hexpected => (hI.2 hexpected).step_table ha⟩
    | read last => exact trivial
    | test size => exact size_or_coming hI ha
  wait_table := fun {k d t a} hW ha => by
    cases k with
    | read last =>
      cases last with
      | none => exact fun hexpected => (hW hexpected).step_table ha
      | some size => exact ⟨hW.1, size_or_coming hW.2 ha⟩
    | _ => exact hW.elim

/-- The loop of a `populate` method is left. -/
def Populated (incomplete : ℕ → Bool) (c : Config (Local PopulatePc) (Shared Replicated)) : Prop :=
  ∃ size, c.loc .bench = .code (.test size) ∧ incomplete size = false

/-- With nothing to write and nobody else who writes, the watcher is never told. -/
def Untold (d : Shared Replicated) (b : BenchState PopulatePc) (t : TableState) : Prop :=
  d.updateRcvd = false ∧ d.table.pending = 0 ∧ (t = .idle ∨ t = .calling 0) ∧
    (b = .code (.fill 0) ∨ ∃ pc, b = .waitForResult pc (.read none) ∧
      (pc = .enter ∨ pc = .test ∨ pc = .woken))

/-- So it is in every state reached. -/
theorem untold (hempty : dataSize ≤ 0) {superseded size : ℕ}
    {c : Config (Local PopulatePc) (Shared Replicated)}
    (h : Reachable (program .map 0 (populate dataSize incomplete) replicatedMap)
      (start ⟨0, 0, superseded, size⟩ (.fill 0)) c) :
    Untold c.data (c.loc .bench) (c.loc .table) := by
  refine threads_inv h ⟨rfl, rfl, .inl rfl, .inl rfl⟩ ?_ ?_
  · rintro d b t a ⟨hrcvd, hpending, ht, rfl | ⟨pc, rfl, hpc⟩⟩ ha
    · have hcall : ∀ e, populate dataSize incomplete (.fill 0) e = .waitForResult (.read none) :=
        fun e => if_neg (by simpa using hempty)
      cases ha with
      | code hnext => cases (hcall _).symm.trans hnext
      | call hnext =>
        cases (hcall _).symm.trans hnext
        exact ⟨hrcvd, hpending, ht, .inr ⟨_, rfl, .inl rfl⟩⟩
    · cases ha with
      | enter => exact ⟨hrcvd, hpending, ht, .inr ⟨_, rfl, .inr (.inl rfl)⟩⟩
      | told htold => cases hrcvd.symm.trans htold
      | wait _ => exact ⟨hrcvd, hpending, ht, .inr ⟨_, rfl, .inr (.inr rfl)⟩⟩
      | leave hbreaks => exact absurd hbreaks.2 (Nat.lt_irrefl 0)
      | retest _ => exact ⟨hrcvd, hpending, ht, .inr ⟨_, rfl, .inr (.inl rfl)⟩⟩
      | reset => simp at hpc
      | exit => simp at hpc
  · rintro d b t a ⟨hrcvd, hpending, rfl | rfl, hb⟩ ha
    · cases ha with
      | update hbegins =>
        rcases hbegins with ⟨happlies, -⟩ | ⟨-, heq, rfl⟩
        · exact absurd happlies.pending_lt (by omega)
        · -- only superseded entries are deleted
          refine ⟨hrcvd, ?_, .inr rfl, hb⟩
          show Replicated.pending _ = 0
          rw [heq]
          exact hpending
    · cases ha with
      | finish => exact ⟨hrcvd, hpending, .inl rfl, hb⟩

/-- The `populate` methods of the maps lose no wake-up either: when an interleaving has come to its
end, the loop is left or the map has too few entries, unless there was nothing to write, and nobody
else who writes. Then they wait for ever. -/
theorem populate_completes {foreign superseded size : ℕ}
    {c : Config (Local PopulatePc) (Shared Replicated)}
    (h : Reachable (program .map 0 (populate dataSize incomplete) replicatedMap)
      (start ⟨0, foreign, superseded, size⟩ (.fill 0)) c) :
    Acc (fun c' c => Step (program .map 0 (populate dataSize incomplete) replicatedMap) c c') c ∧
      (Stuck (program .map 0 (populate dataSize incomplete) replicatedMap) c →
        Populated incomplete c ∨ incomplete c.data.table.size = true ∨
          (dataSize ≤ 0 ∧ foreign = 0)) ∧
      (dataSize ≤ 0 ∧ foreign = 0 → ¬Populated incomplete c) := by
  refine ⟨((populate_ends dataSize incomplete).wellFounded
    (fun hbreaks => hbreaks.2.false)).apply c, fun hstuck => ?_, ?_⟩
  · have hstage := (populate_outline dataSize foreign incomplete).stage h
      ⟨Nat.zero_le _, fun hexpected =>
        .inr (.inl (by simp only [Replicated.pending]; omega))⟩
    obtain ⟨⟨hidle, hnone⟩, ⟨k, hloc, hfinish⟩ | ⟨⟨k, hloc⟩, hrcvd⟩⟩ := stuck_cases h hstuck
    · cases k with
      | fill i =>
        rw [populate] at hfinish
        split at hfinish <;> cases hfinish
      | read last => cases hfinish
      | test size =>
        rw [populate] at hfinish
        split at hfinish
        next => cases hfinish
        next hcomplete => exact .inl ⟨size, hloc, by simpa using hcomplete⟩
    · rw [hloc, hidle] at hstage
      have hnot := not_coming hrcvd hnone
      cases k with
      | read last =>
        cases last with
        | none =>
          have hunexpected : ¬(0 < dataSize ∨ 0 < foreign) := fun hexpected =>
            hnot (hstage hexpected)
          exact .inr (.inr (by omega))
        | some size =>
          obtain ⟨hincomplete, hsize⟩ := hstage
          exact .inr (.inl (hsize.resolve_right hnot ▸ hincomplete))
      | _ => exact hstage.elim
  · rintro ⟨hempty, rfl⟩ ⟨size, hloc, -⟩
    obtain ⟨-, -, -, hb | ⟨pc, hb, -⟩⟩ := untold hempty h
    · cases hloc.symm.trans hb
    · cases hloc.symm.trans hb

/-- With no entries to write there is a run to the end, and the loop is not left in it. -/
theorem populate_completes_empty :
    ∃ c, Reachable (program .map 0 (populate 0 fun _ => false) replicatedMap)
        (start ⟨0, 0, 1, 0⟩ (.fill 0)) c ∧
      Stuck (program .map 0 (populate 0 fun _ => false) replicatedMap) c ∧
      ¬Populated (fun _ => false) c := by
  have hstart : Reachable (program .map 0 (populate 0 fun _ => false) replicatedMap)
      (start ⟨0, 0, 1, 0⟩ (.fill 0)) (start ⟨0, 0, 1, 0⟩ (.fill 0)) := .refl
  obtain ⟨c, hc, hstuck⟩ := hstart.exists_stuck (populate_completes hstart).1
  exact ⟨c, hc, hstuck, (populate_completes hc).2.2 ⟨le_rfl, rfl⟩⟩

end Populate

end MapSetBenchmark
