import StateTableBench.Monitor.Progress
import Mathlib.Data.List.Pairwise
import Mathlib.Order.WellFounded

/-!
# Waiting for a replicated table

The thread of a benchmark writes to a table that is replicated through ZooKeeper, and waits until
its watcher is told of a change. The table has a thread of its own, which takes over changes, of the
benchmark or of others, and calls the watcher for them.

* `Watcher` — `ReplicatedMapWatcher` and `ReplicatedSetWatcher`;
* `Table` — the updates of a table; a map has its new entries before it calls the watcher, and a set
  has them only afterwards;
* `WaitPc`, `ChangePc` — the positions in `waitForResult`, and in `processChange` or `process`;
* `Client` — the code of a benchmark between its calls of `waitForResult`;
* `program` — the two threads;
* `returns_justified_iff` — `waitForResult` returns only after a change that no earlier call has
  returned for, unless it is the one of a map with a timeout;
* `stuck_cases` — where the threads come to a standstill;
* `Ends.wellFounded` — why they do.
-/

open Monitor

namespace MapSetBenchmark

/-- The watchers of replicated maps and of replicated sets. -/
inductive Watcher
  | map
  | set
deriving DecidableEq

/-- The position in `waitForResult`. -/
inductive WaitPc
  /-- At the beginning of the `synchronized` block. -/
  | enter
  /-- At `while (!updateRcvd)`. -/
  | test
  /-- After `wait(timeout)`. -/
  | woken
  /-- At `updateRcvd = false`. -/
  | reset
  /-- At the end of the `synchronized` block. -/
  | exit
deriving DecidableEq

/-- The position in the `synchronized` block of `processChange`, or of `process`. -/
inductive ChangePc
  /-- At `updateRcvd = true`. -/
  | set
  | notify
  | exit
deriving DecidableEq

/-- A replicated table with states `E`. -/
structure Table (E : Type) where
  /-- An update begins, with a number of calls of the watcher to come. -/
  begins : E → E → ℕ → Prop
  /-- What the table does after these calls. -/
  ends : E → E

/-- What the two threads share: the field of the watcher, and `E` for the table. -/
structure Shared (E : Type) where
  updateRcvd : Bool
  table : E
  /-- The number of calls of `processChange`, or of `process`. -/
  changes : ℕ
  /-- For each call of `waitForResult` that returns, the number of changes until then. -/
  returns : List ℕ

/-- What the code of a benchmark does next, with positions `K`. -/
inductive Next (K E : Type)
  /-- It accesses the table. -/
  | access (table : E) (next : K)
  /-- It calls `waitForResult`, which returns to `next`. -/
  | waitForResult (next : K)
  | finish

/-- The code of a benchmark between its calls of `waitForResult`. -/
abbrev Client (K E : Type) : Type := K → E → Next K E

/-- The thread of the benchmark, and the one that calls the watcher. -/
inductive Thread
  | bench
  | table
deriving DecidableEq

/-- Where the thread of the benchmark is. -/
inductive BenchState (K : Type)
  | code (k : K)
  | waitForResult (pc : WaitPc) (k : K)

/-- Where the thread of the table is. -/
inductive TableState
  | idle
  /-- In an update, with so many calls of the watcher to make. -/
  | calling (calls : ℕ)
  /-- In one of them, with `more` to make after it. -/
  | processChange (pc : ChangePc) (more : ℕ)

/-- The local states of the threads. -/
abbrev Local (K : Type) : Thread → Type
  | .bench => BenchState K
  | .table => TableState

variable {K E : Type}

/-- `waitForResult` leaves its loop when `wait(timeout)` returns: the one of a map does for a
positive timeout. -/
def Breaks (watcher : Watcher) (timeout : ℕ) : Prop := watcher = .map ∧ 0 < timeout

/-- What the thread of the benchmark does next. -/
inductive BenchAct (watcher : Watcher) (timeout : ℕ) (client : Client K E) :
    BenchState K → Shared E → Act (BenchState K) (Shared E) → Prop
  | code {d : Shared E} {k next : K} {table : E} (h : client k d.table = .access table next) :
      BenchAct watcher timeout client (.code k) d (.access { d with table := table } (.code next))
  | call {d : Shared E} {k next : K} (h : client k d.table = .waitForResult next) :
      BenchAct watcher timeout client (.code k) d (.access d (.waitForResult .enter next))
  | enter {d : Shared E} {k : K} :
      BenchAct watcher timeout client (.waitForResult .enter k) d (.enter (.waitForResult .test k))
  -- the loop is left if the watcher has been told, and else the thread waits
  | told {d : Shared E} {k : K} (h : d.updateRcvd = true) :
      BenchAct watcher timeout client (.waitForResult .test k) d
        (.access d (.waitForResult .reset k))
  | wait {d : Shared E} {k : K} (h : d.updateRcvd = false) :
      BenchAct watcher timeout client (.waitForResult .test k) d (.wait (.waitForResult .woken k))
  | leave {d : Shared E} {k : K} (h : Breaks watcher timeout) :
      BenchAct watcher timeout client (.waitForResult .woken k) d
        (.access d (.waitForResult .reset k))
  | retest {d : Shared E} {k : K} (h : ¬Breaks watcher timeout) :
      BenchAct watcher timeout client (.waitForResult .woken k) d
        (.access d (.waitForResult .test k))
  | reset {d : Shared E} {k : K} :
      BenchAct watcher timeout client (.waitForResult .reset k) d
        (.access { d with updateRcvd := false, returns := d.returns ++ [d.changes] }
          (.waitForResult .exit k))
  | exit {d : Shared E} {k : K} :
      BenchAct watcher timeout client (.waitForResult .exit k) d (.exit (.code k))

/-- What the thread of the table may do next: an update with its calls of the watcher. -/
inductive TableAct (T : Table E) :
    TableState → Shared E → Act TableState (Shared E) → Prop
  | update {d : Shared E} {table : E} {calls : ℕ} (h : T.begins d.table table calls) :
      TableAct T .idle d (.access { d with table := table } (.calling calls))
  | enter {d : Shared E} {more : ℕ} :
      TableAct T (.calling (more + 1)) d (.enter (.processChange .set more))
  | set {d : Shared E} {more : ℕ} :
      TableAct T (.processChange .set more) d
        (.access { d with updateRcvd := true, changes := d.changes + 1 }
          (.processChange .notify more))
  | notify {d : Shared E} {more : ℕ} :
      TableAct T (.processChange .notify more) d (.notify (.processChange .exit more))
  | exit {d : Shared E} {more : ℕ} :
      TableAct T (.processChange .exit more) d (.exit (.calling more))
  | finish {d : Shared E} :
      TableAct T (.calling 0) d (.access { d with table := T.ends d.table } .idle)

/-- The two threads. -/
def program (watcher : Watcher) (timeout : ℕ) (client : Client K E) (T : Table E) :
    Program (Local K) (Shared E)
  | .bench, s, d, a => BenchAct watcher timeout client s d a
  | .table, s, d, a => TableAct T s d a

/-- The threads at their beginning. -/
def start (table : E) (k : K) : Config (Local K) (Shared E) :=
  .start ⟨false, table, 0, []⟩ fun
    | .bench => .code k
    | .table => .idle

section Monitor

/-- A thread is in the `synchronized` block. -/
def inside : ∀ t, Local K t → Prop
  | .bench, .code _ => False
  | .bench, .waitForResult pc _ => pc ≠ .enter
  | .table, .idle => False
  | .table, .calling _ => False
  | .table, .processChange _ _ => True

/-- The watcher has been told of a change, and `notify` has not been called yet. -/
def notifies : ∀ t, Local K t → Prop
  | .bench, _ => False
  | .table, .idle => False
  | .table, .calling _ => False
  | .table, .processChange pc _ => pc = .notify

variable {watcher : Watcher} {timeout : ℕ} {client : Client K E} {T : Table E}

/-- Only who is inside the monitor waits, notifies and leaves it. -/
theorem disciplined : Disciplined (program watcher timeout client T) inside where
  access := fun {t _ _ _ _} h => by
    cases t <;> cases h <;> simp [inside]
  enter := fun {t _ _ _} h => by
    cases t <;> cases h <;> simp [inside]
  exit := fun {t _ _ _} h => by
    cases t <;> cases h <;> simp [inside]
  wait := fun {t _ _ _} h => by
    cases t <;> cases h
    simp [inside]
  notify := fun {t _ _ _} h => by
    cases t <;> cases h
    simp [inside]

/-- The one thread that waits is the benchmark, and the table notifies it of each change. -/
theorem announces : Announces (program watcher timeout client T) inside
    (fun d => d.updateRcvd = true) .bench notifies where
  wait := fun {t _ _ _} h => by
    cases t <;> cases h
    simp_all
  access := fun {t _ _ _ _} h hP => by
    cases t <;> cases h <;> simp_all [notifies]
  exit := fun {t _ _ _} h => by
    cases t <;> cases h <;> simp [notifies]
  inside_of_due := fun {t s} h => by
    cases t with
    | bench => exact h.elim
    | table =>
      cases s with
      | idle => exact h.elim
      | calling calls => exact h.elim
      | processChange pc more => exact trivial

/-- In `waitForResult` there is always something to do. -/
theorem exists_benchAct (pc : WaitPc) (k : K) (d : Shared E) :
    ∃ a, BenchAct watcher timeout client (.waitForResult pc k) d a := by
  cases pc with
  | enter => exact ⟨_, .enter⟩
  | test =>
    cases hrcvd : d.updateRcvd with
    | true => exact ⟨_, .told hrcvd⟩
    | false => exact ⟨_, .wait hrcvd⟩
  | woken =>
    by_cases hbreaks : Breaks watcher timeout
    · exact ⟨_, .leave hbreaks⟩
    · exact ⟨_, .retest hbreaks⟩
  | reset => exact ⟨_, .reset⟩
  | exit => exact ⟨_, .exit⟩

/-- And in an update of the table. -/
theorem exists_tableAct {s : TableState} (hs : s ≠ .idle) (d : Shared E) :
    ∃ a, TableAct T s d a := by
  cases s with
  | idle => exact absurd rfl hs
  | calling calls =>
    cases calls with
    | zero => exact ⟨_, .finish⟩
    | succ more => exact ⟨_, .enter⟩
  | processChange pc more =>
    cases pc with
    | set => exact ⟨_, .set⟩
    | notify => exact ⟨_, .notify⟩
    | exit => exact ⟨_, .exit⟩

/-- Inside the monitor there is always a next action. -/
theorem exists_act (t : Thread) (s : Local K t) (d : Shared E) (h : inside t s) :
    ∃ a, program watcher timeout client T t s d a := by
  cases t with
  | bench =>
    cases s with
    | code k => exact h.elim
    | waitForResult pc k => exact exists_benchAct pc k d
  | table =>
    refine exists_tableAct ?_ d
    rintro rfl
    exact h

variable {table : E} {k : K} {c : Config (Local K) (Shared E)}

/-- What the acts of the two threads keep, on the data and on where they are. -/
theorem threads_inv {J : Shared E → BenchState K → TableState → Prop}
    (h : Reachable (program watcher timeout client T) (start table k) c)
    (hstart : J ⟨false, table, 0, []⟩ (.code k) .idle)
    (hbench : ∀ d b t a, J d b t → BenchAct watcher timeout client b d a → J (a.data d) a.next t)
    (htable : ∀ d b t a, J d b t → TableAct T t d a → J (a.data d) b a.next) :
    J c.data (c.loc .bench) (c.loc .table) := by
  refine h.localInv (J := fun d loc => J d (loc .bench) (loc .table)) hstart
    fun d loc t a hJ ha => ?_
  cases t with
  | bench => exact hbench _ _ _ _ hJ ha
  | table => exact htable _ _ _ _ hJ ha

/-- What holds at the positions of the code, `I`, and while `waitForResult` has not been told of a
change, `W`. -/
structure Outline (client : Client K E) (T : Table E)
    (I W : K → Shared E → TableState → Prop) : Prop where
  access : ∀ {k next d t table}, I k d t → client k d.table = .access table next →
    I next { d with table := table } t
  call : ∀ {k next d t}, I k d t → client k d.table = .waitForResult next → W next d t
  -- anything may have happened until `waitForResult` returns
  ret : ∀ {k d t}, W k d t → ∀ d' t', I k d' t'
  code_table : ∀ {k d t a}, I k d t → TableAct T t d a → I k (a.data d) a.next
  wait_table : ∀ {k d t a}, W k d t → TableAct T t d a → W k (a.data d) a.next

/-- What the outline says of a local state of the benchmark. -/
def Stage (I W : K → Shared E → TableState → Prop) (d : Shared E) (t : TableState) :
    BenchState K → Prop
  | .code k => I k d t
  | .waitForResult .enter k | .waitForResult .test k | .waitForResult .woken k => W k d t
  | .waitForResult .reset k | .waitForResult .exit k => ∀ d' t', I k d' t'

/-- An outline holds throughout. -/
theorem Outline.stage {I W : K → Shared E → TableState → Prop}
    (ho : Outline client T I W)
    (h : Reachable (program watcher timeout client T) (start table k) c)
    (hstart : I k ⟨false, table, 0, []⟩ .idle) :
    Stage I W c.data (c.loc .table) (c.loc .bench) := by
  refine threads_inv (J := fun d b t => Stage I W d t b) h hstart (fun d b t a hJ ha => ?_)
    fun d b t a hJ ha => ?_
  · cases ha with
    | code hnext => exact ho.access hJ hnext
    | call hnext => exact ho.call hJ hnext
    | enter => exact hJ
    | told _ => exact ho.ret hJ
    | wait _ => exact hJ
    | leave _ => exact ho.ret hJ
    | retest _ => exact hJ
    | reset => exact hJ
    | exit => exact hJ _ _
  · cases b with
    | code k => exact ho.code_table hJ ha
    | waitForResult pc k =>
      cases pc with
      | enter => exact ho.wait_table hJ ha
      | test => exact ho.wait_table hJ ha
      | woken => exact ho.wait_table hJ ha
      | reset => exact hJ
      | exit => exact hJ

/-- When neither thread can make a step, the table has no update left to make, and the benchmark has
finished or waits without having been told of a change. -/
theorem stuck_cases (h : Reachable (program watcher timeout client T) (start table k) c)
    (hstuck : Stuck (program watcher timeout client T) c) :
    (c.loc .table = .idle ∧ ∀ table' calls, ¬T.begins c.data.table table' calls) ∧
      ((∃ k, c.loc .bench = .code k ∧ client k c.data.table = .finish) ∨
        (∃ k, c.loc .bench = .waitForResult .woken k) ∧ c.data.updateRcvd = false) := by
  have hinit : ∀ t, ¬inside t ((start table k).loc t) := fun t => by
    cases t <;> exact not_false
  obtain ⟨-, hquiet⟩ := (h.exclusive disciplined hinit).quiet disciplined exists_act hstuck
  -- only the benchmark waits, and only there
  have hwaits : ∀ t, c.mode t ≠ .running →
      ∃ k, t = .bench ∧ c.loc .bench = .waitForResult .woken k := fun t hmode => by
    have hwait := h.of_ne_running (fun t s => match t, s with
      | .bench, s => ∃ k, s = BenchState.waitForResult .woken k
      | .table, _ => False) ?_ hmode
    · cases t with
      | bench =>
        obtain ⟨k, hk⟩ := hwait
        exact ⟨k, rfl, hk⟩
      | table => exact hwait.elim
    · intro t s d s' hact
      cases t <;> cases hact
      exact ⟨_, rfl⟩
  constructor
  · rcases hquiet .table with hmode | ⟨-, hnone⟩
    · obtain ⟨_, heq, _⟩ := hwaits .table (by rw [hmode]; decide)
      cases heq
    · have hidle : c.loc .table = .idle := by
        by_contra hne
        obtain ⟨a, ha⟩ := exists_tableAct (T := T) hne c.data
        exact hnone a ha
      rw [hidle] at hnone
      exact ⟨hidle, fun _ _ hbegins => hnone _ (.update hbegins)⟩
  · rcases hquiet .bench with hmode | ⟨-, hnone⟩
    · obtain ⟨k, -, hloc⟩ := hwaits .bench (by rw [hmode]; decide)
      have hnot := h.no_lost_wakeUp disciplined announces exists_act hinit hstuck hmode
      exact .inr ⟨⟨k, hloc⟩, by simpa using hnot⟩
    · cases hloc : c.loc .bench with
      | waitForResult pc k =>
        rw [hloc] at hnone
        obtain ⟨a, ha⟩ := exists_benchAct pc k c.data
        exact absurd ha (hnone a)
      | code k =>
        rw [hloc] at hnone
        refine .inl ⟨k, rfl, ?_⟩
        cases hnext : client k c.data.table with
        | finish => rfl
        | access table' next => exact absurd (.code hnext) (hnone _)
        | waitForResult next => exact absurd (.call hnext) (hnone _)

end Monitor

section Ends

variable {watcher : Watcher} {timeout : ℕ} {client : Client K E} {T : Table E}
variable {work : K → E → ℕ} {rank : K → ℕ}

/-- The code of a benchmark has only so much work to do, and so have those who change the table.
Between two calls of `waitForResult` it gets on with the work, or comes to a position of a lower
rank. -/
structure Ends (client : Client K E) (T : Table E) (work : K → E → ℕ) (rank : K → ℕ) :
    Prop where
  begins : ∀ {k e e' calls}, T.begins e e' calls → work k e' < work k e
  ends : ∀ {k e}, work k (T.ends e) = work k e
  access : ∀ {k next e e'}, client k e = .access e' next →
    work next e' < work k e ∨ (work next e' = work k e ∧ rank next < rank k)
  call : ∀ {k next e}, client k e = .waitForResult next → work next e = work k e
  rank_le : ∀ k, rank k ≤ 1

/-- Where the code of the benchmark is, or goes on. -/
def BenchState.position : BenchState K → K
  | .code k | .waitForResult _ k => k

/-- What it is worth that the watcher has been told of a change. -/
def worth (updateRcvd : Bool) : ℕ := if updateRcvd then 8 else 0

/-- A call of `waitForResult` uses up what the watcher has been told. -/
def BenchState.left (rank : K → ℕ) (updateRcvd : Bool) : BenchState K → ℕ
  | .code k => 4 + rank k + worth updateRcvd
  | .waitForResult .enter _ => 3 + worth updateRcvd
  | .waitForResult .woken _ => 2 + worth updateRcvd
  | .waitForResult .test _ => 1 + worth updateRcvd
  | .waitForResult .reset _ => 8
  | .waitForResult .exit k => 5 + rank k + worth updateRcvd

/-- The number of steps until the table is idle. -/
def TableState.left : TableState → ℕ
  | .idle => 0
  | .calling calls => 4 * calls + 1
  | .processChange .set more => 4 * more + 4
  | .processChange .notify more => 4 * more + 3
  | .processChange .exit more => 4 * more + 2

/-- An action of the benchmark leaves less to do, unless it waits. -/
theorem Ends.benchAct (hends : Ends client T work rank) (hbreaks : ¬Breaks watcher timeout)
    {b : BenchState K} {d : Shared E} {a : Act (BenchState K) (Shared E)}
    (ha : BenchAct watcher timeout client b d a) :
    work a.next.position (a.data d).table < work b.position d.table ∨
      (work a.next.position (a.data d).table = work b.position d.table ∧
        ((∃ s, a = .wait s ∧ 0 < b.left rank d.updateRcvd) ∨
          a.next.left rank (a.data d).updateRcvd < b.left rank d.updateRcvd)) := by
  cases ha with
  | code h =>
    rcases hends.access h with hwork | ⟨hwork, hrank⟩
    · exact .inl hwork
    · exact .inr ⟨hwork, .inr (by simpa [BenchState.left] using hrank)⟩
  | call h => exact .inr ⟨hends.call h, .inr (by simp [BenchState.left]; omega)⟩
  | enter => exact .inr ⟨rfl, .inr (by simp [BenchState.left])⟩
  | told h => exact .inr ⟨rfl, .inr (by simp [BenchState.left, worth, h])⟩
  | wait h => exact .inr ⟨rfl, .inl ⟨_, rfl, by rw [BenchState.left]; omega⟩⟩
  | leave h => exact absurd h hbreaks
  | retest h => exact .inr ⟨rfl, .inr (by simp [BenchState.left])⟩
  | @reset _ k =>
    have hrank := hends.rank_le k
    exact .inr ⟨rfl, .inr (by simp [BenchState.left, worth]; omega)⟩
  | exit => exact .inr ⟨rfl, .inr (by simp [BenchState.left])⟩

/-- An action of the table leaves less to do. -/
theorem Ends.tableAct (hends : Ends client T work rank) {t : TableState} {d : Shared E}
    {a : Act TableState (Shared E)} (ha : TableAct T t d a) (k : K) :
    work k (a.data d).table < work k d.table ∨
      (work k (a.data d).table = work k d.table ∧ a.next.left < t.left) := by
  cases ha with
  | update h => exact .inl (hends.begins h)
  | enter => exact .inr ⟨rfl, by simp only [Act.next, TableState.left]; omega⟩
  | set => exact .inr ⟨rfl, by simp [Act.next, TableState.left]⟩
  | notify => exact .inr ⟨rfl, by simp [Act.next, TableState.left]⟩
  | exit => exact .inr ⟨rfl, by simp [Act.next, TableState.left]⟩
  | finish => exact .inr ⟨hends.ends, by simp [Act.next, TableState.left]⟩

/-- What the benchmark has left to do before the table tells it something new. -/
def benchLeft (rank : K → ℕ) (c : Config (Local K) (Shared E)) : ℕ :=
  let left := (c.loc .bench).left rank c.data.updateRcvd
  (match c.mode .bench with
    | .running => left
    | .waiting => 0
    | .woken => left + 1) + (if c.mode .table = .woken then 1 else 0)

/-- What is left to do, in the order of importance. -/
def left (work : K → E → ℕ) (rank : K → ℕ) (c : Config (Local K) (Shared E)) : ℕ × ℕ × ℕ :=
  (work (c.loc .bench).position c.data.table, (c.loc .table).left, benchLeft rank c)

/-- The order of it. -/
abbrev Less : ℕ × ℕ × ℕ → ℕ × ℕ × ℕ → Prop := Prod.Lex (· < ·) (Prod.Lex (· < ·) (· < ·))

theorem Less.of_eq {w w' t t' b b' : ℕ} (hw : w' = w) (ht : t' = t) (hb : b' < b) :
    Less (w', t', b') (w, t, b) := by
  subst hw ht
  exact .right _ (.right _ hb)

theorem Less.of_le {w w' t t' b b' : ℕ} (h : w' < w ∨ (w' = w ∧ t' < t)) :
    Less (w', t', b') (w, t, b) := by
  rcases h with hw | ⟨rfl, ht⟩
  · exact .left _ _ hw
  · exact .right _ (.left _ _ ht)

/-- Only the table calls `notify`. -/
theorem BenchAct.ne_notify {b s : BenchState K} {d : Shared E} {a : Act (BenchState K) (Shared E)}
    (ha : BenchAct watcher timeout client b d a) : a ≠ .notify s := by
  cases ha <;> nofun

/-- Only the benchmark waits. -/
theorem TableAct.ne_wait {t s : TableState} {d : Shared E} {a : Act TableState (Shared E)}
    (ha : TableAct T t d a) : a ≠ .wait s := by
  cases ha <;> nofun

section Step

variable {c : Config (Local K) (Shared E)}

/-- The bench gets on, unless it waits. -/
theorem Ends.step_bench (hends : Ends client T work rank)
    (hbreaks : ¬Breaks watcher timeout) (hrun : c.mode .bench = .running)
    {a : Act (BenchState K) (Shared E)}
    (ha : BenchAct watcher timeout client (c.loc .bench) c.data a) (hwait : ∀ s, a ≠ .wait s)
    (owner : Option Thread) :
    Less (left work rank ⟨a.data c.data, owner, Function.update c.loc .bench a.next, c.mode⟩)
      (left work rank c) := by
  rcases hends.benchAct hbreaks ha with hwork | ⟨hwork, ⟨s, hs, -⟩ | hleft⟩
  · exact .of_le (.inl (by simpa using hwork))
  · exact absurd hs (hwait s)
  · exact .of_eq (by simpa using hwork) (by simp) (by simpa [benchLeft, hrun] using hleft)

/-- The table gets on, and whoever it wakes is of no importance. -/
theorem Ends.step_table (hends : Ends client T work rank)
    {a : Act TableState (Shared E)} (ha : TableAct T (c.loc .table) c.data a)
    (owner : Option Thread) (mode : Thread → Mode) :
    Less (left work rank ⟨a.data c.data, owner, Function.update c.loc .table a.next, mode⟩)
      (left work rank c) :=
  .of_le (by simpa using hends.tableAct ha (c.loc .bench).position)

/-- Each step leaves less to do. -/
theorem Ends.step (hends : Ends client T work rank) (hbreaks : ¬Breaks watcher timeout)
    {c' : Config (Local K) (Shared E)} (h : Step (program watcher timeout client T) c c') :
    Less (left work rank c') (left work rank c) := by
  obtain ⟨t, hstep⟩ := h
  cases t with
  | bench =>
    cases hstep with
    | access hrun ha => exact hends.step_bench hbreaks hrun ha nofun _
    | enter hrun ha _ => exact hends.step_bench hbreaks hrun ha nofun _
    | exit hrun ha => exact hends.step_bench hbreaks hrun ha nofun _
    | notify _ ha _ => exact absurd rfl ha.ne_notify
    | notifyNobody _ ha _ => exact absurd rfl ha.ne_notify
    | wait hrun ha =>
      rcases hends.benchAct hbreaks ha with hwork | ⟨hwork, ⟨_, -, hpos⟩ | hleft⟩
      · exact .of_le (.inl (by simpa using hwork))
      · exact .of_eq (by simpa using hwork) (by simp) (by simpa [benchLeft, hrun] using hpos)
      · exact .of_eq (by simpa using hwork) (by simp) (by simp [benchLeft, hrun]; omega)
    | resume hwoken _ =>
      exact .of_eq rfl rfl (by simp [benchLeft, hwoken])
  | table =>
    cases hstep with
    | access _ ha => exact hends.step_table ha _ _
    | enter _ ha _ => exact hends.step_table ha _ _
    | exit _ ha => exact hends.step_table ha _ _
    | notify _ ha _ => exact hends.step_table ha _ _
    | notifyNobody _ ha _ => exact hends.step_table ha _ _
    | wait _ ha => exact absurd rfl ha.ne_wait
    | resume hwoken _ =>
      exact .of_eq rfl rfl (by simp [benchLeft, hwoken])

end Step

/-- There is no run that goes on for ever, unless the benchmark is woken by nobody again and
again. -/
theorem Ends.wellFounded (hends : Ends client T work rank)
    (hbreaks : ¬Breaks watcher timeout) :
    WellFounded fun c' c => Step (program watcher timeout client T) c c' :=
  Subrelation.wf (hends.step hbreaks) (InvImage.wf (left work rank)
    (WellFounded.prod_lex wellFounded_lt (WellFounded.prod_lex wellFounded_lt wellFounded_lt)))

end Ends

section Returns

variable {watcher : Watcher} {timeout : ℕ} {client : Client K E} {T : Table E}
variable {table : E} {k next : K}

/-- Each call of `waitForResult` that returns does so after a change that comes later than the
changes of the earlier calls. -/
def Justified (d : Shared E) : Prop := (0 :: d.returns).Pairwise (· < ·)

/-- The invariant behind it: the field is set only after such a change. -/
structure Told (d : Shared E) (b : BenchState K) : Prop where
  justified : Justified d
  le : ∀ r ∈ 0 :: d.returns, r ≤ d.changes
  lt : d.updateRcvd = true → ∀ r ∈ 0 :: d.returns, r < d.changes
  atReset : ∀ k, b = .waitForResult .reset k → d.updateRcvd = true

/-- A step of the benchmark keeps every return justified by a change. -/
theorem Told.step_bench (hbreaks : ¬Breaks watcher timeout) {d : Shared E} {b : BenchState K}
    {a : Act (BenchState K) (Shared E)} (h : Told d b)
    (ha : BenchAct watcher timeout client b d a) : Told (a.data d) a.next := by
  cases ha with
  | code _ => exact ⟨h.justified, h.le, h.lt, nofun⟩
  | call _ => exact ⟨h.justified, h.le, h.lt, nofun⟩
  | enter => exact ⟨h.justified, h.le, h.lt, nofun⟩
  | told hrcvd => exact ⟨h.justified, h.le, h.lt, fun _ _ => hrcvd⟩
  | wait _ => exact ⟨h.justified, h.le, h.lt, nofun⟩
  | leave hleave => exact absurd hleave hbreaks
  | retest _ => exact ⟨h.justified, h.le, h.lt, nofun⟩
  | @reset _ k =>
    have hlt := h.lt (h.atReset k rfl)
    refine ⟨?_, ?_, nofun, nofun⟩
    · show (0 :: d.returns ++ [d.changes]).Pairwise (· < ·)
      rw [List.pairwise_append]
      exact ⟨h.justified, List.pairwise_singleton _ _, by simpa using hlt⟩
    · show ∀ r ∈ 0 :: d.returns ++ [d.changes], r ≤ d.changes
      intro r hr
      rcases List.mem_append.mp hr with hold | hnew
      · exact h.le r hold
      · exact Nat.le_of_eq (List.mem_singleton.mp hnew)
  | exit => exact ⟨h.justified, h.le, h.lt, nofun⟩

/-- So does a step of the table. -/
theorem Told.step_table {d : Shared E} {b : BenchState K} {t : TableState}
    {a : Act TableState (Shared E)} (h : Told d b) (ha : TableAct T t d a) :
    Told (a.data d) b := by
  cases ha with
  | set =>
    have hlt : ∀ r ∈ 0 :: d.returns, r < d.changes + 1 := fun r hr => Nat.lt_succ_of_le (h.le r hr)
    exact ⟨h.justified, fun r hr => Nat.le_of_lt (hlt r hr), fun _ => hlt, fun _ _ => rfl⟩
  | _ => exact ⟨h.justified, h.le, h.lt, h.atReset⟩

/-- A call that finds its time out leaves the loop of a map. -/
theorem exists_not_justified (hbreaks : Breaks watcher timeout)
    (hcall : client k table = .waitForResult next) :
    ∃ c, Reachable (program watcher timeout client T) (start table k) c ∧ ¬Justified c.data := by
  have hrun : Reachable (program watcher timeout client T) (start table k) _ := .refl
  -- the call waits, its time is out, and it leaves the loop
  have hcalled := hrun.tail (.inl ⟨.bench, .access rfl (BenchAct.call hcall)⟩)
  have hentered := hcalled.tail (.inl ⟨.bench, .enter rfl BenchAct.enter rfl⟩)
  have hwaiting := hentered.tail (.inl ⟨.bench, .wait rfl (BenchAct.wait rfl)⟩)
  have hwoken := hwaiting.tail (.inr (.mk (t := .bench) rfl))
  have hresumed := hwoken.tail (.inl ⟨.bench, .resume rfl rfl⟩)
  have hleft := hresumed.tail (.inl ⟨.bench, .access rfl (BenchAct.leave hbreaks)⟩)
  have hreset := hleft.tail (.inl ⟨.bench, .access rfl BenchAct.reset⟩)
  refine ⟨_, hreset, fun hjustified => ?_⟩
  have hreturns : (0 :: [0]).Pairwise (· < ·) := hjustified
  simp at hreturns

/-- In every interleaving, with spurious wake-ups and timeouts: a call of `waitForResult` returns
only after a call of `processChange` or `process` that no earlier one has returned for, unless it is
the one of a map with a timeout. Then a first call may return without any. -/
theorem returns_justified_iff (watcher : Watcher) (timeout : ℕ) (client : Client K E)
    (T : Table E) (table : E) (k : K) :
    (¬Breaks watcher timeout → ∀ c, Reachable (program watcher timeout client T) (start table k) c →
      Justified c.data) ∧
    ∀ next, client k table = .waitForResult next →
      (∀ c, Reachable (program watcher timeout client T) (start table k) c → Justified c.data) →
        ¬Breaks watcher timeout := by
  refine ⟨fun hbreaks c hc => ?_, fun next hcall hall hbreaks => ?_⟩
  · have htold : Told c.data (c.loc .bench) :=
      threads_inv (J := fun d b _ => Told d b) hc
        ⟨List.pairwise_singleton _ _, by simp, nofun, nofun⟩
        (fun _ _ _ _ h ha => h.step_bench hbreaks ha) fun _ _ _ _ h ha => h.step_table ha
    exact htold.justified
  · obtain ⟨c, hc, hnot⟩ := exists_not_justified hbreaks hcall
    exact hnot (hall c hc)

/-- Two calls of `waitForResult`. -/
def twoCalls : Client ℕ Unit := fun calls _ =>
  if calls < 2 then .waitForResult (calls + 1) else .finish

/-- A table that is updated at any time, with a call of the watcher. -/
def anyTime : Table Unit where
  begins _ _ calls := calls = 1
  ends e := e

/-- With a timeout, the watcher of a set and that of a map differ. -/
theorem returns_justified_twoCalls :
    (∀ c, Reachable (program .set 120000 twoCalls anyTime) (start () 0) c → Justified c.data) ∧
    ¬∀ c, Reachable (program .map 120000 twoCalls anyTime) (start () 0) c → Justified c.data :=
  ⟨(returns_justified_iff .set 120000 twoCalls anyTime () 0).1 (by simp [Breaks]),
    fun h => (returns_justified_iff .map 120000 twoCalls anyTime () 0).2 1 rfl h ⟨rfl, by decide⟩⟩

end Returns

end MapSetBenchmark
