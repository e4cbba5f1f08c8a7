import StateTableBench.Choreography.Progress
import Mathlib.Data.Nat.Bitwise
import Mathlib.Order.Lattice
import Mathlib.Order.Bounds.Basic

/-!
# The MPI test

`MPITest.main` pairs rank `2 i` with rank `2 i + 1`. A pair plays ping pong: the even rank sends a
buffer, the odd one receives it and sends its own buffer back, `REPETITIONS` times, and both check
what they receive. Then the even rank passes its average time on to the odd one, and rank `0`
reduces the times of all ranks to their maximum. A rank whose partner does not exist goes through
the collectives only.

`main_completes`: for every number of ranks, every interleaving and every choice of the sends that
are buffered, the test comes to its end. No message is lost or taken for another one, so that the
checks find no error; the ranks of a pair have the same time, and rank `0` has the greatest one.
-/

open Choreography

namespace MpiTest

/-- Data size in bytes. -/
def DATASIZE : ℕ := 256

def REPETITIONS : ℤ := 1000

/-- What is sent: arrays of bytes, and times. -/
inductive Payload (T : Type)
  | bytes (data : List Int8)
  | double (t : T)

/-- `tBuf` -/
def tBuf : List Int8 := (List.range DATASIZE).map fun i => Int8.ofNat (i &&& 255)

/-- `(k & 1) != 0` -/
def isOdd (k : ℕ) : Bool := (k &&& 1) != 0

/-- Where a process is. -/
inductive Pc (n : ℕ)
  /-- Before the first barrier. -/
  | begin
  /-- Before the second barrier. -/
  | ready
  /-- At `if (peer < worldSize)`. -/
  | pingPong
  /-- At the first `recv` of an odd rank. -/
  | firstPing (peer : Fin n)
  /-- At `while (reps-- > 0)`. -/
  | loop (peer : Fin n)
  /-- At the `recv` in the loop. -/
  | awaitPong (peer : Fin n)
  /-- At the last `send` of an odd rank. -/
  | lastPong (peer : Fin n)
  /-- Before the third barrier. -/
  | timed
  /-- At the computation of the time. -/
  | average
  | passTime (peer : Fin n)
  | receiveTime (peer : Fin n)
  /-- Before the fourth barrier. -/
  | share
  | reduce
  /-- Before the last barrier. -/
  | leave
  | finished
deriving DecidableEq

/-- The variables of a process. -/
structure Process (n : ℕ) (T : Type) where
  pc : Pc n
  reps : ℤ
  rBuf : List Int8
  t : T
  maxTime : T
  /-- The number of messages on `System.err`. -/
  errors : ℕ

variable {n : ℕ} {T : Type}

/-- `worldRank ^ 1`, if it is less than `worldSize`. -/
def peer? (worldRank : Fin n) : Option (Fin n) :=
  if h : worldRank.val ^^^ 1 < n then some ⟨worldRank.val ^^^ 1, h⟩ else none

namespace Process

/-- `new byte[DATASIZE]` and `new double[1]` -/
def init [Zero T] : Process n T where
  pc := .begin
  reps := 0
  rBuf := List.replicate DATASIZE 0
  t := 0
  maxTime := 0
  errors := 0

/-- `recv(rBuf, …)`: the bytes that are received overwrite the first ones of the buffer. -/
def receiveBytes (s : Process n T) : List (Payload T) → Process n T
  | .bytes data :: _ => { s with rBuf := data ++ s.rBuf.drop data.length }
  | _ => s

/-- Check received data, and clear the buffer. -/
def check (s : Process n T) : Process n T :=
  { s with
    errors := s.errors +
      (List.range DATASIZE).countP fun i => s.rBuf[i]? != some (Int8.ofNat (i &&& 255))
    rBuf := List.replicate DATASIZE 0 }

/-- `recv(timebuf, …)`, and `t = timebuf[0]` -/
def receiveTime (s : Process n T) : List (Payload T) → Process n T
  | .double t :: _ => { s with t := t }
  | _ => s

end Process

/-- A time among the contributions. -/
def Payload.double? : Payload T → Option T
  | .bytes _ => none
  | .double t => some t

/-- `reduce(elapsed, maxTime, 1, MPI.DOUBLE, MPI.MAX, 0)`: only the root is given the values. -/
def Process.receiveMax [LinearOrder T] (s : Process n T) (vs : List (Payload T)) : Process n T :=
  match (vs.filterMap Payload.double?).max? with
  | some t => { s with maxTime := t }
  | none => s

/-- `MPITest.main`. The time that rank `r` measures is `elapsed r`. -/
def main [LinearOrder T] (elapsed : Fin (n + 1) → T) (worldRank : Fin (n + 1))
    (s : Process (n + 1) T) : Act (n + 1) (Process (n + 1) T) (Payload T) :=
  match s.pc with
  | .begin => .perform .barrier fun _ =>
    { s with reps := REPETITIONS, rBuf := List.replicate DATASIZE 0, pc := .ready }
  | .ready => .perform .barrier fun _ => { s with pc := .pingPong }
  | .pingPong =>
    match peer? worldRank with
    | some peer =>
      if isOdd worldRank then .compute { s with reps := s.reps - 1, pc := .firstPing peer }
      else .compute { s with pc := .loop peer }
    | none => .compute { s with pc := .timed }
  | .firstPing peer => .perform (.recv peer) fun vs =>
    { (s.receiveBytes vs).check with pc := .loop peer }
  | .loop peer =>
    if 0 < s.reps then
      .perform (.send peer (.bytes tBuf)) fun _ =>
        { s with reps := s.reps - 1, pc := .awaitPong peer }
    else
      .compute { s with
        reps := s.reps - 1
        pc := if isOdd worldRank then .lastPong peer else .timed }
  | .awaitPong peer => .perform (.recv peer) fun vs =>
    { (s.receiveBytes vs).check with pc := .loop peer }
  | .lastPong peer => .perform (.send peer (.bytes tBuf)) fun _ => { s with pc := .timed }
  | .timed => .perform .barrier fun _ => { s with pc := .average }
  | .average =>
    match peer? worldRank with
    | some peer =>
      .compute { s with
        t := elapsed worldRank
        pc := if isOdd peer then .passTime peer else .receiveTime peer }
    | none => .compute { s with t := elapsed worldRank, pc := .share }
  | .passTime peer => .perform (.send peer (.double s.t)) fun _ => { s with pc := .share }
  | .receiveTime peer => .perform (.recv peer) fun vs => { s.receiveTime vs with pc := .share }
  | .share => .perform .barrier fun _ => { s with pc := .reduce }
  | .reduce => .perform (.reduce 0 (.double s.t)) fun vs => { s.receiveMax vs with pc := .leave }
  | .leave => .perform .barrier fun _ => { s with pc := .finished }
  | .finished => .halt

/-! ## The partners -/

/-- `isOdd` is about the remainder. -/
theorem isOdd_iff {k : ℕ} : isOdd k = true ↔ k % 2 = 1 := by
  rw [isOdd, Nat.and_one_is_mod, bne_iff_ne]
  omega

theorem isOdd_eq_false_iff {k : ℕ} : isOdd k = false ↔ k % 2 = 0 := by
  rw [← Bool.not_eq_true, isOdd_iff]
  omega

/-- The number of ranks with a partner that come first. -/
def pairs (n : ℕ) : ℕ := (n + 1) / 2

/-- The rank that sends the pings of a pair. -/
def pinger (i : Fin (pairs n)) : Fin (n + 1) :=
  ⟨2 * i.val, by have := i.isLt; simp only [pairs] at this; omega⟩

/-- The rank that sends the pongs. -/
def ponger (i : Fin (pairs n)) : Fin (n + 1) :=
  ⟨2 * i.val + 1, by have := i.isLt; simp only [pairs] at this; omega⟩

/-- Nobody is on both sides. -/
theorem pinger_ne_ponger (i j : Fin (pairs n)) : pinger i ≠ ponger j := by
  intro h
  have hval := congrArg Fin.val h
  simp only [pinger, ponger] at hval
  omega

/-- The ranks that send first are even. -/
@[simp]
theorem isOdd_pinger (i : Fin (pairs n)) : isOdd (pinger i).val = false := by
  rw [isOdd_eq_false_iff]
  exact Nat.mul_mod_right 2 i.val

/-- Those that answer are odd. -/
@[simp]
theorem isOdd_ponger (i : Fin (pairs n)) : isOdd (ponger i).val = true := by
  rw [isOdd_iff]
  exact Nat.mul_add_mod 2 i.val 1

/-- The partner of the rank that sends first. -/
@[simp]
theorem peer?_pinger (i : Fin (pairs n)) : peer? (pinger i) = some (ponger i) := by
  have hxor : (pinger i).val ^^^ 1 = (ponger i).val := by
    rw [Nat.xor_one_of_even (Nat.even_iff.mpr (isOdd_eq_false_iff.mp (isOdd_pinger i)))]
    rfl
  simp [peer?, hxor, (ponger i).isLt]

/-- And of the one that answers. -/
@[simp]
theorem peer?_ponger (i : Fin (pairs n)) : peer? (ponger i) = some (pinger i) := by
  have hxor : (ponger i).val ^^^ 1 = (pinger i).val := by
    rw [Nat.xor_one_of_odd (Nat.odd_iff.mpr (isOdd_iff.mp (isOdd_ponger i)))]
    rfl
  simp [peer?, hxor, (pinger i).isLt]

/-- A rank sends the pings or the pongs of a pair, or it has no partner. -/
theorem rank_cases (r : Fin (n + 1)) :
    (∃ i, r = pinger i) ∨ (∃ i, r = ponger i) ∨
      (peer? r = none ∧ (∀ i, r ≠ pinger i) ∧ ∀ i, r ≠ ponger i) := by
  by_cases hpair : r.val / 2 < pairs n
  · rcases Nat.mod_two_eq_zero_or_one r.val with heven | hodd
    · exact .inl ⟨⟨r.val / 2, hpair⟩, Fin.ext (by simp only [pinger]; omega)⟩
    · exact .inr (.inl ⟨⟨r.val / 2, hpair⟩, Fin.ext (by simp only [ponger]; omega)⟩)
  · refine .inr (.inr ⟨?_, ?_, ?_⟩)
    · have hlast : r.val % 2 = 0 ∧ r.val = n := by
        have := r.isLt
        simp only [pairs] at hpair
        omega
      have hxor : r.val ^^^ 1 = r.val + 1 := Nat.xor_one_of_even (Nat.even_iff.mpr hlast.1)
      rw [peer?, dif_neg (by omega)]
    · rintro i rfl
      refine hpair ?_
      show 2 * i.val / 2 < pairs n
      omega
    · rintro i rfl
      refine hpair ?_
      show (2 * i.val + 1) / 2 < pairs n
      omega

/-! ## The choreography -/

section Choreography

variable (elapsed : Fin (n + 1) → T)

/-- The time that a rank has in the end. -/
def time (r : Fin (n + 1)) : T :=
  match peer? r with
  | some peer => if isOdd peer then elapsed r else elapsed peer
  | none => elapsed r

/-- A ping and a pong. -/
def round (i : Fin (pairs n)) : List (Interaction (n + 1) (Payload T)) :=
  [.message (pinger i) (ponger i) (pinger_ne_ponger i i) (.bytes tBuf),
    .message (ponger i) (pinger i) (pinger_ne_ponger i i).symm (.bytes tBuf)]

def pingPongs : List (Interaction (n + 1) (Payload T)) :=
  (List.finRange (pairs n)).flatMap fun i => (List.replicate REPETITIONS.toNat (round i)).flatten

def times : List (Interaction (n + 1) (Payload T)) :=
  (List.finRange (pairs n)).flatMap fun i =>
    [.message (pinger i) (ponger i) (pinger_ne_ponger i i) (.double (elapsed (pinger i)))]

/-- What all processes do together. -/
def choreography : List (Interaction (n + 1) (Payload T)) :=
  [.barrier, .barrier] ++ pingPongs ++ [.barrier] ++ times elapsed ++
    [.barrier, .reduce 0 fun r => .double (time elapsed r), .barrier]

/-! ### What a process still has to do -/

/-- `k` times a ping and a pong, for the rank that sends the pings. -/
def exchange (peer : Fin (n + 1)) (k : ℤ) : List (Op (n + 1) (Payload T) × List (Payload T)) :=
  (List.replicate k.toNat [(.send peer (.bytes tBuf), []), (.recv peer, [.bytes tBuf])]).flatten

def reducing (r : Fin (n + 1)) (t : T) : List (Op (n + 1) (Payload T) × List (Payload T)) :=
  [(.reduce 0 (.double t), if r = 0 then List.ofFn fun q => .double (time elapsed q) else []),
    (.barrier, [])]

def sharing (r : Fin (n + 1)) (t : T) : List (Op (n + 1) (Payload T) × List (Payload T)) :=
  (.barrier, []) :: reducing elapsed r t

def averaging (r : Fin (n + 1)) : List (Op (n + 1) (Payload T) × List (Payload T)) :=
  match peer? r with
  | some peer =>
    if isOdd peer then (.send peer (.double (elapsed r)), []) :: sharing elapsed r (elapsed r)
    else (.recv peer, [.double (elapsed peer)]) :: sharing elapsed r (elapsed peer)
  | none => sharing elapsed r (elapsed r)

def timing (r : Fin (n + 1)) : List (Op (n + 1) (Payload T) × List (Payload T)) :=
  (.barrier, []) :: averaging elapsed r

def looping (r peer : Fin (n + 1)) (k : ℤ) :
    List (Op (n + 1) (Payload T) × List (Payload T)) :=
  exchange peer k ++
    ((if isOdd r then [(.send peer (.bytes tBuf), [])] else []) ++ timing elapsed r)

def playing (r : Fin (n + 1)) (k : ℤ) : List (Op (n + 1) (Payload T) × List (Payload T)) :=
  match peer? r with
  | some peer =>
    if isOdd r then (.recv peer, [.bytes tBuf]) :: looping elapsed r peer (k - 1)
    else looping elapsed r peer k
  | none => timing elapsed r

/-- The operations that a process still has to perform. -/
def todo (r : Fin (n + 1)) (s : Process (n + 1) T) :
    List (Op (n + 1) (Payload T) × List (Payload T)) :=
  match s.pc with
  | .begin => (.barrier, []) :: (.barrier, []) :: playing elapsed r REPETITIONS
  | .ready => (.barrier, []) :: playing elapsed r s.reps
  | .pingPong => playing elapsed r s.reps
  | .firstPing peer => (.recv peer, [.bytes tBuf]) :: looping elapsed r peer s.reps
  | .loop peer => looping elapsed r peer s.reps
  | .awaitPong peer => (.recv peer, [.bytes tBuf]) :: looping elapsed r peer s.reps
  | .lastPong peer => (.send peer (.bytes tBuf), []) :: timing elapsed r
  | .timed => timing elapsed r
  | .average => averaging elapsed r
  | .passTime peer => (.send peer (.double s.t), []) :: sharing elapsed r s.t
  | .receiveTime peer => (.recv peer, [.double (elapsed peer)]) :: sharing elapsed r (elapsed peer)
  | .share => sharing elapsed r s.t
  | .reduce => reducing elapsed r s.t
  | .leave => [(.barrier, [])]
  | .finished => []

/-- A bound on the computations until the next operation. -/
def work (s : Process (n + 1) T) : ℕ :=
  match s.pc with
  | .pingPong => 2
  | .loop _ => 1
  | .average => 1
  | _ => 0

variable {elapsed}

/-- The first repetition, and the others. -/
theorem exchange_of_pos (peer : Fin (n + 1)) {k : ℤ} (hk : 0 < k) :
    (exchange peer k : List (Op (n + 1) (Payload T) × List (Payload T))) =
      (.send peer (.bytes tBuf), []) :: (.recv peer, [.bytes tBuf]) :: exchange peer (k - 1) := by
  obtain ⟨m, rfl⟩ : ∃ m : ℕ, k = m + 1 := ⟨(k - 1).toNat, by omega⟩
  simp [exchange, List.replicate_succ]

/-- No repetition is left. -/
theorem exchange_of_nonpos (peer : Fin (n + 1)) {k : ℤ} (hk : k ≤ 0) :
    (exchange peer k : List (Op (n + 1) (Payload T) × List (Payload T))) = [] := by
  simp [exchange, Int.toNat_of_nonpos hk]

variable [LinearOrder T]

/-- A process halts at its end only. -/
theorem pc_of_halt {r : Fin (n + 1)} {s : Process (n + 1) T} (h : main elapsed r s = .halt) :
    s.pc = .finished := by
  cases hpc : s.pc with
  | finished => rfl
  | pingPong =>
    simp only [main, hpc] at h
    split at h
    · split_ifs at h
    · cases h
  | loop peer =>
    simp only [main, hpc] at h
    split_ifs at h
  | average =>
    simp only [main, hpc] at h
    split at h <;> cases h
  | _ =>
    simp only [main, hpc] at h
    cases h

/-- The program does what the choreography asks for, with at most two steps in between. -/
theorem enacts : Enacts (main elapsed) (todo elapsed) work 2 where
  compute {r s next} hact := by
    cases hpc : s.pc with
    | pingPong =>
      simp only [main, hpc] at hact
      cases hpeer : peer? r with
      | none =>
        rw [hpeer] at hact
        obtain rfl := Act.compute.inj hact
        exact ⟨by simp [todo, hpc, playing, hpeer], by simp [work, hpc]⟩
      | some peer =>
        rw [hpeer] at hact
        simp only at hact
        split_ifs at hact with hodd
        · obtain rfl := Act.compute.inj hact
          exact ⟨by simp [todo, hpc, playing, hpeer, hodd], by simp [work, hpc]⟩
        · obtain rfl := Act.compute.inj hact
          exact ⟨by simp [todo, hpc, playing, hpeer, hodd], by simp [work, hpc]⟩
    | loop peer =>
      simp only [main, hpc] at hact
      split_ifs at hact with hreps hodd
      · obtain rfl := Act.compute.inj hact
        refine ⟨?_, by simp [work, hpc]⟩
        simp [todo, hpc, looping, exchange_of_nonpos peer (not_lt.mp hreps), hodd]
      · obtain rfl := Act.compute.inj hact
        refine ⟨?_, by simp [work, hpc]⟩
        simp [todo, hpc, looping, exchange_of_nonpos peer (not_lt.mp hreps), hodd]
    | average =>
      simp only [main, hpc] at hact
      cases hpeer : peer? r with
      | none =>
        rw [hpeer] at hact
        obtain rfl := Act.compute.inj hact
        exact ⟨by simp [todo, hpc, averaging, hpeer], by simp [work, hpc]⟩
      | some peer =>
        rw [hpeer] at hact
        obtain rfl := Act.compute.inj hact
        by_cases hodd : isOdd peer = true
        · exact ⟨by simp [todo, hpc, averaging, hpeer, hodd], by simp [work, hpc, hodd]⟩
        · exact ⟨by simp [todo, hpc, averaging, hpeer, hodd], by simp [work, hpc, hodd]⟩
    | _ => simp [main, hpc] at hact
  perform {r s op next} hact := by
    cases hpc : s.pc with
    | pingPong =>
      simp only [main, hpc] at hact
      split at hact
      · split_ifs at hact
      · cases hact
    | loop peer =>
      simp only [main, hpc] at hact
      split_ifs at hact with hreps
      obtain ⟨rfl, rfl⟩ := Act.perform.inj hact
      refine ⟨[], _, ?_, rfl⟩
      simp only [todo, hpc, looping, exchange_of_pos peer hreps]
      rfl
    | average =>
      simp only [main, hpc] at hact
      split at hact <;> cases hact
    | firstPing peer =>
      simp only [main, hpc] at hact
      obtain ⟨rfl, rfl⟩ := Act.perform.inj hact
      exact ⟨[.bytes tBuf], _, by simp only [todo, hpc]; rfl, rfl⟩
    | awaitPong peer =>
      simp only [main, hpc] at hact
      obtain ⟨rfl, rfl⟩ := Act.perform.inj hact
      exact ⟨[.bytes tBuf], _, by simp only [todo, hpc]; rfl, rfl⟩
    | receiveTime peer =>
      simp only [main, hpc] at hact
      obtain ⟨rfl, rfl⟩ := Act.perform.inj hact
      exact ⟨[.double (elapsed peer)], _, by simp only [todo, hpc]; rfl, rfl⟩
    | reduce =>
      simp only [main, hpc] at hact
      obtain ⟨rfl, rfl⟩ := Act.perform.inj hact
      exact ⟨_, _, by simp only [todo, hpc, reducing]; rfl, rfl⟩
    | finished =>
      simp only [main, hpc] at hact
      cases hact
    | _ =>
      simp only [main, hpc] at hact
      obtain ⟨rfl, rfl⟩ := Act.perform.inj hact
      exact ⟨[], _, by simp only [todo, hpc, timing, sharing], rfl⟩
  halt hact := by simp only [todo, pc_of_halt hact]
  work_le s := by
    unfold work
    split <;> omega

/-! ### The scripts of the choreography -/

omit [LinearOrder T] in
theorem pinger_inj {i j : Fin (pairs n)} : pinger i = pinger j ↔ i = j := by
  simp [pinger, Fin.ext_iff]

omit [LinearOrder T] in
theorem ponger_inj {i j : Fin (pairs n)} : ponger i = ponger j ↔ i = j := by
  simp [ponger, Fin.ext_iff]

/-- Only one element of a list contributes to a concatenation. -/
theorem flatMap_eq_of_unique {α γ : Type} {l : List α} (hl : l.Nodup) {a : α} (ha : a ∈ l)
    {f : α → List γ} (hf : ∀ b ∈ l, b ≠ a → f b = []) : l.flatMap f = f a := by
  induction l with
  | nil => cases ha
  | cons b l ih =>
    obtain ⟨hb, hnd⟩ := List.nodup_cons.mp hl
    rw [List.flatMap_cons]
    rcases List.mem_cons.mp ha with rfl | htail
    · have hrest : l.flatMap f = [] := List.flatMap_eq_nil_iff.mpr fun b' hb' =>
        hf b' (List.mem_cons_of_mem _ hb') fun heq => hb (heq ▸ hb')
      rw [hrest, List.append_nil]
    · have hne : b ≠ a := fun heq => hb (heq ▸ htail)
      rw [hf b List.mem_cons_self hne, List.nil_append]
      exact ih hnd htail fun b' hb' => hf b' (List.mem_cons_of_mem _ hb')

section Pairs

variable {f : Fin (pairs n) → List (Interaction (n + 1) (Payload T))} {r : Fin (n + 1)}

omit [LinearOrder T] in
/-- The script of all pairs. -/
theorem script_flatMap :
    script r ((List.finRange (pairs n)).flatMap f) =
      (List.finRange (pairs n)).flatMap fun i => script r (f i) := by
  induction List.finRange (pairs n) with
  | nil => rfl
  | cons i l ih => rw [List.flatMap_cons, script_append, ih, List.flatMap_cons]

omit [LinearOrder T] in
/-- A rank takes part in what its own pair does. -/
theorem script_pair (i : Fin (pairs n)) (hf : ∀ j, j ≠ i → script r (f j) = []) :
    script r ((List.finRange (pairs n)).flatMap f) = script r (f i) := by
  rw [script_flatMap]
  exact flatMap_eq_of_unique (List.nodup_finRange _) (List.mem_finRange i) fun j _ => hf j

omit [LinearOrder T] in
/-- A rank without a partner takes part in nothing of it. -/
theorem script_alone (hf : ∀ j, script r (f j) = []) :
    script r ((List.finRange (pairs n)).flatMap f) = [] := by
  rw [script_flatMap]
  exact List.flatMap_eq_nil_iff.mpr fun j _ => hf j

end Pairs

omit [LinearOrder T] in
/-- The script of repetitions is that of one, repeated. -/
theorem script_replicate (r : Fin (n + 1)) (k : ℕ) (L : List (Interaction (n + 1) (Payload T))) :
    script r (List.replicate k L).flatten = (List.replicate k (script r L)).flatten := by
  induction k with
  | zero => rfl
  | succ k ih => simp [List.replicate_succ, ih]

omit [LinearOrder T] in
/-- The rank that sends first sends and then receives. -/
theorem script_round_pinger (i j : Fin (pairs n)) :
    script (pinger i) (round j : List (Interaction (n + 1) (Payload T))) =
      if i = j then
        [(.send (ponger j) (.bytes tBuf), []), (.recv (ponger j), [.bytes tBuf])] else [] := by
  by_cases hij : i = j
  · simp [script, round, Interaction.op?, hij, pinger_ne_ponger]
  · simp [script, round, Interaction.op?, hij, pinger_inj, pinger_ne_ponger]

omit [LinearOrder T] in
/-- The other one receives and then sends. -/
theorem script_round_ponger (i j : Fin (pairs n)) :
    script (ponger i) (round j : List (Interaction (n + 1) (Payload T))) =
      if i = j then
        [(.recv (pinger j), [.bytes tBuf]), (.send (pinger j) (.bytes tBuf), [])] else [] := by
  by_cases hij : i = j
  · simp [script, round, Interaction.op?, hij, (pinger_ne_ponger _ _).symm]
  · simp [script, round, Interaction.op?, hij, ponger_inj, (pinger_ne_ponger _ _).symm]

omit [LinearOrder T] in
/-- The rest do nothing. -/
theorem script_round_alone {r : Fin (n + 1)} (hpinger : ∀ i, r ≠ pinger i)
    (hponger : ∀ i, r ≠ ponger i) (j : Fin (pairs n)) :
    script r (round j : List (Interaction (n + 1) (Payload T))) = [] := by
  simp [script, round, Interaction.op?, hpinger, hponger]

/-- The pongs follow the pings, so the rank that sends them begins and ends in the other half of a
round. -/
theorem flatten_replicate_swap {α : Type} (a b : α) (k : ℕ) :
    (List.replicate (k + 1) [b, a]).flatten =
      b :: ((List.replicate k [a, b]).flatten ++ [a]) := by
  induction k with
  | zero => rfl
  | succ k ih =>
    rw [List.replicate_succ, List.flatten_cons, ih, List.replicate_succ, List.flatten_cons]
    rfl

omit [LinearOrder T] in
/-- The first of a pair takes the time itself. -/
theorem time_pinger (i : Fin (pairs n)) : time elapsed (pinger i) = elapsed (pinger i) := by
  simp [time]

omit [LinearOrder T] in
/-- The second is told the time of the first. -/
theorem time_ponger (i : Fin (pairs n)) : time elapsed (ponger i) = elapsed (pinger i) := by
  simp [time]

omit [LinearOrder T] in
/-- The script of a rank: two barriers, the exchanges, a barrier, the times and their maximum. -/
theorem script_choreography (r : Fin (n + 1)) :
    script r (choreography elapsed) =
      (.barrier, []) :: (.barrier, []) :: (script r pingPongs ++
        (.barrier, []) :: (script r (times elapsed) ++ sharing elapsed r (time elapsed r))) := by
  simp only [choreography, script_append, List.append_assoc]
  rfl

omit [LinearOrder T] in
/-- Each process does what the choreography has for its rank. -/
theorem todo_init [Zero T] (r : Fin (n + 1)) :
    todo elapsed r Process.init = script r (choreography elapsed) := by
  rw [script_choreography]
  show (.barrier, []) :: (.barrier, []) :: playing elapsed r REPETITIONS = _
  congr 2
  rcases rank_cases r with ⟨i, rfl⟩ | ⟨i, rfl⟩ | ⟨hpeer, hpinger, hponger⟩
  · have hplay : script (pinger i) (pingPongs : List (Interaction (n + 1) (Payload T))) =
        exchange (ponger i) REPETITIONS := by
      rw [pingPongs, script_pair i fun j hj => ?_, script_replicate, script_round_pinger,
        if_pos rfl, exchange]
      rw [script_replicate, script_round_pinger, if_neg (Ne.symm hj)]
      simp
    have htimes : script (pinger i) (times elapsed) =
        [(.send (ponger i) (.double (elapsed (pinger i))), [])] := by
      rw [times, script_pair i fun j hj => ?_]
      · simp [script, Interaction.op?]
      · simp [script, Interaction.op?, pinger_inj, pinger_ne_ponger, Ne.symm hj]
    rw [hplay, htimes, time_pinger]
    simp [playing, looping, timing, averaging]
  · have hplay : script (ponger i) (pingPongs : List (Interaction (n + 1) (Payload T))) =
        (.recv (pinger i), [.bytes tBuf]) ::
          (exchange (pinger i) (REPETITIONS - 1) ++ [(.send (pinger i) (.bytes tBuf), [])]) := by
      rw [pingPongs, script_pair i fun j hj => ?_, script_replicate, script_round_ponger,
        if_pos rfl, exchange]
      · exact flatten_replicate_swap _ _ (REPETITIONS - 1).toNat
      · rw [script_replicate, script_round_ponger, if_neg (Ne.symm hj)]
        simp
    have htimes : script (ponger i) (times elapsed) =
        [(.recv (pinger i), [.double (elapsed (pinger i))])] := by
      rw [times, script_pair i fun j hj => ?_]
      · simp [script, Interaction.op?, (pinger_ne_ponger _ _).symm]
      · simp [script, Interaction.op?, ponger_inj, (pinger_ne_ponger _ _).symm, Ne.symm hj]
    rw [hplay, htimes, time_ponger]
    simp [playing, looping, timing, averaging]
  · have hplay : script r (pingPongs : List (Interaction (n + 1) (Payload T))) = [] :=
      script_alone fun j => by
        rw [script_replicate, script_round_alone hpinger hponger]
        simp
    have htimes : script r (times elapsed) = [] :=
      script_alone fun j => by simp [script, Interaction.op?, hpinger, hponger]
    have htime : time elapsed r = elapsed r := by simp [time, hpeer]
    rw [hplay, htimes, htime]
    simp [playing, hpeer, timing, averaging]

/-! ## What the processes find -/

omit [LinearOrder T] in
/-- The bytes that were sent pass the check. -/
theorem check_tBuf (s : Process (n + 1) T) :
    (s.receiveBytes [.bytes tBuf]).check.errors = s.errors := by
  have hcount : (List.range DATASIZE).countP (fun i =>
      (s.receiveBytes [.bytes tBuf]).rBuf[i]? != some (Int8.ofNat (i &&& 255))) = 0 := by
    rw [List.countP_eq_zero]
    intro i hi
    have hlt : i < tBuf.length := by simpa [tBuf] using hi
    have hget : (tBuf ++ s.rBuf.drop tBuf.length)[i]? = some (Int8.ofNat (i &&& 255)) := by
      rw [List.getElem?_append_left hlt]
      simp [tBuf, List.mem_range.mp hi]
    simp only [Process.receiveBytes, hget, bne_self_eq_false, Bool.false_eq_true, not_false_eq_true]
  simp only [Process.check, hcount, Nat.add_zero]
  rfl

/-- The maximum changes neither the number of errors nor the time. -/
theorem receiveMax_frame (s : Process (n + 1) T) (vs : List (Payload T)) :
    (s.receiveMax vs).errors = s.errors ∧ (s.receiveMax vs).t = s.t := by
  unfold Process.receiveMax
  split <;> exact ⟨rfl, rfl⟩

/-- The root is given the greatest of the times. -/
theorem receiveMax_times (s : Process (n + 1) T) :
    IsGreatest (Set.range (time elapsed))
      (s.receiveMax (List.ofFn fun q => .double (time elapsed q))).maxTime := by
  have hvalues : (List.ofFn fun q => Payload.double (time elapsed q)).filterMap Payload.double? =
      List.ofFn (time elapsed) := by
    have hmap : (List.ofFn fun q => Payload.double (time elapsed q)) =
        (List.ofFn (time elapsed)).map Payload.double := by
      rw [List.map_ofFn]
      rfl
    rw [hmap, List.filterMap_map]
    exact List.filterMap_some
  have hne : (List.ofFn (time elapsed)).max? ≠ none := by
    rw [ne_eq, List.max?_eq_none_iff]
    simp
  obtain ⟨t, ht⟩ := Option.ne_none_iff_exists'.mp hne
  have hmax : (s.receiveMax (List.ofFn fun q => .double (time elapsed q))).maxTime = t := by
    simp only [Process.receiveMax, hvalues, ht]
  rw [hmax]
  obtain ⟨hmem, hle⟩ := List.max?_eq_some_iff.mp ht
  refine ⟨List.mem_ofFn.mp hmem, ?_⟩
  rintro _ ⟨q, rfl⟩
  exact hle _ (List.mem_ofFn.mpr ⟨q, rfl⟩)

/-- What holds of a process in each place. -/
def Correct (elapsed : Fin (n + 1) → T) (r : Fin (n + 1)) (s : Process (n + 1) T) : Prop :=
  s.errors = 0 ∧
    match s.pc with
    | .passTime _ => s.t = time elapsed r
    | .receiveTime peer => elapsed peer = time elapsed r
    | .share => s.t = time elapsed r
    | .reduce => s.t = time elapsed r
    | .leave => s.t = time elapsed r ∧ (r = 0 → IsGreatest (Set.range (time elapsed)) s.maxTime)
    | .finished =>
      s.t = time elapsed r ∧ (r = 0 → IsGreatest (Set.range (time elapsed)) s.maxTime)
    | _ => True

/-- A computation keeps what the process knows. -/
theorem Correct.compute {r : Fin (n + 1)} {s next : Process (n + 1) T} (h : Correct elapsed r s)
    (hact : main elapsed r s = .compute next) : Correct elapsed r next := by
  obtain ⟨herrors, -⟩ := h
  cases hpc : s.pc with
  | pingPong =>
    simp only [main, hpc] at hact
    split at hact
    · split_ifs at hact
      · obtain rfl := Act.compute.inj hact
        exact ⟨herrors, trivial⟩
      · obtain rfl := Act.compute.inj hact
        exact ⟨herrors, trivial⟩
    · obtain rfl := Act.compute.inj hact
      exact ⟨herrors, trivial⟩
  | loop peer =>
    simp only [main, hpc] at hact
    split_ifs at hact
    · obtain rfl := Act.compute.inj hact
      exact ⟨herrors, trivial⟩
    · obtain rfl := Act.compute.inj hact
      exact ⟨herrors, trivial⟩
  | average =>
    simp only [main, hpc] at hact
    rcases rank_cases r with ⟨i, rfl⟩ | ⟨i, rfl⟩ | ⟨hpeer, -, -⟩
    · simp only [peer?_pinger, isOdd_ponger, if_true] at hact
      obtain rfl := Act.compute.inj hact
      exact ⟨herrors, (time_pinger i).symm⟩
    · simp only [peer?_ponger, isOdd_pinger, Bool.false_eq_true, if_false] at hact
      obtain rfl := Act.compute.inj hact
      exact ⟨herrors, (time_ponger i).symm⟩
    · simp only [hpeer] at hact
      obtain rfl := Act.compute.inj hact
      refine ⟨herrors, ?_⟩
      show elapsed r = time elapsed r
      rw [time, hpeer]
  | _ =>
    simp only [main, hpc] at hact
    cases hact

/-- So does an operation that returns what the script says. -/
theorem Correct.perform {r : Fin (n + 1)} {s : Process (n + 1) T}
    {op : Op (n + 1) (Payload T)} {next : List (Payload T) → Process (n + 1) T}
    {vs : List (Payload T)} {rest : List (Op (n + 1) (Payload T) × List (Payload T))}
    (h : Correct elapsed r s) (hact : main elapsed r s = .perform op next)
    (htodo : todo elapsed r s = (op, vs) :: rest) : Correct elapsed r (next vs) := by
  obtain ⟨herrors, hplace⟩ := h
  cases hpc : s.pc with
  | firstPing peer =>
    simp only [main, hpc] at hact
    obtain ⟨rfl, rfl⟩ := Act.perform.inj hact
    simp only [todo, hpc] at htodo
    obtain ⟨⟨-, rfl⟩, -⟩ := (List.cons.injEq _ _ _ _).mp htodo |>.imp Prod.mk.inj id
    exact ⟨(check_tBuf s).trans herrors, trivial⟩
  | awaitPong peer =>
    simp only [main, hpc] at hact
    obtain ⟨rfl, rfl⟩ := Act.perform.inj hact
    simp only [todo, hpc] at htodo
    obtain ⟨⟨-, rfl⟩, -⟩ := (List.cons.injEq _ _ _ _).mp htodo |>.imp Prod.mk.inj id
    exact ⟨(check_tBuf s).trans herrors, trivial⟩
  | loop peer =>
    simp only [main, hpc] at hact
    split_ifs at hact
    obtain ⟨rfl, rfl⟩ := Act.perform.inj hact
    exact ⟨herrors, trivial⟩
  | pingPong =>
    simp only [main, hpc] at hact
    split at hact
    · split_ifs at hact
    · cases hact
  | average =>
    simp only [main, hpc] at hact
    split at hact <;> cases hact
  | passTime peer =>
    simp only [main, hpc] at hact
    simp only [hpc] at hplace
    obtain ⟨rfl, rfl⟩ := Act.perform.inj hact
    exact ⟨herrors, hplace⟩
  | receiveTime peer =>
    simp only [main, hpc] at hact
    simp only [hpc] at hplace
    obtain ⟨rfl, rfl⟩ := Act.perform.inj hact
    simp only [todo, hpc] at htodo
    obtain ⟨⟨-, rfl⟩, -⟩ := (List.cons.injEq _ _ _ _).mp htodo |>.imp Prod.mk.inj id
    exact ⟨herrors, hplace⟩
  | share =>
    simp only [main, hpc] at hact
    simp only [hpc] at hplace
    obtain ⟨rfl, rfl⟩ := Act.perform.inj hact
    exact ⟨herrors, hplace⟩
  | reduce =>
    simp only [main, hpc] at hact
    simp only [hpc] at hplace
    obtain ⟨rfl, rfl⟩ := Act.perform.inj hact
    simp only [todo, hpc, reducing] at htodo
    obtain ⟨⟨-, rfl⟩, -⟩ := (List.cons.injEq _ _ _ _).mp htodo |>.imp Prod.mk.inj id
    refine ⟨(receiveMax_frame s _).1.trans herrors, (receiveMax_frame s _).2.trans hplace, ?_⟩
    intro hroot
    simp only [if_pos hroot]
    exact receiveMax_times s
  | leave =>
    simp only [main, hpc] at hact
    simp only [hpc] at hplace
    obtain ⟨rfl, rfl⟩ := Act.perform.inj hact
    exact ⟨herrors, hplace⟩
  | finished =>
    simp only [main, hpc] at hact
    cases hact
  | _ =>
    simp only [main, hpc] at hact
    obtain ⟨rfl, rfl⟩ := Act.perform.inj hact
    exact ⟨herrors, trivial⟩

omit [LinearOrder T] in
/-- Both of a pair end up with the same time. -/
theorem time_peer {r peer : Fin (n + 1)} (h : peer? r = some peer) :
    time elapsed peer = time elapsed r := by
  rcases rank_cases r with ⟨i, rfl⟩ | ⟨i, rfl⟩ | ⟨hnone, -, -⟩
  · obtain rfl := Option.some.inj ((peer?_pinger i).symm.trans h)
    rw [time_pinger, time_ponger]
  · obtain rfl := Option.some.inj ((peer?_ponger i).symm.trans h)
    rw [time_pinger, time_ponger]
  · cases hnone.symm.trans h

end Choreography

/-- In every interleaving, and whatever is buffered, the test comes to its end after finitely many
steps. No check fails, everything that was sent has been received, the ranks of a pair agree on the
time of the one that sent the pings, and rank `0` has the greatest time. -/
theorem main_completes [LinearOrder T] [Zero T] (elapsed : Fin (n + 1) → T)
    (eager : Fin (n + 1) → ℕ → Prop) :
    (∃ μ : Config (n + 1) (Process (n + 1) T) (Payload T) → ℕ, ∀ c c',
      Reachable eager (main elapsed) (fun _ => Process.init) c →
        Step eager (main elapsed) c c' → μ c' < μ c) ∧
    ∀ c, Reachable eager (main elapsed) (fun _ => Process.init) c →
      (∀ r, (c.loc r).errors = 0) ∧
      (Stuck eager (main elapsed) c → ∀ r,
        (c.loc r).pc = .finished ∧
        (∀ q, (sentTo q (c.begun r)).length = receivesFrom r (c.begun q)) ∧
        (∀ peer, peer? r = some peer → (c.loc r).t = (c.loc peer).t ∧
          (isOdd peer = true → (c.loc r).t = elapsed r)) ∧
        (r = 0 → IsGreatest (Set.range fun q => (c.loc q).t) (c.loc r).maxTime)) := by
  have hinit : ∀ r, todo elapsed r Process.init = script r (choreography elapsed) := todo_init
  refine ⟨enacts.terminates hinit, fun c hc => ?_⟩
  have hcorrect : ∀ r, Correct elapsed r (c.loc r) := fun r =>
    Reachable.localInv enacts hinit (fun _ => ⟨rfl, trivial⟩) (fun h hact => h.compute hact)
      (fun h hact htodo => h.perform hact htodo) hc r
  refine ⟨fun r => (hcorrect r).1, fun hstuck r => ?_⟩
  have hend : ∀ q, Halted (main elapsed) c q ∧ c.begun q = ops q (choreography elapsed) :=
    fun q => enacts.halted_of_stuck hinit hc hstuck q
  have hpc : ∀ q, (c.loc q).pc = .finished := fun q => pc_of_halt (hend q).1.2
  have hfinal : ∀ q, (c.loc q).t = time elapsed q ∧
      (q = 0 → IsGreatest (Set.range (time elapsed)) (c.loc q).maxTime) := fun q => by
    have hplace := (hcorrect q).2
    simpa only [hpc q] using hplace
  refine ⟨hpc r, fun q => ?_, fun peer hpeer => ⟨?_, fun hodd => ?_⟩, fun hroot => ?_⟩
  · rw [(hend r).2, (hend q).2, sentTo_ops, receivesFrom_ops]
  · rw [(hfinal r).1, (hfinal peer).1, time_peer hpeer]
  · rw [(hfinal r).1, time, hpeer]
    simp [hodd]
  · have htimes : (fun q => (c.loc q).t) = time elapsed := funext fun q => (hfinal q).1
    rw [htimes]
    exact (hfinal r).2 hroot

end MpiTest
