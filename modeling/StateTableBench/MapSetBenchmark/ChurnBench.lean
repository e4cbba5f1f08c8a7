import StateTableBench.MapSetBenchmark.Routes
import StateTableBench.Mpi.Arrays
import StateTableBench.Transition.Run

/-!
# The routes of the churn benchmark

`ChurnBench.routeBench` adds routes to the replicated set, so that its size tells the clients which
version they have received. The version is the size, minus the number of routes that the set had
before, minus one. The warmup should therefore add and remove routes alternately.

`keepsVersions_iff`: it only adds routes, since the only value of `nextInt(1)` is zero. The size
stays the same only if there is at most one operation.
-/

namespace MapSetBenchmark

/-- The fields of a `ChurnBench`. -/
structure ChurnBench where
  dataSize : Int32
  writeCount : Int32
  /-- Writes per second. -/
  writeRate : Int32

namespace ChurnBench

open Routes

variable {ρ : Type} [DecidableEq ρ]

/-- What the process with rank 0 changes. -/
structure Updater (ρ : Type) where
  routes : Routes ρ
  versionTimestamps : List Int64
  /-- The versions of the set that are added in the benchmark, with their numbers. -/
  versions : List (ℕ × Finset ρ)

/-- A route is added to the set, but not to the list. -/
def addRoute (randomRoute : ℕ → ρ) (s : Routes ρ) : Routes ρ :=
  { s with
    routeSet := insert (randomRoute s.generated) s.routeSet
    generated := s.generated + 1 }

variable (bench : ChurnBench) (rnd : Random) (randomRoute : ℕ → ρ) (currentTimeMillis : ℕ → Int64)

/-- The fields before the warmup. -/
def updater (s : Routes ρ) : Updater ρ where
  routes := s
  versionTimestamps := List.replicate bench.writeCount.toInt.toNat 0
  versions := []

/-- The body of the loop of the warmup. -/
def warmupBody (opCount : ℤ) (s : Updater ρ) (version : ℕ) :
    Except (Exn × Updater ρ) (Updater ρ) :=
  if version < opCount - 1 ∨ opCount.tmod 2 = 0 then
    if rnd.nextInt s.routes.calls 1 = 0 then
      let routes := { s.routes with calls := s.routes.calls + 1 }
      .ok { s with routes := addRoute randomRoute routes }
    else
      -- `nextInt(1)` is never another value than zero, so nothing is ever removed
      match removeRndRoute rnd { s.routes with calls := s.routes.calls + 1 } with
      | .error e => .error (e, s)
      | .ok (route, routes) =>
        .ok { s with routes := { routes with routeSet := routes.routeSet.erase route } }
  else .ok s

/-- The body of the loop of the benchmark. -/
def benchmarkBody (s : Updater ρ) (version : ℕ) : Except (Exn × Updater ρ) (Updater ρ) :=
  if version < s.versionTimestamps.length then
    let routes := addRoute randomRoute s.routes
    let s := {
      routes := routes
      versionTimestamps := s.versionTimestamps.set version (currentTimeMillis version)
      versions := s.versions ++ [(version, routes.routeSet)] }
    -- `Thread.sleep(sleepTime)`
    if Int.tdiv 1000 bench.writeRate.toInt < 0 then .error (.illegalArgument, s) else .ok s
  -- the time is stored before the route is added
  else .error (.indexOutOfBounds, s)

/-- `routeBench(opCount, warmup)` of the process with rank 0. -/
def routeBench (opCount : ℤ) (warmup : Bool) (s : Updater ρ) :
    Except (Exn × Updater ρ) (Updater ρ) :=
  -- `int sleepTime = 1000 / writeRate`
  if bench.writeRate = 0 then .error (.arithmetic, s)
  else (List.range opCount.toNat).foldlM
    (if warmup then warmupBody rnd randomRoute opCount
      else bench.benchmarkBody randomRoute currentTimeMillis) s

/-- The version that a client computes. -/
def version (strings : Finset ρ) : Int32 := Int32.ofNat strings.card - bench.dataSize - 1

/-- The warmup keeps the size of the set, and then the versions of the benchmark are what the
clients compute. -/
def KeepsVersions (opCount : ℤ) (s : Routes ρ) : Prop :=
  let warm := Run.left
    (bench.routeBench rnd randomRoute currentTimeMillis opCount true (bench.updater s))
  warm.routes.routeSet.card = s.routeSet.card ∧
    ((s.routeSet.card : ℤ) = bench.dataSize.toInt →
      ∀ p ∈ (Run.left (bench.routeBench rnd randomRoute currentTimeMillis bench.writeCount.toInt
        false warm)).versions,
        (bench.version p.2).toInt = p.1 ∧ (p.1 : ℤ) < bench.writeCount.toInt)

/-! ## Additions -/

section Additions

variable {randomRoute} {s : Routes ρ}

/-- A new route adds one to the set. -/
theorem card_addRoute (hfresh : Fresh randomRoute s) :
    (addRoute randomRoute s).routeSet.card = s.routeSet.card + 1 :=
  Finset.card_insert_of_notMem (hfresh _ le_rfl)

/-- The routes still to be drawn stay new. -/
theorem fresh_addRoute (hinj : Function.Injective randomRoute) (hfresh : Fresh randomRoute s) :
    Fresh randomRoute (addRoute randomRoute s) :=
  hfresh.add hinj

/-- The warmup adds a route, or it does nothing. -/
theorem warmupBody_eq_ok (opCount : ℤ) (s : Updater ρ) (version : ℕ) :
    warmupBody rnd randomRoute opCount s version =
      .ok (if version < opCount - 1 ∨ opCount.tmod 2 = 0 then
        { s with routes := addRoute randomRoute { s.routes with calls := s.routes.calls + 1 } }
      else s) := by
  have hzero : rnd.nextInt s.routes.calls 1 = 0 :=
    Nat.lt_one_iff.mp (rnd.nextInt_lt _ 1 Nat.one_pos)
  unfold warmupBody
  rw [if_pos hzero]
  split <;> rfl

/-- How many routes the first `n` operations of the warmup add. -/
def additions (opCount : ℤ) (n : ℕ) : ℕ :=
  if opCount.tmod 2 = 0 then n else min n (opCount - 1).toNat

variable (randomRoute) in
/-- What holds after `n` operations of the warmup. -/
structure Warm (opCount : ℤ) (s : Routes ρ) (n : ℕ) (u : Updater ρ) : Prop where
  card : u.routes.routeSet.card = s.routeSet.card + additions opCount n
  fresh : Fresh randomRoute u.routes
  length : u.versionTimestamps.length = bench.writeCount.toInt.toNat
  versions : u.versions = []

variable {bench} in
/-- A pass of the warmup adds a route, without an exception. -/
theorem Warm.next (hinj : Function.Injective randomRoute) {opCount : ℤ} {n : ℕ} {u : Updater ρ}
    (h : bench.Warm randomRoute opCount s n u) :
    ∃ u', warmupBody rnd randomRoute opCount u n = .ok u' ∧
      bench.Warm randomRoute opCount s (n + 1) u' := by
  refine ⟨_, warmupBody_eq_ok rnd opCount u n, ?_⟩
  have hcard := h.card
  unfold additions at hcard
  split
  · next hadd =>
    -- the size counts the additions
    have hadded : (addRoute randomRoute
        { u.routes with calls := u.routes.calls + 1 }).routeSet.card =
          u.routes.routeSet.card + 1 := card_addRoute h.fresh
    refine ⟨hadded.trans ?_, fresh_addRoute hinj h.fresh, h.length, h.versions⟩
    unfold additions
    split_ifs at hcard ⊢ <;> omega
  · next hskip =>
    -- the last operation of an odd number is left out
    refine ⟨?_, h.fresh, h.length, h.versions⟩
    unfold additions
    split_ifs at hcard ⊢ <;> omega

/-- The warmup adds as many routes as it has operations. -/
theorem warm_warmup (hinj : Function.Injective randomRoute) (hfresh : Fresh randomRoute s)
    (hrate : bench.writeRate ≠ 0) (opCount : ℤ) :
    bench.Warm randomRoute opCount s opCount.toNat (Run.left
      (bench.routeBench rnd randomRoute currentTimeMillis opCount true (bench.updater s))) := by
  rw [routeBench, if_neg hrate, if_pos rfl]
  refine Run.left_foldlM_range (I := bench.Warm randomRoute opCount s) ?_ (fun _ h => h)
    fun n _ u h => .inl (h.next rnd hinj)
  refine ⟨?_, hfresh, List.length_replicate, rfl⟩
  unfold additions updater
  split_ifs <;> simp

/-- The warmup adds a route unless it has at most one operation. -/
theorem additions_eq_zero_iff (opCount : ℤ) :
    additions opCount opCount.toNat = 0 ↔ opCount ≤ 1 := by
  unfold additions
  split_ifs with heven
  -- an even number of at most one operation is none
  · have hdvd : 2 ∣ opCount := Int.dvd_of_tmod_eq_zero heven
    omega
  · omega

end Additions

/-! ## Versions -/

section Versions

variable {bench randomRoute currentTimeMillis}

omit [DecidableEq ρ] in
/-- The difference of the sizes is the number of the version, even if the sizes overflow. -/
theorem toInt_version {strings : Finset ρ} {v : ℕ}
    (hcard : (strings.card : ℤ) = bench.dataSize.toInt + v + 1)
    (hlt : (v : ℤ) < bench.writeCount.toInt) : (bench.version strings).toInt = v := by
  have hmax := bench.writeCount.toInt_lt
  have hfits : FitsInt (v : ℤ) := ⟨by omega, by omega⟩
  have hdifference : (strings.card : ℤ) - bench.dataSize.toInt - 1 = v := by omega
  have hsize : (Int32.ofNat strings.card).toInt = (strings.card : ℤ).bmod (2 ^ 32) :=
    Int32.toInt_ofNat'
  -- the wraparounds of the size and of both differences are one, which does not change `v`
  rw [version, Int32.toInt_sub, Int32.toInt_sub, hsize, Int.bmod_sub_bmod, Int.sub_sub,
    Int.bmod_sub_bmod, ← Int.sub_sub, Int32.toInt_one, hdifference, Int32.bmod_of_fitsInt hfits]

/-- What holds after `n` operations of the benchmark. -/
structure Counted (bench : ChurnBench) (randomRoute : ℕ → ρ) (n : ℕ) (u : Updater ρ) : Prop where
  card : (u.routes.routeSet.card : ℤ) = bench.dataSize.toInt + n
  fresh : Fresh randomRoute u.routes
  length : u.versionTimestamps.length = bench.writeCount.toInt.toNat
  versions : ∀ p ∈ u.versions,
    (bench.version p.2).toInt = p.1 ∧ (p.1 : ℤ) < bench.writeCount.toInt

variable (currentTimeMillis) in
/-- A pass of the benchmark keeps the counts. -/
theorem Counted.next (hinj : Function.Injective randomRoute) {n : ℕ} {u : Updater ρ}
    (hn : n < bench.writeCount.toInt.toNat) (h : bench.Counted randomRoute n u) :
    bench.Counted randomRoute (n + 1)
      (Run.left (bench.benchmarkBody randomRoute currentTimeMillis u n)) := by
  -- version `n` is the set with `n + 1` more routes than at first
  have hcard : ((addRoute randomRoute u.routes).routeSet.card : ℤ) =
      bench.dataSize.toInt + n + 1 := by
    rw [card_addRoute h.fresh, Nat.cast_add, h.card]
    rfl
  have hversions : ∀ p ∈ u.versions ++ [(n, (addRoute randomRoute u.routes).routeSet)],
      (bench.version p.2).toInt = p.1 ∧ (p.1 : ℤ) < bench.writeCount.toInt := by
    intro p hp
    rcases List.mem_append.mp hp with hold | hnew
    · exact h.versions p hold
    · rw [List.mem_singleton.mp hnew]
      have hlt : (n : ℤ) < bench.writeCount.toInt := by omega
      exact ⟨toInt_version hcard hlt, hlt⟩
  have hnext : bench.Counted randomRoute (n + 1) {
      routes := addRoute randomRoute u.routes
      versionTimestamps := u.versionTimestamps.set n (currentTimeMillis n)
      versions := u.versions ++ [(n, (addRoute randomRoute u.routes).routeSet)] } := by
    refine ⟨hcard.trans (Int.add_assoc _ _ _), fresh_addRoute hinj h.fresh, ?_, hversions⟩
    exact List.length_set.trans h.length
  unfold benchmarkBody
  rw [if_pos (by rw [h.length]; exact hn)]
  -- the route has been added when the sleep throws
  dsimp only
  split
  · exact hnext
  · exact hnext

/-- What the clients get. -/
theorem versions_benchmark (hinj : Function.Injective randomRoute) {u : Updater ρ}
    (h : bench.Counted randomRoute 0 u) :
    ∀ p ∈ (Run.left (bench.routeBench rnd randomRoute currentTimeMillis bench.writeCount.toInt
        false u)).versions,
      (bench.version p.2).toInt = p.1 ∧ (p.1 : ℤ) < bench.writeCount.toInt := by
  rw [routeBench]
  split
  · exact h.versions
  · rw [if_neg Bool.false_ne_true]
    refine Run.left_foldlM_range (I := bench.Counted randomRoute)
      (J := fun u : Updater ρ => ∀ p ∈ u.versions,
        (bench.version p.2).toInt = p.1 ∧ (p.1 : ℤ) < bench.writeCount.toInt)
      h (fun _ h => h.versions) fun n hn u hu => ?_
    have hnext := hu.next currentTimeMillis hinj hn
    cases hbody : bench.benchmarkBody randomRoute currentTimeMillis u n with
    | ok u' =>
      rw [hbody] at hnext
      exact .inl ⟨u', rfl, hnext⟩
    | error e =>
      rw [hbody] at hnext
      exact .inr ⟨e.1, e.2, rfl, hnext.versions⟩

end Versions

section KeepsVersions

variable {bench rnd randomRoute currentTimeMillis} {opCount : ℤ} {s : Routes ρ}

/-- A warmup without additions. -/
theorem warmup_of_le (hinj : Function.Injective randomRoute) (hfresh : Fresh randomRoute s)
    (h : opCount ≤ 1 ∨ bench.writeRate = 0) :
    let warm := Run.left
      (bench.routeBench rnd randomRoute currentTimeMillis opCount true (bench.updater s))
    warm.routes.routeSet.card = s.routeSet.card ∧ Fresh randomRoute warm.routes ∧
      warm.versionTimestamps.length = bench.writeCount.toInt.toNat ∧ warm.versions = [] := by
  by_cases hrate : bench.writeRate = 0
  -- the division by `writeRate` throws before anything is added
  · rw [routeBench, if_pos hrate]
    exact ⟨rfl, hfresh, List.length_replicate, rfl⟩
  · have hzero := (additions_eq_zero_iff opCount).mpr (h.resolve_right hrate)
    obtain ⟨hcard, hfresh', hlength, hversions⟩ :=
      bench.warm_warmup rnd currentTimeMillis hinj hfresh hrate opCount
    rw [hzero] at hcard
    exact ⟨hcard, hfresh', hlength, hversions⟩

/-- Without a warmup pass, or with one, the versions are kept. -/
theorem keepsVersions_of_le (hinj : Function.Injective randomRoute) (hfresh : Fresh randomRoute s)
    (h : opCount ≤ 1 ∨ bench.writeRate = 0) :
    bench.KeepsVersions rnd randomRoute currentTimeMillis opCount s := by
  obtain ⟨hcard, hfresh', hlength, hversions⟩ := warmup_of_le hinj hfresh h
  refine ⟨hcard, fun hsize => versions_benchmark rnd hinj ⟨?_, hfresh', hlength, ?_⟩⟩
  · rw [hcard, hsize]
    exact (Int.add_zero _).symm
  · rw [hversions]
    exact List.forall_mem_nil _

/-- The warmup keeps the size of the set, and with it the numbers of the versions, exactly if it has
at most one operation. (If `writeRate` is zero then nothing is ever added.) -/
theorem keepsVersions_iff (bench : ChurnBench) (rnd : Random)
    (hinj : Function.Injective randomRoute) (currentTimeMillis : ℕ → Int64) (opCount : ℤ)
    (hfresh : Fresh randomRoute s) :
    bench.KeepsVersions rnd randomRoute currentTimeMillis opCount s ↔
      opCount ≤ 1 ∨ bench.writeRate = 0 := by
  refine ⟨fun h => ?_, keepsVersions_of_le hinj hfresh⟩
  by_cases hrate : bench.writeRate = 0
  · exact .inr hrate
  · have hcard := (bench.warm_warmup rnd currentTimeMillis hinj hfresh hrate opCount).card
    have hkept := h.1
    rw [hcard] at hkept
    exact .inl ((additions_eq_zero_iff opCount).mp (by omega))

/-- A warmup with one operation does nothing. -/
theorem keepsVersions_one :
    (⟨0, 3, 100⟩ : ChurnBench).KeepsVersions .zeros (fun k : ℕ => k) (fun _ => 0) 1 init :=
  (keepsVersions_iff ⟨0, 3, 100⟩ .zeros (fun _ _ h => h) (fun _ => 0) 1 fresh_init).mpr
    (.inl le_rfl)

/-- A warmup with two operations adds two routes. -/
theorem not_keepsVersions_two :
    ¬(⟨0, 3, 100⟩ : ChurnBench).KeepsVersions .zeros (fun k : ℕ => k) (fun _ => 0) 2 init :=
  fun h => absurd h.1 (by decide)

end KeepsVersions

end ChurnBench

end MapSetBenchmark
