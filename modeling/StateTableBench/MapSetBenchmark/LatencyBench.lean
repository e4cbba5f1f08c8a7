import StateTableBench.MapSetBenchmark.Routes
import StateTableBench.Transition.Run

/-!
# The routes of the latency benchmark

`LatencyBench.routeBench` adds a route or removes one, as a random bit says. `run` fills the set
with `dataSize` routes, and calls it for the warmup and for the measurement.

`neverRunsDry_iff`: nothing keeps the list from getting empty. If more routes are to be removed than
there are, then `Random.nextInt(0)` throws, and the benchmark ends without results.
-/

namespace MapSetBenchmark

namespace LatencyBench

open Routes

/-- The number of operations of the warmup. -/
def WARMUP_OP_COUNT : ℤ := 300

variable {ρ : Type} [DecidableEq ρ] (rnd : Random) (randomRoute : ℕ → ρ)

/-- The body of the loop of `routeBench`, up to the wait for the watcher. -/
def iteration (s : Routes ρ) : Except Exn (Routes ρ) := do
  let (choice, s) ← nextInt rnd 2 s
  if choice = 0 then
    let (route, s) ← removeRndRoute rnd s
    return { s with routeSet := s.routeSet.erase route }
  else return s.add (randomRoute s.generated)

/-- `routeBench(opCount)` -/
def routeBench (opCount : ℤ) (s : Routes ρ) : Except Exn (Routes ρ) :=
  (List.range opCount.toNat).foldlM (fun s _ => iteration rnd randomRoute s) s

/-- `run()`, up to the statistics; it catches the exception. -/
def run (dataSize writeCount : ℤ) : Except Exn (Routes ρ) := do
  let s := populateRouteSet randomRoute dataSize init
  let s ← routeBench rnd randomRoute WARMUP_OP_COUNT s
  routeBench rnd randomRoute writeCount s

/-! ## One iteration -/

section Iteration

variable {rnd randomRoute} {s : Routes ρ}

/-- The bit decides for an addition. -/
theorem iteration_of_ne_zero (h : rnd.nextInt s.calls 2 ≠ 0) :
    iteration rnd randomRoute s =
      .ok { s.add (randomRoute s.generated) with calls := s.calls + 1 } := by
  change (if rnd.nextInt s.calls 2 = 0 then _ else _) = _
  rw [if_neg h]
  rfl

/-- The bit decides for a removal. -/
theorem iteration_of_eq_zero (h : rnd.nextInt s.calls 2 = 0) :
    iteration rnd randomRoute s = (do
      let (route, s) ← removeRndRoute rnd { s with calls := s.calls + 1 }
      return { s with routeSet := s.routeSet.erase route }) := by
  change (if rnd.nextInt s.calls 2 = 0 then _ else _) = _
  rw [if_pos h]

variable (randomRoute) in
/-- A route is removed from both containers. -/
theorem iteration_of_pos (h : rnd.nextInt s.calls 2 = 0) (hpos : 0 < s.routes.length) :
    ∃ index route, s.routes[index]? = some route ∧ index < s.routes.length ∧
      iteration rnd randomRoute s = .ok { s with
        routes := s.routes.eraseIdx index
        routeSet := s.routeSet.erase route
        calls := s.calls + 2 } := by
  -- the second random value is an index of the list
  have hlt := rnd.nextInt_lt (s.calls + 1) _ hpos
  refine ⟨_, _, List.getElem?_eq_getElem hlt, hlt, ?_⟩
  rw [iteration_of_eq_zero h, removeRndRoute, nextInt, if_neg (by exact hpos.ne')]
  simp only [bind, Except.bind, List.getElem?_eq_getElem hlt]
  rfl

/-- There is none to be removed. -/
theorem iteration_of_nil (h : rnd.nextInt s.calls 2 = 0) (hnil : s.routes.length = 0) :
    iteration rnd randomRoute s = .error .illegalArgument := by
  rw [iteration_of_eq_zero h, removeRndRoute, nextInt, if_pos (by exact hnil)]
  rfl

end Iteration

/-! ## The length of the list -/

/-- How many of the first `n` iterations remove a route. An iteration uses a second random value
exactly if it does. -/
def removals : ℕ → ℕ
  | 0 => 0
  | n + 1 => removals n + if rnd.nextInt (n + removals n) 2 = 0 then 1 else 0

/-- The state after `n` iterations that start with `d` routes. -/
structure After (d n : ℕ) (s : Routes ρ) : Prop where
  mirrors : s.Mirrors
  fresh : Fresh randomRoute s
  calls : s.calls = n + removals rnd n
  length : s.routes.length + 2 * removals rnd n = d + n

section Walk

variable {rnd randomRoute} {d n : ℕ} {s s' : Routes ρ}

/-- An iteration returns if it does not remove one route too many. -/
theorem After.iteration (hinj : Function.Injective randomRoute) (h : After rnd randomRoute d n s)
    (hle : 2 * removals rnd (n + 1) ≤ d + (n + 1)) :
    ∃ s', iteration rnd randomRoute s = .ok s' ∧ After rnd randomRoute d (n + 1) s' := by
  have hlength := h.length
  by_cases hchoice : rnd.nextInt (n + removals rnd n) 2 = 0
  -- a route is removed, and the bound says that there is one
  · have hremovals : removals rnd (n + 1) = removals rnd n + 1 := by
      rw [removals, if_pos hchoice]
    have hpos : 0 < s.routes.length := by omega
    obtain ⟨index, route, hindex, hlt, hiteration⟩ :=
      iteration_of_pos randomRoute (h.calls ▸ hchoice) hpos
    refine ⟨_, hiteration, ⟨h.mirrors.remove hindex, fun k hk hmem => ?_, ?_, ?_⟩⟩
    · exact h.fresh k hk (Finset.mem_of_mem_erase hmem)
    · dsimp only
      rw [hremovals, h.calls]
      omega
    · rw [hremovals, List.length_eraseIdx_of_lt hlt]
      omega
  -- a route is added that is not in the set
  · have hremovals : removals rnd (n + 1) = removals rnd n := by
      rw [removals, if_neg hchoice, Nat.add_zero]
    refine ⟨_, iteration_of_ne_zero (h.calls ▸ hchoice), ⟨h.mirrors.add (h.fresh _ le_rfl),
      h.fresh.add hinj, ?_, ?_⟩⟩
    · dsimp only
      rw [hremovals, h.calls]
      omega
    · rw [hremovals, Routes.add, List.length_append, List.length_singleton]
      omega

/-- Otherwise it throws. -/
theorem After.iteration_eq_error (h : After rnd randomRoute d n s)
    (hlt : d + (n + 1) < 2 * removals rnd (n + 1)) :
    LatencyBench.iteration rnd randomRoute s = .error .illegalArgument := by
  have hlength := h.length
  by_cases hchoice : rnd.nextInt (n + removals rnd n) 2 = 0
  · rw [removals, if_pos hchoice] at hlt
    exact iteration_of_nil (h.calls ▸ hchoice) (by omega)
  -- an operation that adds a route cannot be the one too many
  · rw [removals, if_neg hchoice] at hlt
    omega

/-- The last operation is made last. -/
theorem routeBench_succ (n : ℕ) (s : Routes ρ) :
    routeBench rnd randomRoute (n + 1 : ℕ) s =
      routeBench rnd randomRoute n s >>= LatencyBench.iteration rnd randomRoute := by
  simp only [routeBench, Int.toNat_natCast, List.range_succ, List.foldlM_append,
    List.foldlM_cons, List.foldlM_nil, bind_pure]

/-- Some iterations, starting after `m` others. -/
theorem After.routeBench (hinj : Function.Injective randomRoute) {m : ℕ}
    (h : After rnd randomRoute d m s)
    (hle : ∀ k ≤ n, 2 * removals rnd (m + k) ≤ d + (m + k)) :
    ∃ s', routeBench rnd randomRoute n s = .ok s' ∧ After rnd randomRoute d (m + n) s' := by
  induction n with
  | zero => exact ⟨s, rfl, h⟩
  | succ n ih =>
    obtain ⟨s', hs', hafter⟩ := ih fun k hk => hle k (Nat.le_succ_of_le hk)
    obtain ⟨s'', hs'', hafter'⟩ := hafter.iteration hinj (hle (n + 1) le_rfl)
    exact ⟨s'', by rw [routeBench_succ, hs']; exact hs'', hafter'⟩

/-- If they return then no prefix removes too many routes. -/
theorem After.le_of_routeBench (hinj : Function.Injective randomRoute) {m : ℕ}
    (h : After rnd randomRoute d m s)
    (hok : ∃ s', LatencyBench.routeBench rnd randomRoute n s = .ok s') :
    ∀ k ≤ n, 2 * removals rnd (m + k) ≤ d + (m + k) := by
  induction n with
  | zero =>
    intro k hk
    have hlength := h.length
    rw [Nat.le_zero.mp hk, Nat.add_zero]
    omega
  | succ n ih =>
    -- the operations before the last one return too, so the bound holds of them
    obtain ⟨s'', hs''⟩ := hok
    rw [routeBench_succ] at hs''
    obtain ⟨s', hs', hiteration⟩ := Run.bind_eq_ok_iff.mp hs''
    have hle := ih ⟨s', hs'⟩
    intro k hk
    rcases Nat.lt_or_ge n k with hlast | hbefore
    · obtain rfl : k = n + 1 := by omega
      -- the last iteration would have thrown
      by_contra hgt
      obtain ⟨s₁, hs₁, hafter⟩ := h.routeBench hinj hle
      obtain rfl := Except.ok.inj (hs'.symm.trans hs₁)
      rw [hafter.iteration_eq_error (Nat.lt_of_not_le hgt)] at hiteration
      cases hiteration
    · exact hle k hbefore

end Walk

/-! ## The calls of a run -/

section Calls

variable (warmupCount opCount dataSize : ℤ)

/-- Throughout the three calls of a run the list mirrors the set, and no route is removed from an
empty list. The states within a call are those after fewer operations. -/
def NeverRunsDry : Prop :=
  (∀ k ≤ dataSize, (populateRouteSet randomRoute k init).Mirrors) ∧
    let populated := populateRouteSet randomRoute dataSize init
    (∀ k ≤ warmupCount, ∃ s, routeBench rnd randomRoute k populated = .ok s ∧ s.Mirrors) ∧
      ∀ warm, routeBench rnd randomRoute warmupCount populated = .ok warm →
        ∀ k ≤ opCount, ∃ s, routeBench rnd randomRoute k warm = .ok s ∧ s.Mirrors

variable {rnd randomRoute}

/-- A negative number of operations is none. -/
theorem routeBench_toNat (k : ℤ) (s : Routes ρ) :
    routeBench rnd randomRoute k s = routeBench rnd randomRoute k.toNat s := by
  simp only [routeBench, Int.toNat_natCast]

variable (rnd) in
/-- The populated set has `dataSize` routes. -/
theorem after_populateRouteSet (hinj : Function.Injective randomRoute) :
    After rnd randomRoute dataSize.toNat 0 (populateRouteSet randomRoute dataSize init) := by
  obtain ⟨hmirrors, hfresh, hlength, hcalls⟩ := populateRouteSet_init hinj dataSize
  refine ⟨hmirrors, hfresh, ?_, ?_⟩
  · rw [hcalls, removals]
  · rw [hlength, removals]

variable {warmupCount opCount dataSize}

/-- With never more removals than routes no draw fails. -/
theorem neverRunsDry_of_le (hinj : Function.Injective randomRoute)
    (hle : ∀ n ≤ warmupCount.toNat + opCount.toNat, 2 * removals rnd n ≤ dataSize.toNat + n) :
    NeverRunsDry rnd randomRoute warmupCount opCount dataSize := by
  have hpopulated := after_populateRouteSet rnd dataSize hinj
  refine ⟨fun k _ => (populateRouteSet_init hinj k).1, fun k hk => ?_, fun warm hwarm k hk => ?_⟩
  · obtain ⟨s, hs, hafter⟩ := hpopulated.routeBench hinj (n := k.toNat)
      fun i hi => by
        have := hle (0 + i) (by omega)
        omega
    exact ⟨s, by rw [routeBench_toNat, hs], hafter.mirrors⟩
  · -- the measured call goes on after the warmup
    obtain ⟨warm', hwarm', hafter⟩ := hpopulated.routeBench hinj (n := warmupCount.toNat)
      fun i hi => by
        have := hle (0 + i) (by omega)
        omega
    rw [routeBench_toNat, hwarm'] at hwarm
    obtain rfl := Except.ok.inj hwarm
    obtain ⟨s, hs, hafter'⟩ := hafter.routeBench hinj (n := k.toNat)
      fun i hi => by
        have := hle (0 + warmupCount.toNat + i) (by omega)
        omega
    exact ⟨s, by rw [routeBench_toNat, hs], hafter'.mirrors⟩

/-- If both calls return then the list has been long enough all the time. -/
theorem le_of_calls (hinj : Function.Injective randomRoute) {warm s : Routes ρ}
    (hwarm : routeBench rnd randomRoute warmupCount
      (populateRouteSet randomRoute dataSize init) = .ok warm)
    (hs : routeBench rnd randomRoute opCount warm = .ok s) :
    ∀ n ≤ warmupCount.toNat + opCount.toNat, 2 * removals rnd n ≤ dataSize.toNat + n := by
  have hpopulated := after_populateRouteSet rnd dataSize hinj
  rw [routeBench_toNat] at hwarm hs
  have hfirst := hpopulated.le_of_routeBench hinj ⟨warm, hwarm⟩
  obtain ⟨warm', hwarm', hafter⟩ := hpopulated.routeBench hinj hfirst
  obtain rfl := Except.ok.inj (hwarm.symm.trans hwarm')
  have hsecond := hafter.le_of_routeBench hinj ⟨s, hs⟩
  intro n hn
  -- an initial part ends in the warmup or in the measured call
  rcases Nat.le_total n warmupCount.toNat with hle | hge
  · have := hfirst n hle
    rwa [Nat.zero_add] at this
  · have := hsecond (n - warmupCount.toNat) (by omega)
    rwa [Nat.zero_add, Nat.add_sub_cancel' hge] at this

/-- If no draw fails, there were never more removals than routes. -/
theorem le_of_neverRunsDry (hinj : Function.Injective randomRoute)
    (h : NeverRunsDry rnd randomRoute warmupCount opCount dataSize) :
    ∀ n ≤ warmupCount.toNat + opCount.toNat, 2 * removals rnd n ≤ dataSize.toNat + n := by
  obtain ⟨-, hwarmup, hmeasured⟩ := h
  obtain ⟨warm, hwarm, -⟩ := hwarmup warmupCount le_rfl
  obtain ⟨s, hs, -⟩ := hmeasured warm hwarm opCount le_rfl
  exact le_of_calls hinj hwarm hs

/-- It is also when `run` gets to its statistics. -/
theorem exists_run_iff (hinj : Function.Injective randomRoute) (dataSize writeCount : ℤ) :
    (∃ s, run rnd randomRoute dataSize writeCount = .ok s) ↔
      NeverRunsDry rnd randomRoute WARMUP_OP_COUNT writeCount dataSize := by
  constructor
  · rintro ⟨s, hs⟩
    obtain ⟨warm, hwarm, hmeasured⟩ := Run.bind_eq_ok_iff.mp hs
    exact neverRunsDry_of_le hinj (le_of_calls hinj hwarm hmeasured)
  · rintro ⟨-, hwarmup, hmeasured⟩
    obtain ⟨warm, hwarm, -⟩ := hwarmup WARMUP_OP_COUNT le_rfl
    obtain ⟨s, hs, -⟩ := hmeasured warm hwarm writeCount le_rfl
    exact ⟨s, Run.bind_eq_ok_iff.mpr ⟨warm, hwarm, hs⟩⟩

end Calls

/-- The list never runs dry exactly if in no initial part of the run more routes are removed than
there have been, those of `populateRouteSet` included. -/
theorem neverRunsDry_iff (rnd : Random) {randomRoute : ℕ → ρ}
    (hinj : Function.Injective randomRoute) (warmupCount opCount dataSize : ℤ) :
    NeverRunsDry rnd randomRoute warmupCount opCount dataSize ↔
      ∀ n ≤ warmupCount.toNat + opCount.toNat, 2 * removals rnd n ≤ dataSize.toNat + n :=
  ⟨le_of_neverRunsDry hinj, neverRunsDry_of_le hinj⟩

/-- The only route may be removed. -/
theorem neverRunsDry_zeros_one : NeverRunsDry .zeros (fun k : ℕ => k) 1 0 1 :=
  (neverRunsDry_iff .zeros (fun _ _ h => h) 1 0 1).mpr (by decide)

/-- But a second removal throws. -/
theorem not_neverRunsDry_zeros :
    ¬NeverRunsDry .zeros (fun k : ℕ => k) WARMUP_OP_COUNT 1 1 ∧
      routeBench .zeros (fun k : ℕ => k) 2 (populateRouteSet (fun k : ℕ => k) 1 init) =
        .error .illegalArgument := by
  have hthrows : routeBench .zeros (fun k : ℕ => k) 2
      (populateRouteSet (fun k : ℕ => k) 1 init) = .error .illegalArgument := rfl
  refine ⟨fun h => ?_, hthrows⟩
  obtain ⟨s, hs, -⟩ := h.2.1 2 (by decide)
  rw [hthrows] at hs
  cases hs

end LatencyBench

end MapSetBenchmark
