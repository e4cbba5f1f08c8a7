import Mathlib.Data.Finset.Card
import Mathlib.Data.List.Nodup
import Mathlib.Algebra.Order.Group.Nat

/-!
# The routes of a benchmark

A benchmark of the routing table keeps the routes that it has added to the replicated set in a list,
so that it can pick one of them at random. `Mirrors` is what it relies on: the list has the elements
of the set.
-/

namespace MapSetBenchmark

/-- The exceptions that are thrown by the benchmarks. -/
inductive Exn
  | illegalArgument
  | indexOutOfBounds
  | arithmetic
deriving DecidableEq

/-- `java.util.Random`: what each call of `nextInt` returns for a bound. -/
structure Random where
  nextInt : ℕ → ℕ → ℕ
  nextInt_lt : ∀ call bound, 0 < bound → nextInt call bound < bound

/-- All random values are zero. -/
def Random.zeros : Random where
  nextInt _ _ := 0
  nextInt_lt _ _ hpos := hpos

variable {ρ : Type}

/-- The fields of a `MapSetBenchmark` for the storage type `ROUTING_TABLE`, and how often random
values have been used. -/
structure Routes (ρ : Type) where
  routeSet : Finset ρ
  routes : List ρ
  /-- The number of calls of `rnd.nextInt`. -/
  calls : ℕ
  /-- The number of calls of `randomRoute`. -/
  generated : ℕ
deriving DecidableEq

namespace Routes

variable (rnd : Random) (randomRoute : ℕ → ρ)

/-- What `initRouteSet` sets up. Its call in the constructor is commented out: as it stands, both
fields are null after it. -/
def init : Routes ρ where
  routeSet := ∅
  routes := []
  calls := 0
  generated := 0

/-- `rnd.nextInt(bound)` -/
def nextInt (bound : ℕ) (s : Routes ρ) : Except Exn (ℕ × Routes ρ) :=
  -- the bound must be positive
  if bound = 0 then .error .illegalArgument
  else .ok (rnd.nextInt s.calls bound, { s with calls := s.calls + 1 })

/-- `removeRndRoute()` -/
def removeRndRoute (s : Routes ρ) : Except Exn (ρ × Routes ρ) := do
  let (index, s) ← nextInt rnd s.routes.length s
  match s.routes[index]? with
  | some route => return (route, { s with routes := s.routes.eraseIdx index })
  | none => .error .indexOutOfBounds

/-- A route is added to the set and to the list. -/
def add [DecidableEq ρ] (route : ρ) (s : Routes ρ) : Routes ρ :=
  { s with
    routeSet := insert route s.routeSet
    routes := s.routes ++ [route]
    generated := s.generated + 1 }

/-- The loop of `populateRouteSet`, without the wait for the set after it. -/
def populateRouteSet [DecidableEq ρ] (dataSize : ℤ) (s : Routes ρ) : Routes ρ :=
  (List.range dataSize.toNat).foldl (fun s _ => s.add (randomRoute s.generated)) s

/-! ## The list and the set -/

variable {rnd randomRoute} {s : Routes ρ} {route : ρ}

/-- The list has the elements of the set, each of them once. -/
def Mirrors (s : Routes ρ) : Prop := s.routes.Nodup ∧ ∀ route, route ∈ s.routes ↔ route ∈ s.routeSet

variable (randomRoute) in
/-- The routes that will be generated are not in the set. -/
def Fresh (s : Routes ρ) : Prop := ∀ k, s.generated ≤ k → randomRoute k ∉ s.routeSet

theorem mirrors_init : Mirrors (init : Routes ρ) :=
  ⟨List.nodup_nil, fun route => by simp [init]⟩

theorem fresh_init : Fresh randomRoute init := fun _ _ => Finset.notMem_empty _

variable [DecidableEq ρ]

/-- A new route is added to both. -/
theorem Mirrors.add (h : s.Mirrors) (hroute : route ∉ s.routeSet) : (s.add route).Mirrors := by
  obtain ⟨hnodup, hmem⟩ := h
  have hlist : route ∉ s.routes := fun hin => hroute ((hmem route).mp hin)
  refine ⟨?_, fun route' => ?_⟩
  · rw [Routes.add, ← List.concat_eq_append]
    exact hnodup.concat hlist
  · rw [Routes.add, List.mem_append, List.mem_singleton, Finset.mem_insert, hmem, or_comm]

/-- It is removed from both. -/
theorem Mirrors.remove (h : s.Mirrors) {index : ℕ} (hindex : s.routes[index]? = some route) :
    Mirrors { s with
      routes := s.routes.eraseIdx index
      routeSet := s.routeSet.erase route } := by
  -- in a list without duplicates the position determines the element
  obtain ⟨hnodup, hmem⟩ := h
  obtain ⟨hlt, rfl⟩ := List.getElem?_eq_some_iff.mp hindex
  refine ⟨hnodup.eraseIdx index, fun route' => ?_⟩
  dsimp only
  rw [← hnodup.erase_getElem index hlt, hnodup.mem_erase_iff, Finset.mem_erase, hmem]

/-- The routes that come later are still new. -/
theorem Fresh.add (hinj : Function.Injective randomRoute) (h : Fresh randomRoute s) :
    Fresh randomRoute (s.add (randomRoute s.generated)) := by
  intro k hk hmem
  have hlt : s.generated < k := hk
  -- no route is generated twice
  rcases Finset.mem_insert.mp hmem with heq | hold
  · exact absurd (hinj heq) hlt.ne'
  · exact h k hlt.le hold

/-- After `populateRouteSet` there are as many routes as there should be. -/
theorem populateRouteSet_init (hinj : Function.Injective randomRoute) (dataSize : ℤ) :
    let s := populateRouteSet randomRoute dataSize init
    s.Mirrors ∧ Fresh randomRoute s ∧ s.routes.length = dataSize.toNat ∧ s.calls = 0 := by
  unfold populateRouteSet
  induction dataSize.toNat with
  | zero => exact ⟨mirrors_init, fresh_init, rfl, rfl⟩
  | succ n ih =>
    obtain ⟨hmirrors, hfresh, hlength, hcalls⟩ := ih
    -- the last iteration adds a route that is new
    rw [List.range_succ, List.foldl_append, List.foldl_cons, List.foldl_nil]
    refine ⟨hmirrors.add (hfresh _ le_rfl), hfresh.add hinj, ?_, hcalls⟩
    rw [Routes.add, List.length_append, hlength]
    rfl

end Routes

end MapSetBenchmark
