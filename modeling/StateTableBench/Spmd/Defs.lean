import Mathlib.Data.Finset.Basic
import Mathlib.Data.Fintype.Basic
import Mathlib.Logic.Function.Basic
import Mathlib.Logic.Relation

/-!
# Programs with collectives

`n` ranks run the same kind of program. A rank computes on its own, or takes part in a collective
of all ranks: a barrier, or a broadcast from a root. Collectives match by call order, so the
`i`-th collective a rank enters is the `i`-th collective of everybody.

* `Act` — what a rank does next, as a function of its local state;
* `Config` — the ranks' local states, the collectives each has entered and how many of them it
  has left, and the events observed so far;
* `StepBy prog r` — rank `r` computes, enters a collective or leaves the one it is in. A barrier
  is left once every rank has entered it as a barrier; a broadcast once its root has entered it,
  and it hands over the root's value;
* `Coherent` — what holds along every run of every program: a rank waits in at most one
  collective, and nobody has left a barrier that somebody has not entered.
-/

namespace Spmd

/-- What a rank with local states `σ` does next. Payloads are of type `β`, and a computation may
be an observable event of type `ε`. -/
inductive Act (n : ℕ) (σ β ε : Type)
  | compute (event : Option ε) (next : σ)
  | barrier (next : σ)
  | bcast (root : Fin n) (mine : β) (next : β → σ)
  | halt

/-- A collective, as a rank enters it. The payload counts only for the root of a broadcast. -/
inductive Collective (n : ℕ) (β : Type)
  | barrier
  | bcast (root : Fin n) (mine : β)
deriving DecidableEq

/-- The kind of a collective: a barrier, or a broadcast from a root. -/
def Collective.kind {n : ℕ} {β : Type} : Collective n β → Option (Fin n)
  | .barrier => none
  | .bcast root _ => some root

variable {n : ℕ} {σ β ε : Type}

/-- The collective a rank is about to enter or is waiting in, and how it goes on with the value
handed over. -/
def Act.collective? : Act n σ β ε → Option (Collective n β × (β → σ))
  | .compute _ _ => none
  | .barrier next => some (.barrier, fun _ => next)
  | .bcast root mine next => some (.bcast root mine, next)
  | .halt => none

/-- A program run as part of a larger one: its local states are embedded by `f`, and where it
halts the larger program goes on with `done`. -/
def Act.within {τ : Type} (act : Act n σ β ε) (f : σ → τ) (done : Act n τ β ε) : Act n τ β ε :=
  match act with
  | .compute event next => .compute event (f next)
  | .barrier next => .barrier (f next)
  | .bcast root mine next => .bcast root mine fun data => f (next data)
  | .halt => done

section Within

variable {τ : Type} {f : σ → τ} {done : Act n τ β ε} {act : Act n σ β ε}

/-- A computation is one of the part, or what comes after its end. -/
theorem Act.within_compute {event : Option ε} {next : τ}
    (h : act.within f done = .compute event next) :
    (∃ next', act = .compute event next' ∧ next = f next') ∨
      act = .halt ∧ done = .compute event next := by
  cases act with
  | compute event' next' =>
    obtain ⟨rfl, rfl⟩ := Act.compute.inj h
    exact .inl ⟨next', rfl, rfl⟩
  | barrier next' => cases h
  | bcast root mine next' => cases h
  | halt => exact .inr ⟨rfl, h⟩

/-- And so is a collective. -/
theorem Act.within_collective {x : Collective n β} {next : β → τ}
    (h : (act.within f done).collective? = some (x, next)) :
    (∃ next', act.collective? = some (x, next') ∧ ∀ v, next v = f (next' v)) ∨
      act = .halt ∧ done.collective? = some (x, next) := by
  cases act with
  | compute event' next' => cases h
  | barrier next' =>
    obtain ⟨rfl, rfl⟩ := Prod.mk.inj (Option.some.inj h)
    exact .inl ⟨_, rfl, fun _ => rfl⟩
  | bcast root mine next' =>
    obtain ⟨rfl, rfl⟩ := Prod.mk.inj (Option.some.inj h)
    exact .inl ⟨_, rfl, fun _ => rfl⟩
  | halt => exact .inr ⟨rfl, h⟩

/-- The whole halts after the end of the part only. -/
theorem Act.within_halt (h : act.within f done = .halt) : act = .halt ∧ done = .halt := by
  cases act with
  | compute event' next' => cases h
  | barrier next' => cases h
  | bcast root mine next' => cases h
  | halt => exact ⟨rfl, h⟩

end Within

/-- A configuration of `n` ranks. -/
structure Config (n : ℕ) (σ β ε : Type) where
  /-- The local states. -/
  loc : Fin n → σ
  /-- The collectives each rank has entered, in order. -/
  issued : Fin n → List (Collective n β)
  /-- How many of them it has left. -/
  left : Fin n → ℕ
  /-- The events, in the order in which they happened. -/
  trace : List (Fin n × ε)

namespace Config

/-- The configuration in which nothing has happened. -/
def start (init : Fin n → σ) : Config n σ β ε where
  loc := init
  issued := fun _ => []
  left := fun _ => 0
  trace := []

/-- Rank `r` is in no collective. -/
def Outside (c : Config n σ β ε) (r : Fin n) : Prop := c.left r = (c.issued r).length

/-- A rank may leave its collective number `i`, entered as `x`, with the value `v`. -/
def Releases (c : Config n σ β ε) (i : ℕ) : Collective n β → β → Prop
  | .barrier, _ => ∀ q, (c.issued q)[i]? = some .barrier
  | .bcast root _, v => (c.issued root)[i]? = some (.bcast root v)

/-- The events of rank `r`. -/
def own (c : Config n σ β ε) (r : Fin n) : List ε :=
  c.trace.filterMap fun e => if e.1 = r then some e.2 else none

end Config

variable (prog : Fin n → σ → Act n σ β ε)

/-- A step of rank `r`. -/
inductive StepBy (r : Fin n) : Config n σ β ε → Config n σ β ε → Prop
  | compute {c : Config n σ β ε} {event : Option ε} {next : σ} :
      c.Outside r → prog r (c.loc r) = .compute event next →
      StepBy r c { c with
        loc := Function.update c.loc r next
        trace := c.trace ++ (event.map (Prod.mk r)).toList }
  | enter {c : Config n σ β ε} {x : Collective n β} {next : β → σ} :
      c.Outside r → (prog r (c.loc r)).collective? = some (x, next) →
      StepBy r c { c with issued := Function.update c.issued r (c.issued r ++ [x]) }
  | leave {c : Config n σ β ε} {x : Collective n β} {next : β → σ} {v : β} :
      ¬c.Outside r → (prog r (c.loc r)).collective? = some (x, next) → c.Releases (c.left r) x v →
      StepBy r c { c with
        loc := Function.update c.loc r (next v)
        left := Function.update c.left r (c.left r + 1) }

/-- A step of some rank. -/
def Step (c c' : Config n σ β ε) : Prop := ∃ r, StepBy prog r c c'

/-- The configurations reached by some interleaving of the ranks. -/
def Reachable (init : Fin n → σ) (c : Config n σ β ε) : Prop :=
  Relation.ReflTransGen (Step prog) (Config.start init) c

/-- Rank `r` has come to its end. -/
def Halted (c : Config n σ β ε) (r : Fin n) : Prop := c.Outside r ∧ prog r (c.loc r) = .halt

/-- No rank can make a step. -/
def Stuck (c : Config n σ β ε) : Prop := ∀ c', ¬Step prog c c'

variable {prog}

/-- An invariant that holds at the start and is kept by every step of every rank holds in every
reachable configuration. -/
theorem Reachable.inv {init : Fin n → σ} {I : Config n σ β ε → Prop} (hstart : I (.start init))
    (hstep : ∀ r c c', I c → StepBy prog r c c' → I c') {c : Config n σ β ε}
    (hc : Reachable prog init c) : I c := by
  induction hc with
  | refl => exact hstart
  | tail _ hstep' ih =>
    obtain ⟨r, hr⟩ := hstep'
    exact hstep r _ _ ih hr

/-- What a reachable configuration steps to is reachable. -/
theorem Reachable.step {init : Fin n → σ} {c c' : Config n σ β ε} (hc : Reachable prog init c)
    {r : Fin n} (h : StepBy prog r c c') : Reachable prog init c' :=
  Relation.ReflTransGen.tail hc ⟨r, h⟩

/-! ## What other ranks see of a step -/

section Frame

variable {r q : Fin n} {c c' : Config n σ β ε}

/-- A step leaves the local states of the others alone. -/
theorem StepBy.loc_of_ne (h : StepBy prog r c c') (hq : q ≠ r) : c'.loc q = c.loc q := by
  cases h <;> simp [hq]

/-- It enters no collective for them. -/
theorem StepBy.issued_of_ne (h : StepBy prog r c c') (hq : q ≠ r) :
    c'.issued q = c.issued q := by
  cases h <;> simp [hq]

/-- And leaves none for them. -/
theorem StepBy.left_of_ne (h : StepBy prog r c c') (hq : q ≠ r) : c'.left q = c.left q := by
  cases h <;> simp [hq]

/-- A collective that was entered stays entered. -/
theorem StepBy.issued_mono (h : StepBy prog r c c') {i : ℕ} {x : Collective n β}
    (hx : (c.issued q)[i]? = some x) : (c'.issued q)[i]? = some x := by
  by_cases hq : q = r
  · subst hq
    cases h with
    | compute => exact hx
    | leave => exact hx
    | enter =>
      have hlt : i < (c.issued q).length := (List.getElem?_eq_some_iff.mp hx).1
      simpa [List.getElem?_append_left hlt] using hx
  · rwa [h.issued_of_ne hq]

end Frame

/-! ## Coherent configurations -/

/-- What holds along every run of every program. -/
structure Coherent (prog : Fin n → σ → Act n σ β ε) (c : Config n σ β ε) : Prop where
  /-- A rank is outside, or it waits in the last collective it has entered. -/
  pending : ∀ r, c.Outside r ∨ c.left r + 1 = (c.issued r).length ∧
    ∃ x next, (prog r (c.loc r)).collective? = some (x, next) ∧
      (c.issued r)[c.left r]? = some x
  /-- Nobody has left a barrier that somebody has not entered. -/
  sync : ∀ p i, i < c.left p → (c.issued p)[i]? = some .barrier →
    ∀ q, (c.issued q)[i]? = some .barrier

/-- At the start every rank is outside. -/
theorem coherent_start (init : Fin n → σ) : Coherent prog (.start init) where
  pending _ := .inl rfl
  sync _ _ hi _ _ := absurd hi (Nat.not_lt_zero _)

namespace Coherent

variable {r : Fin n} {c c' : Config n σ β ε}

/-- A rank has left no more collectives than it has entered. -/
theorem left_le (h : Coherent prog c) (r : Fin n) : c.left r ≤ (c.issued r).length := by
  rcases h.pending r with hout | ⟨hin, -⟩
  · exact hout.le
  · omega

/-- The rank that makes a step is outside again, or waits in the collective it entered. -/
theorem pending_self (h : Coherent prog c) (hstep : StepBy prog r c c') :
    c'.Outside r ∨ c'.left r + 1 = (c'.issued r).length ∧
      ∃ x next, (prog r (c'.loc r)).collective? = some (x, next) ∧
        (c'.issued r)[c'.left r]? = some x := by
  cases hstep with
  | compute hout _ => exact .inl hout
  | @enter x next hout hact =>
    have hleft : c.left r = (c.issued r).length := hout
    refine .inr ⟨?_, x, next, hact, ?_⟩
    · simp [hleft]
    · simp [hleft]
  | leave hin _ _ =>
    have hlen := ((h.pending r).resolve_left hin).1
    left
    show Function.update c.left r (c.left r + 1) r = (c.issued r).length
    rw [Function.update_self, hlen]

/-- Every step keeps the configuration coherent. -/
theorem step (h : Coherent prog c) (hstep : StepBy prog r c c') : Coherent prog c' where
  pending q := by
    by_cases hq : q = r
    · subst hq
      exact h.pending_self hstep
    · unfold Config.Outside
      rw [hstep.left_of_ne hq, hstep.issued_of_ne hq, hstep.loc_of_ne hq]
      exact h.pending q
  sync p i hi hbar q := by
    -- collective `i` was left before, or the step leaves it
    by_cases hold : i < c.left p
    · have hlt : i < (c.issued p).length := hold.trans_le (h.left_le p)
      obtain ⟨x, hx⟩ : ∃ x, (c.issued p)[i]? = some x := ⟨_, List.getElem?_eq_getElem hlt⟩
      have hsame := (hstep.issued_mono hx).symm.trans hbar
      exact hstep.issued_mono (h.sync p i hold (hx.trans hsame) q)
    · have hp : p = r := by
        by_contra hne
        rw [hstep.left_of_ne hne] at hi
        exact hold hi
      subst hp
      cases hstep with
      | compute => exact absurd hi hold
      | enter => exact absurd hi hold
      | @leave x next v hin hact hrel =>
        have hi' : i < c.left p + 1 := by simpa using hi
        obtain rfl : i = c.left p := by omega
        -- the collective that is left is the one the rank has entered, a barrier
        obtain ⟨-, y, next', hact', hy⟩ := (h.pending p).resolve_left hin
        obtain ⟨rfl, -⟩ := Prod.mk.inj (Option.some.inj (hact.symm.trans hact'))
        have hbarrier : x = .barrier := Option.some.inj (hy.symm.trans hbar)
        subst hbarrier
        exact hrel q

end Coherent

/-- So every reachable configuration is coherent. -/
theorem Reachable.coherent {init : Fin n → σ} {c : Config n σ β ε}
    (hc : Reachable prog init c) : Coherent prog c :=
  hc.inv (coherent_start init) fun _ _ _ h hstep => h.step hstep

end Spmd
