import Mathlib.Data.Fintype.Basic
import Mathlib.Data.List.OfFn
import Mathlib.Logic.Function.Basic
import Mathlib.Logic.Relation

/-!
# Programs with messages

`n` ranks run the same kind of program. A rank computes on its own, or performs an operation that
involves other ranks: it sends a message to a rank, waits for a message from a rank, or takes part
in a barrier or a reduction of all ranks. Messages between two ranks arrive in the order in which
they were sent, and collectives match by call order.

* `Op`, `Act` — what a rank does next, as a function of its local state;
* `Config` — the ranks' local states, the operations each has begun and how many of them it has
  finished;
* `StepBy eager prog r` — rank `r` computes, begins an operation or finishes the one it is in. A
  send, and the contribution of a rank that is not the root of a reduction, may be finished before
  the other ranks are there; `eager` says which are, as it depends on the buffers of the library;
* `Interaction` — a message, a barrier or a reduction as all ranks see it. A list of interactions
  is a choreography, and `script r` is the part of rank `r` in it.
-/

namespace Choreography

/-- An operation of a rank that involves other ranks. Payloads are of type `β`. -/
inductive Op (n : ℕ) (β : Type)
  | send (dst : Fin n) (v : β)
  | recv (src : Fin n)
  | barrier
  | reduce (root : Fin n) (mine : β)
deriving DecidableEq

/-- What a rank with local states `σ` does next. An operation hands over a list of values: the
message to a receiver, and all contributions to the root of a reduction. -/
inductive Act (n : ℕ) (σ β : Type)
  | compute (next : σ)
  | perform (op : Op n β) (next : List β → σ)
  | halt

variable {n : ℕ} {σ β : Type}

/-! ## The operations of one rank -/

/-- The value that an operation sends to rank `q`. -/
def Op.valueTo (q : Fin n) : Op n β → Option β
  | .send dst v => if dst = q then some v else none
  | _ => none

/-- The operation receives from rank `p`. -/
def Op.receivesFrom (p : Fin n) : Op n β → Bool
  | .recv src => decide (src = p)
  | _ => false

/-- A barrier, or a reduction with its root and the contribution. -/
def Op.collective : Op n β → Option (Option (Fin n × β))
  | .barrier => some none
  | .reduce root mine => some (some (root, mine))
  | _ => none

/-- The values sent to rank `q`, in order. -/
def sentTo (q : Fin n) (ops : List (Op n β)) : List β := ops.filterMap (Op.valueTo q)

/-- How many messages have been asked for from rank `p`. -/
def receivesFrom (p : Fin n) (ops : List (Op n β)) : ℕ := ops.countP (Op.receivesFrom p)

/-- The collectives, in order. -/
def collectives (ops : List (Op n β)) : List (Option (Fin n × β)) := ops.filterMap Op.collective

/-! ## Configurations -/

/-- A configuration of `n` ranks. -/
structure Config (n : ℕ) (σ β : Type) where
  /-- The local states. -/
  loc : Fin n → σ
  /-- The operations each rank has begun, in order. -/
  begun : Fin n → List (Op n β)
  /-- How many of them it has finished. -/
  done : Fin n → ℕ

namespace Config

/-- The configuration in which nothing has happened. -/
def start (init : Fin n → σ) : Config n σ β where
  loc := init
  begun := fun _ => []
  done := fun _ => 0

/-- Rank `r` is in no operation. -/
def Outside (c : Config n σ β) (r : Fin n) : Prop := c.done r = (c.begun r).length

/-- Rank `r` may finish its operation number `i`, which is `op`, with the values `vs`. -/
def Releases (eager : Fin n → ℕ → Prop) (c : Config n σ β) (r : Fin n) (i : ℕ) (op : Op n β)
    (vs : List β) : Prop :=
  let before := (c.begun r).take i
  let count := (collectives before).length
  match op with
  | .send dst _ =>
    vs = [] ∧ (eager r i ∨ (sentTo dst before).length < receivesFrom r (c.begun dst))
  | .recv src => ∃ v, vs = [v] ∧ (sentTo r (c.begun src))[receivesFrom src before]? = some v
  | .barrier => vs = [] ∧ ∀ q, (collectives (c.begun q))[count]? = some none
  | .reduce root _ =>
    if r = root then
      ∃ all : Fin n → β, vs = List.ofFn all ∧
        ∀ q, (collectives (c.begun q))[count]? = some (some (root, all q))
    else vs = [] ∧ (eager r i ∨ ∀ q, ∃ v, (collectives (c.begun q))[count]? = some (some (root, v)))

end Config

variable (eager : Fin n → ℕ → Prop) (prog : Fin n → σ → Act n σ β)

/-- A step of rank `r`. -/
inductive StepBy (r : Fin n) : Config n σ β → Config n σ β → Prop
  | compute {c : Config n σ β} {next : σ} :
      c.Outside r → prog r (c.loc r) = .compute next →
      StepBy r c { c with loc := Function.update c.loc r next }
  | begin {c : Config n σ β} {op : Op n β} {next : List β → σ} :
      c.Outside r → prog r (c.loc r) = .perform op next →
      StepBy r c { c with begun := Function.update c.begun r (c.begun r ++ [op]) }
  | finish {c : Config n σ β} {op : Op n β} {next : List β → σ} {vs : List β} :
      ¬c.Outside r → prog r (c.loc r) = .perform op next →
      c.Releases eager r (c.done r) op vs →
      StepBy r c { c with
        loc := Function.update c.loc r (next vs)
        done := Function.update c.done r (c.done r + 1) }

/-- A step of some rank. -/
def Step (c c' : Config n σ β) : Prop := ∃ r, StepBy eager prog r c c'

/-- The configurations reached by some interleaving of the ranks. -/
def Reachable (init : Fin n → σ) (c : Config n σ β) : Prop :=
  Relation.ReflTransGen (Step eager prog) (Config.start init) c

/-- Rank `r` has come to its end. -/
def Halted (c : Config n σ β) (r : Fin n) : Prop := c.Outside r ∧ prog r (c.loc r) = .halt

/-- No rank can make a step. -/
def Stuck (c : Config n σ β) : Prop := ∀ c', ¬Step eager prog c c'

variable {eager prog}

/-- An invariant that holds at the start and is kept by every step of every rank holds in every
reachable configuration. -/
theorem Reachable.inv {init : Fin n → σ} {I : Config n σ β → Prop} (hstart : I (.start init))
    (hstep : ∀ r c c', I c → StepBy eager prog r c c' → I c') {c : Config n σ β}
    (hc : Reachable eager prog init c) : I c := by
  induction hc with
  | refl => exact hstart
  | tail _ hstep' ih =>
    obtain ⟨r, hr⟩ := hstep'
    exact hstep r _ _ ih hr

section Frame

variable {r q : Fin n} {c c' : Config n σ β}

/-- A step leaves the local states of the others alone. -/
theorem StepBy.loc_of_ne (h : StepBy eager prog r c c') (hq : q ≠ r) : c'.loc q = c.loc q := by
  cases h <;> simp [hq]

/-- It begins nothing for them. -/
theorem StepBy.begun_of_ne (h : StepBy eager prog r c c') (hq : q ≠ r) :
    c'.begun q = c.begun q := by
  cases h <;> simp [hq]

/-- Nor does it finish anything for them. -/
theorem StepBy.done_of_ne (h : StepBy eager prog r c c') (hq : q ≠ r) : c'.done q = c.done q := by
  cases h <;> simp [hq]

end Frame

/-! ## Choreographies -/

/-- A message, a barrier or a reduction with the contributions of all ranks. -/
inductive Interaction (n : ℕ) (β : Type)
  | message (src dst : Fin n) (hne : src ≠ dst) (v : β)
  | barrier
  | reduce (root : Fin n) (all : Fin n → β)

namespace Interaction

/-- The operation of rank `r` in an interaction, and the values handed over to the rank. -/
def op? (r : Fin n) : Interaction n β → Option (Op n β × List β)
  | .message src dst _ v =>
    if r = src then some (.send dst v, [])
    else if r = dst then some (.recv src, [v])
    else none
  | .barrier => some (.barrier, [])
  | .reduce root all => some (.reduce root (all r), if r = root then List.ofFn all else [])

/-- The value of a message from rank `p` to rank `q`. -/
def value (p q : Fin n) : Interaction n β → Option β
  | .message src dst _ v => if p = src ∧ q = dst then some v else none
  | _ => none

/-- A collective, with the contribution of rank `r`. -/
def collective (r : Fin n) : Interaction n β → Option (Option (Fin n × β))
  | .message .. => none
  | .barrier => some none
  | .reduce root all => some (some (root, all r))

end Interaction

/-- The operations of rank `r` in a choreography, and what they hand over. -/
def script (r : Fin n) (L : List (Interaction n β)) : List (Op n β × List β) :=
  L.filterMap (Interaction.op? r)

/-- The operations of rank `r` in a choreography. -/
def ops (r : Fin n) (L : List (Interaction n β)) : List (Op n β) := (script r L).map Prod.fst

section Script

variable {p q r : Fin n} {L L₁ L₂ : List (Interaction n β)}

@[simp]
theorem script_nil : script r ([] : List (Interaction n β)) = [] := rfl

/-- The script of two parts, one after the other. -/
@[simp]
theorem script_append : script r (L₁ ++ L₂) = script r L₁ ++ script r L₂ := List.filterMap_append

@[simp]
theorem ops_append : ops r (L₁ ++ L₂) = ops r L₁ ++ ops r L₂ := by
  simp [ops]

@[simp]
theorem length_ops : (ops r L).length = (script r L).length := List.length_map _

/-- The script begins with the part of the rank in the first interaction, if it has one. -/
theorem script_cons (x : Interaction n β) :
    script r (x :: L) = (x.op? r).toList ++ script r L := by
  cases hx : x.op? r <;> simp [script, hx]

/-- What rank `p` sends to rank `q` are the messages of the choreography. -/
theorem sentTo_ops : sentTo q (ops p L) = L.filterMap (Interaction.value p q) := by
  rw [sentTo, ops, script, List.filterMap_map, List.filterMap_filterMap]
  congr 1
  funext x
  cases x with
  | message src dst hne v =>
    by_cases hp : p = src
    · by_cases hq : q = dst
      · simp [Interaction.op?, Interaction.value, Op.valueTo, hp, hq]
      · simp [Interaction.op?, Interaction.value, Op.valueTo, hp, hq, Ne.symm hq]
    · by_cases hd : p = dst
      · simp [Interaction.op?, Interaction.value, Op.valueTo, hd, hne.symm]
      · simp [Interaction.op?, Interaction.value, hp, hd]
  | barrier => rfl
  | reduce root all => rfl

/-- Rank `q` asks for as many messages from rank `p` as the choreography has. -/
theorem receivesFrom_ops :
    receivesFrom p (ops q L) = (L.filterMap (Interaction.value p q)).length := by
  induction L with
  | nil => rfl
  | cons x L ih =>
    have hone : ((x.op? q).toList.map Prod.fst).countP (Op.receivesFrom p) =
        (x.value p q).toList.length := by
      cases x with
      | message src dst hne v =>
        by_cases hq : q = src
        · simp [Interaction.op?, Interaction.value, Op.receivesFrom, hq, hne]
        · by_cases hd : q = dst
          · by_cases hp : p = src
            · simp [Interaction.op?, Interaction.value, Op.receivesFrom, hd, hp, hne.symm]
            · simp [Interaction.op?, Interaction.value, Op.receivesFrom, hd, hp, hne.symm,
                Ne.symm hp]
          · simp [Interaction.op?, Interaction.value, hq, hd]
      | barrier => rfl
      | reduce root all => rfl
    have hcons : (x :: L).filterMap (Interaction.value p q) =
        (x.value p q).toList ++ L.filterMap (Interaction.value p q) := by
      cases hx : x.value p q <;> simp [hx]
    rw [receivesFrom, ops, script_cons, List.map_append, List.countP_append, hone, hcons,
      List.length_append, ← ih, receivesFrom, ops]

/-- Every rank takes part in all collectives of the choreography. -/
theorem collectives_ops : collectives (ops r L) = L.filterMap (Interaction.collective r) := by
  rw [collectives, ops, script, List.filterMap_map, List.filterMap_filterMap]
  congr 1
  funext x
  cases x with
  | message src dst hne v =>
    by_cases hs : r = src
    · simp [Interaction.op?, Interaction.collective, Op.collective, hs]
    · by_cases hd : r = dst
      · simp [Interaction.op?, Interaction.collective, Op.collective, hd, hne.symm]
      · simp [Interaction.op?, Interaction.collective, hs, hd]
  | barrier => rfl
  | reduce root all => rfl

/-- The interaction behind an entry of a script. -/
theorem exists_of_getElem?_script {i : ℕ} {e : Op n β × List β} (h : (script r L)[i]? = some e) :
    ∃ L₁ x L₂, L = L₁ ++ x :: L₂ ∧ x.op? r = some e ∧ (script r L₁).length = i := by
  induction L generalizing i with
  | nil => simp at h
  | cons x L ih =>
    rw [script_cons] at h
    cases hx : x.op? r with
    | none =>
      rw [hx] at h
      obtain ⟨L₁, y, L₂, rfl, hy, hlen⟩ := ih h
      exact ⟨x :: L₁, y, L₂, rfl, hy, by simp [script_cons, hx, hlen]⟩
    | some e' =>
      rw [hx] at h
      cases i with
      | zero =>
        obtain rfl : e' = e := by simpa using h
        exact ⟨[], x, L, rfl, hx, rfl⟩
      | succ i =>
        obtain ⟨L₁, y, L₂, rfl, hy, hlen⟩ := ih (by simpa using h)
        exact ⟨x :: L₁, y, L₂, rfl, hy, by simp [script_cons, hx, hlen]⟩

end Script

end Choreography
