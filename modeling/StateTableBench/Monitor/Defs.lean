import Mathlib.Logic.Function.Basic
import Mathlib.Logic.Relation

/-!
# Threads and a monitor

Several threads share data and one monitor, as `synchronized`, `wait` and `notify` of Java have it.
A thread accesses the data, inside the monitor or outside of it; it enters the monitor when nobody
is in it; a thread that waits leaves the monitor until it is woken and can enter it again, and
`notify` wakes one of the threads that wait, if there are any.

* `Act`, `Program` — what a thread may do next, as a relation on its local state and the data;
* `Step` — a step of one thread;
* `WakeUp` — a thread that waits is woken by nobody: its time is out, or there is no reason at all;
* `Reachable` — the configurations reached by some interleaving of the threads;
* `Reachable.localInv` — what can be shown without looking at the monitor;
* `Stuck` — no thread can make a step before another one is woken up by nobody;
* `Reachable.exists_stuck` — whatever is shown of such configurations is not vacuous.
-/

namespace Monitor

/-- What a thread with local states `S` does next. -/
inductive Act (S D : Type)
  /-- It accesses the data. -/
  | access (data : D) (next : S)
  /-- It enters the monitor, as soon as nobody is in it. -/
  | enter (next : S)
  | exit (next : S)
  | wait (next : S)
  | notify (next : S)

/-- The data after it. -/
@[simp] def Act.data {S D : Type} (d : D) : Act S D → D
  | .access data _ => data
  | _ => d

/-- The local state of the thread after it. -/
@[simp] def Act.next {S D : Type} : Act S D → S
  | .access _ next | .enter next | .exit next | .wait next | .notify next => next

/-- Whether a thread runs, waits, or has been woken and is not in the monitor again. -/
inductive Mode
  | running
  | waiting
  | woken
deriving DecidableEq

variable {τ : Type} {σ : τ → Type} {D : Type}

/-- The data, the thread that is in the monitor, and the threads. -/
structure Config (σ : τ → Type) (D : Type) where
  data : D
  owner : Option τ
  loc : ∀ t, σ t
  mode : τ → Mode

/-- The configuration in which nothing has happened. -/
def Config.start (data : D) (init : ∀ t, σ t) : Config σ D where
  data := data
  owner := none
  loc := init
  mode := fun _ => .running

/-- What the threads may do next. -/
abbrev Program (σ : τ → Type) (D : Type) : Type := ∀ t, σ t → D → Act (σ t) D → Prop

variable [DecidableEq τ] (prog : Program σ D)

/-- A step of thread `t`. -/
inductive StepBy (t : τ) : Config σ D → Config σ D → Prop
  | access {c : Config σ D} {data : D} {next : σ t} :
      c.mode t = .running → prog t (c.loc t) c.data (.access data next) →
      StepBy t c { c with data := data, loc := Function.update c.loc t next }
  | enter {c : Config σ D} {next : σ t} :
      c.mode t = .running → prog t (c.loc t) c.data (.enter next) → c.owner = none →
      StepBy t c { c with owner := some t, loc := Function.update c.loc t next }
  | exit {c : Config σ D} {next : σ t} :
      c.mode t = .running → prog t (c.loc t) c.data (.exit next) →
      StepBy t c { c with owner := none, loc := Function.update c.loc t next }
  | wait {c : Config σ D} {next : σ t} :
      c.mode t = .running → prog t (c.loc t) c.data (.wait next) →
      StepBy t c { c with
        owner := none
        loc := Function.update c.loc t next
        mode := Function.update c.mode t .waiting }
  | notify {c : Config σ D} {next : σ t} {u : τ} :
      c.mode t = .running → prog t (c.loc t) c.data (.notify next) → c.mode u = .waiting →
      StepBy t c { c with
        loc := Function.update c.loc t next
        mode := Function.update c.mode u .woken }
  | notifyNobody {c : Config σ D} {next : σ t} :
      c.mode t = .running → prog t (c.loc t) c.data (.notify next) →
      (∀ u, c.mode u ≠ .waiting) →
      StepBy t c { c with loc := Function.update c.loc t next }
  | resume {c : Config σ D} :
      c.mode t = .woken → c.owner = none →
      StepBy t c { c with owner := some t, mode := Function.update c.mode t .running }

/-- A step of some thread. -/
def Step (c c' : Config σ D) : Prop := ∃ t, StepBy prog t c c'

/-- A thread that waits is woken by nobody. -/
inductive WakeUp : Config σ D → Config σ D → Prop
  | mk {c : Config σ D} {t : τ} :
      c.mode t = .waiting → WakeUp c { c with mode := Function.update c.mode t .woken }

/-- The configurations reached by some interleaving of the threads, with wake-ups of all kinds. -/
def Reachable (c₀ c : Config σ D) : Prop :=
  Relation.ReflTransGen (fun c c' => Step prog c c' ∨ WakeUp c c') c₀ c

/-- No thread can make a step. -/
def Stuck (c : Config σ D) : Prop := ∀ c', ¬Step prog c c'

variable {prog}

/-- An invariant of the steps and the wake-ups holds of all reachable configurations. -/
theorem Reachable.invariant {c₀ c : Config σ D} (h : Reachable prog c₀ c)
    {I : Config σ D → Prop} (hstart : I c₀)
    (hstep : ∀ c t c', I c → StepBy prog t c c' → I c') (hwake : ∀ c c', I c → WakeUp c c' → I c') :
    I c := by
  induction h with
  | refl => exact hstart
  | tail _ hlast ih =>
    rcases hlast with ⟨t, ht⟩ | hw
    · exact hstep _ t _ ih ht
    · exact hwake _ _ ih hw

/-- A thread that does not run after a step did not run before, and has not moved; or it has begun
to wait. -/
theorem StepBy.of_ne_running {c c' : Config σ D} {t u : τ} (h : StepBy prog t c c')
    (hu : c'.mode u ≠ .running) : (c.mode u ≠ .running ∧ c'.loc u = c.loc u) ∨
      (u = t ∧ ∃ next, prog t (c.loc t) c.data (.wait next) ∧ c'.loc t = next) := by
  have hother : ∀ {u}, c.mode t = .running → c.mode u ≠ .running → u ≠ t := fun hrun hne heq =>
    hne (heq ▸ hrun)
  cases h with
  | access hrun _ => exact .inl ⟨hu, Function.update_of_ne (hother hrun hu) _ _⟩
  | enter hrun _ _ => exact .inl ⟨hu, Function.update_of_ne (hother hrun hu) _ _⟩
  | exit hrun _ => exact .inl ⟨hu, Function.update_of_ne (hother hrun hu) _ _⟩
  | notifyNobody hrun _ _ => exact .inl ⟨hu, Function.update_of_ne (hother hrun hu) _ _⟩
  | wait hrun hact =>
    by_cases hut : u = t
    · exact .inr ⟨hut, _, hact, Function.update_self _ _ _⟩
    · exact .inl ⟨by simpa [hut] using hu, Function.update_of_ne hut _ _⟩
  | @notify next v hrun _ hv =>
    have hne : c.mode u ≠ .running := by
      by_cases huv : u = v
      · rw [huv, hv]
        decide
      · simpa [huv] using hu
    exact .inl ⟨hne, Function.update_of_ne (hother hrun hne) _ _⟩
  | resume hwoken _ =>
    have hut : u ≠ t := fun heq => hu (by simp [heq])
    exact .inl ⟨by simpa [hut] using hu, rfl⟩

/-- A thread that waits, or has been woken and is not in the monitor again, is where `wait` has
brought it. -/
theorem Reachable.of_ne_running {data : D} {init : ∀ t, σ t} {c : Config σ D}
    (h : Reachable prog (.start data init) c) (waits : ∀ t, σ t → Prop)
    (hwait : ∀ {t s d s'}, prog t s d (.wait s') → waits t s') {t : τ}
    (hmode : c.mode t ≠ .running) : waits t (c.loc t) := by
  refine h.invariant (I := fun c => ∀ t, c.mode t ≠ .running → waits t (c.loc t))
    (fun t hne => absurd rfl hne) (fun c u c' hI hstep v hv => ?_) (fun c c' hI hwake v hv => ?_)
    t hmode
  · rcases hstep.of_ne_running hv with ⟨hne, hloc⟩ | ⟨rfl, next, hact, hloc⟩
    · rw [hloc]
      exact hI v hne
    · rw [hloc]
      exact hwait hact
  · cases hwake with
    | @mk u hu =>
      refine hI v ?_
      by_cases hvu : v = u
      · rw [hvu, hu]
        decide
      · simpa [hvu] using hv

/-- What every act of the program keeps, whether or not the monitor lets the thread go on, holds of
the data and the local states in all reachable configurations. -/
theorem Reachable.localInv {data : D} {init : ∀ t, σ t} {c : Config σ D}
    (h : Reachable prog (.start data init) c) {J : D → (∀ t, σ t) → Prop} (hstart : J data init)
    (hact : ∀ d loc t a, J d loc → prog t (loc t) d a →
      J (a.data d) (Function.update loc t a.next)) : J c.data c.loc := by
  refine h.invariant (I := fun c => J c.data c.loc) hstart (fun c t c' hJ hstep => ?_)
    fun c c' hJ hwake => ?_
  · cases hstep with
    | access _ ha => exact hact _ _ _ _ hJ ha
    | enter _ ha _ => exact hact _ _ _ _ hJ ha
    | exit _ ha => exact hact _ _ _ _ hJ ha
    | wait _ ha => exact hact _ _ _ _ hJ ha
    | notify _ ha _ => exact hact _ _ _ _ hJ ha
    | notifyNobody _ ha _ => exact hact _ _ _ _ hJ ha
    | resume _ _ => exact hJ
  · cases hwake with
    | mk _ => exact hJ

/-- If no run goes on for ever, then some run comes to a standstill. -/
theorem Reachable.exists_stuck {c₀ c : Config σ D} (h : Reachable prog c₀ c)
    (hacc : Acc (fun c' c => Step prog c c') c) : ∃ c', Reachable prog c₀ c' ∧ Stuck prog c' := by
  induction hacc with
  | intro c _ ih =>
    by_cases hstuck : Stuck prog c
    · exact ⟨c, h, hstuck⟩
    · obtain ⟨c', hstep⟩ := not_forall.mp hstuck
      exact ih c' (not_not.mp hstep) (h.tail (.inl (not_not.mp hstep)))

end Monitor
