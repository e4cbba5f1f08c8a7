import StateTableBench.Monitor.Defs

/-!
# Mutual exclusion and lost wake-ups

A program is *disciplined* if `inside` tells of each local state whether the thread is in the
monitor. Then at most one thread is (`Reachable.exclusive`), and in a configuration in which no
thread can make a step, nobody is in the monitor and every thread waits or has come to its end
(`Exclusive.quiet`).

A wake-up is lost if a thread waits for a condition that holds, and nobody will wake it. If a thread
waits only where the condition fails, and a thread that makes it hold has to call `notify` before it
leaves the monitor, then no wake-up is lost (`Reachable.no_lost_wakeUp`).
-/

namespace Monitor

variable {τ : Type} [DecidableEq τ] {σ : τ → Type} {D : Type}
variable {prog : Program σ D} {inside : ∀ t, σ t → Prop}

/-- `inside` tells where a thread is in the monitor. -/
structure Disciplined (prog : Program σ D) (inside : ∀ t, σ t → Prop) : Prop where
  access : ∀ {t s d d' s'}, prog t s d (.access d' s') → (inside t s' ↔ inside t s)
  enter : ∀ {t s d s'}, prog t s d (.enter s') → ¬inside t s ∧ inside t s'
  exit : ∀ {t s d s'}, prog t s d (.exit s') → inside t s ∧ ¬inside t s'
  wait : ∀ {t s d s'}, prog t s d (.wait s') → inside t s ∧ inside t s'
  notify : ∀ {t s d s'}, prog t s d (.notify s') → inside t s ∧ inside t s'

/-- The owner of the monitor is the one thread that runs inside. A thread that does not run has left
the monitor to wait. -/
structure Exclusive (inside : ∀ t, σ t → Prop) (c : Config σ D) : Prop where
  owner_iff : ∀ t, c.owner = some t ↔ c.mode t = .running ∧ inside t (c.loc t)
  inside_of_ne : ∀ t, c.mode t ≠ .running → inside t (c.loc t)

section Exclusive

variable {c c' : Config σ D} {t : τ}

omit [DecidableEq τ] in
/-- At the start nobody is inside. -/
theorem exclusive_start {data : D} {init : ∀ t, σ t} (hinit : ∀ t, ¬inside t (init t)) :
    Exclusive inside (.start data init) where
  owner_iff := fun t => by simp [Config.start, hinit t]
  inside_of_ne := fun t h => absurd rfl h

/-- A step that a thread makes within the monitor, or outside of it. -/
theorem Exclusive.update_loc (h : Exclusive inside c) {data : D} {next : σ t}
    (hsame : inside t next ↔ inside t (c.loc t)) :
    Exclusive inside { c with data := data, loc := Function.update c.loc t next } where
  owner_iff := fun u => by
    by_cases hu : u = t
    · subst hu
      simpa [hsame] using h.owner_iff u
    · simpa [hu] using h.owner_iff u
  inside_of_ne := fun u hmode => by
    by_cases hu : u = t
    · subst hu
      simpa [hsame] using h.inside_of_ne u hmode
    · simpa [hu] using h.inside_of_ne u hmode

/-- A thread that waits is woken. -/
theorem Exclusive.wake {u : τ} (h : Exclusive inside c) (hu : c.mode u = .waiting) :
    Exclusive inside { c with mode := Function.update c.mode u .woken } where
  owner_iff := fun v => by
    by_cases hv : v = u
    · subst hv
      have hnot : c.owner ≠ some v := fun howner => by
        cases hu.symm.trans ((h.owner_iff v).mp howner).1
      simp [hnot]
    · simpa [hv] using h.owner_iff v
  inside_of_ne := fun v hmode => by
    by_cases hv : v = u
    · subst hv
      exact h.inside_of_ne v (by rw [hu]; decide)
    · exact h.inside_of_ne v (by simpa [hv] using hmode)

/-- Who is woken is still inside and does not own the monitor yet. -/
theorem Exclusive.wakeUp (h : Exclusive inside c) (hstep : WakeUp c c') : Exclusive inside c' := by
  obtain ⟨hwaiting⟩ := hstep
  exact h.wake hwaiting

omit [DecidableEq τ] in
/-- A thread comes into the free monitor. -/
theorem Exclusive.acquire (h : Exclusive inside c) (hfree : c.owner = none) {loc : ∀ t, σ t}
    {mode : τ → Mode} (hother : ∀ u, u ≠ t → loc u = c.loc u ∧ mode u = c.mode u)
    (hrun : mode t = .running) (hin : inside t (loc t)) :
    Exclusive inside { c with owner := some t, loc := loc, mode := mode } where
  owner_iff := fun u => by
    by_cases hu : u = t
    · subst hu
      simp [hrun, hin]
    · obtain ⟨hloc, hmode⟩ := hother u hu
      have hnot : ¬(c.mode u = .running ∧ inside u (c.loc u)) := fun hboth => by
        cases hfree.symm.trans ((h.owner_iff u).mpr hboth)
      simpa [hloc, hmode, Ne.symm hu] using hnot
  inside_of_ne := fun u hne => by
    by_cases hu : u = t
    · subst hu
      exact hin
    · obtain ⟨hloc, hmode⟩ := hother u hu
      simpa [hloc] using h.inside_of_ne u (by simpa [hmode] using hne)

omit [DecidableEq τ] in
/-- The owner leaves the monitor, to go on outside or to wait. -/
theorem Exclusive.release (h : Exclusive inside c) (howner : c.owner = some t) {loc : ∀ t, σ t}
    {mode : τ → Mode} (hother : ∀ u, u ≠ t → loc u = c.loc u ∧ mode u = c.mode u)
    (hleft : mode t = .running ↔ ¬inside t (loc t)) :
    Exclusive inside { c with owner := none, loc := loc, mode := mode } where
  owner_iff := fun u => by
    by_cases hu : u = t
    · subst hu
      simp [hleft]
    · obtain ⟨hloc, hmode⟩ := hother u hu
      have hnot : c.owner ≠ some u := by simp [howner, Ne.symm hu]
      simpa [hloc, hmode] using (h.owner_iff u).not.mp hnot
  inside_of_ne := fun u hne => by
    by_cases hu : u = t
    · subst hu
      exact not_not.mp (hleft.not.mp hne)
    · obtain ⟨hloc, hmode⟩ := hother u hu
      simpa [hloc] using h.inside_of_ne u (by simpa [hmode] using hne)

/-- Every step of a disciplined program keeps the monitor exclusive. -/
theorem Exclusive.step (hprog : Disciplined prog inside) (h : Exclusive inside c)
    (hstep : StepBy prog t c c') : Exclusive inside c' := by
  cases hstep with
  | access hrun hact => exact h.update_loc (hprog.access hact)
  | notifyNobody hrun hact _ =>
    obtain ⟨hin, hin'⟩ := hprog.notify hact
    exact h.update_loc (iff_of_true hin' hin)
  | notify hrun hact hwaiting =>
    obtain ⟨hin, hin'⟩ := hprog.notify hact
    exact (h.update_loc (iff_of_true hin' hin)).wake hwaiting
  | enter hrun hact hfree =>
    refine h.acquire hfree (fun u hu => ⟨Function.update_of_ne hu _ _, rfl⟩) hrun ?_
    simpa using (hprog.enter hact).2
  | resume hwoken hfree =>
    refine h.acquire hfree (fun u hu => ⟨rfl, Function.update_of_ne hu _ _⟩) (by simp) ?_
    exact h.inside_of_ne t (by rw [hwoken]; decide)
  | exit hrun hact =>
    obtain ⟨hin, hout⟩ := hprog.exit hact
    refine h.release ((h.owner_iff t).mpr ⟨hrun, hin⟩)
      (fun u hu => ⟨Function.update_of_ne hu _ _, rfl⟩) ?_
    simpa using iff_of_true hrun hout
  | wait hrun hact =>
    obtain ⟨hin, hin'⟩ := hprog.wait hact
    refine h.release ((h.owner_iff t).mpr ⟨hrun, hin⟩)
      (fun u hu => ⟨Function.update_of_ne hu _ _, Function.update_of_ne hu _ _⟩) ?_
    simpa using hin'

/-- At most one thread is in the monitor, in every interleaving. -/
theorem Reachable.exclusive (hprog : Disciplined prog inside) {data : D} {init : ∀ t, σ t}
    (hinit : ∀ t, ¬inside t (init t)) (h : Reachable prog (.start data init) c) :
    Exclusive inside c :=
  h.invariant (exclusive_start hinit) (fun _ _ _ h hstep => h.step hprog hstep)
    fun _ _ h hwake => h.wakeUp hwake

/-- If no thread can make a step, and inside of the monitor every thread has one, then nobody is in
the monitor, and every thread waits or has come to its end. -/
theorem Exclusive.quiet (hprog : Disciplined prog inside)
    (hlively : ∀ t s d, inside t s → ∃ a, prog t s d a) (h : Exclusive inside c)
    (hstuck : Stuck prog c) :
    c.owner = none ∧ ∀ t, c.mode t = .waiting ∨
      (c.mode t = .running ∧ ∀ a, ¬prog t (c.loc t) c.data a) := by
  -- a thread that is in the monitor could make a step
  have hfree : c.owner = none := by
    rw [Option.eq_none_iff_forall_ne_some]
    intro t howner
    obtain ⟨hrun, hin⟩ := (h.owner_iff t).mp howner
    obtain ⟨a, ha⟩ := hlively t _ c.data hin
    cases a with
    | access data next => exact hstuck _ ⟨t, .access hrun ha⟩
    | enter next => exact (hprog.enter ha).1 hin
    | exit next => exact hstuck _ ⟨t, .exit hrun ha⟩
    | wait next => exact hstuck _ ⟨t, .wait hrun ha⟩
    | notify next =>
      by_cases hnobody : ∀ u, c.mode u ≠ .waiting
      · exact hstuck _ ⟨t, .notifyNobody hrun ha hnobody⟩
      · obtain ⟨u, hu⟩ := not_forall.mp hnobody
        exact hstuck _ ⟨t, .notify hrun ha (not_not.mp hu)⟩
  refine ⟨hfree, fun t => ?_⟩
  cases hmode : c.mode t with
  | waiting => exact .inl rfl
  | woken => exact absurd ⟨t, .resume hmode hfree⟩ (hstuck _)
  | running =>
    refine .inr ⟨rfl, fun a ha => ?_⟩
    have hout : ¬inside t (c.loc t) := fun hin => by
      cases hfree.symm.trans ((h.owner_iff t).mpr ⟨hmode, hin⟩)
    cases a with
    | access data next => exact hstuck _ ⟨t, .access hmode ha⟩
    | enter next => exact hstuck _ ⟨t, .enter hmode ha hfree⟩
    | exit next => exact hout (hprog.exit ha).1
    | wait next => exact hout (hprog.wait ha).1
    | notify next => exact hout (hprog.notify ha).1

end Exclusive

/-! ## No lost wake-up -/

/-- Only `waiter` waits, and only where `P` fails. A thread that makes `P` hold is in a state that
is `due`, and stays in such states until it calls `notify`. -/
structure Announces (prog : Program σ D) (inside : ∀ t, σ t → Prop) (P : D → Prop) (waiter : τ)
    (due : ∀ t, σ t → Prop) : Prop where
  wait : ∀ {t s d s'}, prog t s d (.wait s') → t = waiter ∧ ¬P d
  access : ∀ {t s d d' s'}, prog t s d (.access d' s') → P d' →
    due t s' ∨ (P d ∧ ¬due t s)
  exit : ∀ {t s d s'}, prog t s d (.exit s') → ¬due t s
  inside_of_due : ∀ {t s}, due t s → inside t s

/-- Whoever does not run is the waiter, and if the waiter waits for a condition that holds, somebody
will wake it. -/
structure Awake (P : D → Prop) (waiter : τ) (due : ∀ t, σ t → Prop) (c : Config σ D) : Prop where
  eq_waiter : ∀ t, c.mode t ≠ .running → t = waiter
  due_of_waiting : c.mode waiter = .waiting → P c.data →
    ∃ t, c.mode t = .running ∧ due t (c.loc t)

section Awake

variable {P : D → Prop} {waiter : τ} {due : ∀ t, σ t → Prop} {c c' : Config σ D} {t : τ}

/-- Only the waiter waits, also after its mode has changed. -/
theorem Awake.eq_waiter_update (h : Awake P waiter due c) (m : Mode) (u : τ)
    (hu : Function.update c.mode waiter m u ≠ .running) : u = waiter := by
  by_cases heq : u = waiter
  · exact heq
  · exact h.eq_waiter u (by simpa [heq] using hu)

/-- A wake-up by nobody changes nothing that is announced. -/
theorem Awake.wakeUp (h : Awake P waiter due c) (hstep : WakeUp c c') : Awake P waiter due c' := by
  cases hstep with
  | @mk u hwaiting =>
    obtain rfl := h.eq_waiter u (by rw [hwaiting]; decide)
    exact ⟨h.eq_waiter_update .woken, fun hw => by simp at hw⟩

/-- A thread that is due and does not make the step is due afterwards. -/
theorem Awake.of_ne (h : Awake P waiter due c) {next : σ t} (hnot : ¬due t (c.loc t))
    (hw : c.mode waiter = .waiting) (hP : P c.data) :
    ∃ u, c.mode u = .running ∧ due u (Function.update c.loc t next u) := by
  obtain ⟨u, hu, hdue⟩ := h.due_of_waiting hw hP
  have hut : u ≠ t := fun heq => by
    subst heq
    exact hnot hdue
  exact ⟨u, hu, by simpa [hut] using hdue⟩

/-- A step keeps it: who makes the condition true calls `notify`. -/
theorem Awake.step (hprog : Disciplined prog inside) (hann : Announces prog inside P waiter due)
    (h : Awake P waiter due c) (hstep : StepBy prog t c c') : Awake P waiter due c' := by
  cases hstep with
  | @access data next hrun hact =>
    refine ⟨h.eq_waiter, fun hw hP => ?_⟩
    rcases hann.access hact hP with hdue | ⟨hbefore, hnot⟩
    · exact ⟨t, hrun, by simpa using hdue⟩
    · exact h.of_ne hnot hw hbefore
  | enter hrun hact howner =>
    have hnot := fun hdue => (hprog.enter hact).1 (hann.inside_of_due hdue)
    exact ⟨h.eq_waiter, h.of_ne hnot⟩
  | exit hrun hact => exact ⟨h.eq_waiter, h.of_ne (hann.exit hact)⟩
  | wait hrun hact =>
    obtain ⟨rfl, hnot⟩ := hann.wait hact
    exact ⟨h.eq_waiter_update .waiting, fun _ hP => absurd hP hnot⟩
  | @notify next u hrun hact hwaiting =>
    obtain rfl := h.eq_waiter u (by rw [hwaiting]; decide)
    exact ⟨h.eq_waiter_update .woken, fun hw => by simp at hw⟩
  | notifyNobody hrun hact hnobody =>
    exact ⟨h.eq_waiter, fun hw => absurd hw (hnobody waiter)⟩
  | resume hwoken howner =>
    obtain rfl := h.eq_waiter t (by rw [hwoken]; decide)
    exact ⟨h.eq_waiter_update .running, fun hw => by simp at hw⟩

/-- In a configuration in which no thread can make a step, the waiter does not wait for a condition
that holds. -/
theorem Reachable.no_lost_wakeUp (hprog : Disciplined prog inside)
    (hann : Announces prog inside P waiter due)
    (hlively : ∀ t s d, inside t s → ∃ a, prog t s d a) {data : D} {init : ∀ t, σ t}
    (hinit : ∀ t, ¬inside t (init t)) (h : Reachable prog (.start data init) c)
    (hstuck : Stuck prog c) (hwaiting : c.mode waiter = .waiting) : ¬P c.data := by
  have hawake : Awake P waiter due c :=
    h.invariant ⟨fun _ hne => absurd rfl hne, fun hw => nomatch hw⟩
      (fun _ _ _ h hstep => h.step hprog hann hstep) fun _ _ h hwake => h.wakeUp hwake
  intro hP
  obtain ⟨t, hrun, hdue⟩ := hawake.due_of_waiting hwaiting hP
  have hexclusive := h.exclusive hprog hinit
  -- the thread that is due is in the monitor, where it could make a step
  have howner := (hexclusive.owner_iff t).mpr ⟨hrun, hann.inside_of_due hdue⟩
  cases howner.symm.trans (hexclusive.quiet hprog hlively hstuck).1

end Awake

end Monitor
