import StateTableBench.Spmd.Agreement

/-!
# Programs that announce their collectives

For a program without loops it is simpler to say for each local state which collectives are still
to come (`rest`) than to give a plan. If this is right for every single step of a rank
(`Announces`), all ranks issue the same sequence of collectives when they start with the same
announcement (`Announces.noRankLeftAlone`), and do not when the announcements of two ranks differ
in the kind of a collective (`Announces.not_noRankLeftAlone`).

The events of a rank can be announced in the same way: if `todo` is right for every single step
(`Foretells`), a rank that has come to its end has produced exactly the events it had announced at
the start (`Announces.own_eq`).
-/

namespace Spmd

variable {n : ℕ} {σ β ε : Type}

/-- `rest r s` are the collectives that rank `r` will issue from the local state `s` on, and `work`
bounds the computations until the next one. -/
structure Announces (prog : Fin n → σ → Act n σ β ε) (rest : Fin n → σ → List (Collective n β))
    (work : σ → ℕ) (bound : ℕ) : Prop where
  compute : ∀ {r s event next}, prog r s = .compute event next →
    rest r next = rest r s ∧ work next < work s
  collective : ∀ {r s x next}, (prog r s).collective? = some (x, next) →
    ∃ y ys, rest r s = y :: ys ∧ x.Fits r y ∧ ∀ v, y.Delivers v → rest r (next v) = ys
  halt : ∀ {r s}, prog r s = .halt → rest r s = []
  work_le : ∀ s, work s ≤ bound

variable {prog : Fin n → σ → Act n σ β ε} {init : Fin n → σ}
variable {rest : Fin n → σ → List (Collective n β)} {work : σ → ℕ} {bound : ℕ}

/-- The plan for the first collectives, which all ranks have in common. -/
def announcedPlan (init : Fin n → σ) (rest : Fin n → σ → List (Collective n β)) (work : σ → ℕ)
    (bound : ℕ) (common : List (Collective n β)) : Plan n σ β where
  sched i := common.getD i .barrier
  len := common.length
  At r i s := rest r s = (rest r (init r)).drop i
  work
  bound

/-- The ranks follow the plan as far as their announcements agree. -/
theorem Announces.follows (h : Announces prog rest work bound) {common : List (Collective n β)}
    (hcommon : ∀ r, common <+: rest r (init r)) :
    Follows prog init (announcedPlan init rest work bound common) where
  start _ := rfl
  compute {r i s event next} _ hat hact := by
    obtain ⟨hrest, hwork⟩ := h.compute hact
    exact ⟨hrest.trans hat, hwork⟩
  collective {r i s x next} hi hat hact := by
    have hat' : rest r s = (rest r (init r)).drop i := hat
    have hlt : i < common.length := hi
    obtain ⟨y, ys, hrest, hfit, hnext⟩ := h.collective hact
    -- the next collective is the one of the plan
    have hget : (rest r (init r))[i]? = some y := by
      rw [← List.head?_drop, ← hat', hrest]
      rfl
    have hsched : common.getD i .barrier = y := by
      obtain ⟨tail, htail⟩ := hcommon r
      rw [← htail, List.getElem?_append_left hlt] at hget
      rw [List.getD_eq_getElem?_getD, hget, Option.getD_some]
    have hdrop : ys = (rest r (init r)).drop (i + 1) := by
      rw [← List.tail_drop, ← hat', hrest]
      rfl
    show x.Fits r (common.getD i .barrier) ∧ ∀ v, (common.getD i .barrier).Delivers v →
      rest r (next v) = (rest r (init r)).drop (i + 1)
    rw [hsched, ← hdrop]
    exact ⟨hfit, hnext⟩
  not_halt {r i s} hi hat hact := by
    have hat' : rest r s = (rest r (init r)).drop i := hat
    have hlt : i < common.length := hi
    -- a rank that halts has announced nothing more, but the common part goes on
    have hle := (hcommon r).length_le
    have hlen := congrArg List.length hat'
    rw [h.halt hact, List.length_drop, List.length_nil] at hlen
    omega
  work_le := h.work_le

/-- No collective is left where the schedule ends. -/
theorem Announces.complete (h : Announces prog rest work bound) {schedule : List (Collective n β)}
    (hall : ∀ r, rest r (init r) = schedule) :
    Complete prog (announcedPlan init rest work bound schedule) := by
  intro r s hat
  have hat' : rest r s = (rest r (init r)).drop schedule.length := hat
  rw [hall r, List.drop_length] at hat'
  by_contra hne
  obtain ⟨⟨x, next⟩, hact⟩ := Option.ne_none_iff_exists'.mp hne
  obtain ⟨y, ys, hrest, -⟩ := h.collective hact
  rw [hat'] at hrest
  cases hrest

/-- Ranks that start with the same announcement issue the same collectives. -/
theorem Announces.noRankLeftAlone [Inhabited β] (h : Announces prog rest work bound)
    {schedule : List (Collective n β)} (hall : ∀ r, rest r (init r) = schedule) :
    NoRankLeftAlone prog init := by
  have hcommon : ∀ r, schedule <+: rest r (init r) := fun r => (hall r).symm ▸ List.prefix_rfl
  exact (h.follows hcommon).noRankLeftAlone (h.complete hall)

/-- The ranks come to an end after finitely many steps, in whatever order they make them. -/
theorem Announces.terminates [Inhabited β] (h : Announces prog rest work bound)
    {schedule : List (Collective n β)} (hall : ∀ r, rest r (init r) = schedule) :
    (∃ μ : Config n σ β ε → ℕ, ∀ c c', Reachable prog init c → Step prog c c' → μ c' < μ c) ∧
      ∃ c, Reachable prog init c ∧ Stuck prog c := by
  have hcommon : ∀ r, schedule <+: rest r (init r) := fun r => (hall r).symm ▸ List.prefix_rfl
  have hf := h.follows hcommon
  exact ⟨hf.terminates (h.complete hall), hf.exists_reachable_stuck (h.complete hall)⟩

/-- At the end of the common part a rank comes to the next collective that it has announced. -/
theorem Announces.exists_collective (h : Announces prog rest work bound) {r : Fin n} {s : σ}
    {y : Collective n β} {ys : List (Collective n β)} (hrest : rest r s = y :: ys)
    (hstop : ∀ event next, prog r s ≠ .compute event next) :
    ∃ x next, (prog r s).collective? = some (x, next) ∧ x.kind = y.kind := by
  have hcollective : ∀ x next, (prog r s).collective? = some (x, next) → x.kind = y.kind := by
    intro x next hact
    obtain ⟨y', ys', hrest', hfit, -⟩ := h.collective hact
    rw [hrest] at hrest'
    obtain ⟨rfl, -⟩ := List.cons.inj hrest'
    exact hfit.kind_eq
  -- the rank does not compute, and it cannot halt
  cases hact : prog r s with
  | compute event next => exact absurd hact (hstop event next)
  | halt =>
    rw [h.halt hact] at hrest
    cases hrest
  | barrier next =>
    rw [hact] at hcollective
    exact ⟨_, _, rfl, hcollective _ _ rfl⟩
  | bcast root mine next =>
    rw [hact] at hcollective
    exact ⟨_, _, rfl, hcollective _ _ rfl⟩

/-- Ranks whose announcements differ in the kind of a collective do not. -/
theorem Announces.not_noRankLeftAlone [Inhabited β] (h : Announces prog rest work bound)
    {common : List (Collective n β)} (hcommon : ∀ r, common <+: rest r (init r)) {p q : Fin n}
    (hpq : p ≠ q) {x y : Collective n β} {xs ys : List (Collective n β)}
    (hp : rest p (init p) = common ++ x :: xs) (hq : rest q (init q) = common ++ y :: ys)
    (hkind : x.kind ≠ y.kind) : ¬NoRankLeftAlone prog init := by
  refine (h.follows hcommon).not_noRankLeftAlone_of_kind_ne hpq hkind ?_ ?_
  · intro s hat hstop
    have hat' : rest p s = (rest p (init p)).drop common.length := hat
    rw [hp, List.drop_left'] at hat'
    · exact h.exists_collective hat' hstop
    · rfl
  · intro s hat hstop
    have hat' : rest q s = (rest q (init q)).drop common.length := hat
    rw [hq, List.drop_left'] at hat'
    · exact h.exists_collective hat' hstop
    · rfl

/-! ## The events to come -/

/-- `todo r s` are the events that rank `r` will produce from the local state `s` on, if the
collectives that it announces hand over what they should. -/
structure Foretells (prog : Fin n → σ → Act n σ β ε) (rest : Fin n → σ → List (Collective n β))
    (todo : Fin n → σ → List ε) : Prop where
  compute : ∀ {r s event next}, prog r s = .compute event next →
    todo r s = event.toList ++ todo r next
  collective : ∀ {r s x next y ys v}, (prog r s).collective? = some (x, next) →
    rest r s = y :: ys → y.Delivers v → todo r (next v) = todo r s
  halt : ∀ {r s}, prog r s = .halt → todo r s = []

variable {todo : Fin n → σ → List ε} {c : Config n σ β ε}

/-- Along every run, the events so far and those to come are the ones announced at the start. -/
theorem Announces.own_append_todo (h : Announces prog rest work bound)
    (htodo : Foretells prog rest todo) {schedule : List (Collective n β)}
    (hall : ∀ r, rest r (init r) = schedule) (hc : Reachable prog init c) (r : Fin n) :
    c.own r ++ todo r (c.loc r) = todo r (init r) := by
  have hcommon : ∀ r, schedule <+: rest r (init r) := fun r => (hall r).symm ▸ List.prefix_rfl
  have hf := h.follows hcommon
  have hcomplete := h.complete hall
  induction hc with
  | refl => rfl
  | @tail c c' hc hstep ih =>
    obtain ⟨q, hstep⟩ := hstep
    by_cases hr : r = q
    · subst hr
      cases hstep with
      | @compute event next hout hact =>
        have hnext := htodo.compute hact
        rw [hnext] at ih
        cases event with
        | none => simpa [Config.own] using ih
        | some e => simpa [Config.own] using ih
      | enter => exact ih
      | @leave x next v hin hact hrel =>
        have hle := hf.left_le_len hcomplete hc r
        have hat := (hf.onPlan hc).at_left r hle
        have hlt : c.left r < schedule.length := by
          rcases hle.lt_or_eq with hlt | heq
          · exact hlt
          · rw [heq] at hat
            cases (hcomplete r _ hat).symm.trans hact
        obtain ⟨y, ys, hrest, -⟩ := h.collective hact
        -- the collective that is left is the one of the schedule
        have hfit := (hf.collective hlt hat hact).1
        have hdelivers := (hf.onPlan hc).delivers hlt hfit hrel
        have hy : (announcedPlan init rest work bound schedule).sched (c.left r) = y := by
          have hat' : rest r (c.loc r) = (rest r (init r)).drop (c.left r) := hat
          have hget : schedule[c.left r]? = some y := by
            rw [← hall r, ← List.head?_drop, ← hat', hrest]
            rfl
          show schedule.getD (c.left r) .barrier = y
          rw [List.getD_eq_getElem?_getD, hget, Option.getD_some]
        rw [hy] at hdelivers
        have hnext := htodo.collective hact hrest hdelivers
        simpa [Config.own, hnext] using ih
    · rw [hstep.own_of_ne hr, hstep.loc_of_ne hr, ih]

/-- At the end of every run, every rank has halted and has produced the events that it had
announced. -/
theorem Announces.own_eq [Inhabited β] (h : Announces prog rest work bound)
    (htodo : Foretells prog rest todo) {schedule : List (Collective n β)}
    (hall : ∀ r, rest r (init r) = schedule) (hc : Reachable prog init c) (hstuck : Stuck prog c)
    (r : Fin n) : Halted prog c r ∧ c.own r = todo r (init r) := by
  have hhalted := (h.noRankLeftAlone hall).no_deadlock c hc hstuck r
  have hown := h.own_append_todo htodo hall hc r
  rw [htodo.halt hhalted.2, List.append_nil] at hown
  exact ⟨hhalted, hown⟩

end Spmd
