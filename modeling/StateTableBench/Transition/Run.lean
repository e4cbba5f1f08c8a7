import Mathlib.Data.List.Basic
import Mathlib.Data.List.Induction

/-!
# Runs of a state machine

A run of a machine with step function `step` folds its actions over the initial state. The
states reached are those after the prefixes of the run.

* `always_cons_iff`, `eachStep_cons_iff` — a property of a run, state by state and step by step;
* `inv_foldl` — an invariant kept by every step holds after every run;
* `always_iff` — when a step keeps the invariant exactly under a condition on the state before
  it, a run stays within the invariant exactly when every one of its steps meets the condition;
* `exists_simulation` — runs of a machine that another machine simulates step by step;
* `pending_concat_iff` — how a step opens, keeps or closes an obligation of the run;
* `bind_eq_ok_iff` — a computation that may throw returns exactly if all its parts do;
* `inv_foldlM`, `inv_left_foldlM`, `left_foldlM_range` — invariants of a loop that may throw, if it
  returns, and of the state that it leaves in any case.
-/

namespace Run

variable {σ α : Type} (step : σ → α → σ) (s₀ : σ)

/-- `I` holds in every state the run `as` reaches, the initial one included. -/
def Always (I : σ → Prop) (as : List α) : Prop := ∀ pre, pre <+: as → I (pre.foldl step s₀)

/-- Every step of the run `as` meets `ok` in the state in which it is taken. -/
def EachStep (ok : σ → α → Prop) (as : List α) : Prop :=
  ∀ pre a, pre ++ [a] <+: as → ok (pre.foldl step s₀) a

/-- Some step of the run `as` meets `opens`, and no later step meets `closes`. -/
def Pending (opens closes : σ → α → Prop) (as : List α) : Prop :=
  ∃ pre a post, as = pre ++ a :: post ∧ opens (pre.foldl step s₀) a ∧
    ∀ mid b rest, post = mid ++ b :: rest → ¬closes ((pre ++ a :: mid).foldl step s₀) b

variable {step s₀}

theorem always_nil_iff {I : σ → Prop} : Always step s₀ I [] ↔ I s₀ := by
  simp [Always]

/-- A run stays within `I` when its first state does and the rest of the run does. -/
theorem always_cons_iff {I : σ → Prop} {a : α} {as : List α} :
    Always step s₀ I (a :: as) ↔ I s₀ ∧ Always step (step s₀ a) I as := by
  constructor
  · intro h
    refine ⟨h [] List.nil_prefix, fun pre hpre => ?_⟩
    exact h (a :: pre) (List.cons_prefix_cons.mpr ⟨rfl, hpre⟩)
  · rintro ⟨hfirst, hrest⟩ pre hpre
    cases pre with
    | nil => exact hfirst
    | cons b pre =>
      obtain ⟨rfl, htail⟩ := List.cons_prefix_cons.mp hpre
      exact hrest pre htail

theorem eachStep_nil {ok : σ → α → Prop} : EachStep step s₀ ok [] := by
  intro pre a h
  simp at h

/-- The condition of the first step is about the state before the run. -/
theorem eachStep_cons_iff {ok : σ → α → Prop} {a : α} {as : List α} :
    EachStep step s₀ ok (a :: as) ↔ ok s₀ a ∧ EachStep step (step s₀ a) ok as := by
  constructor
  · intro h
    refine ⟨h [] a (by simp), fun pre b hpre => ?_⟩
    exact h (a :: pre) b (List.cons_prefix_cons.mpr ⟨rfl, hpre⟩)
  · rintro ⟨hfirst, hrest⟩ pre b hpre
    cases pre with
    | nil =>
      obtain ⟨rfl, -⟩ := List.cons_prefix_cons.mp hpre
      exact hfirst
    | cons c pre =>
      obtain ⟨rfl, htail⟩ := List.cons_prefix_cons.mp hpre
      exact hrest pre b htail

/-- A weaker condition holds of each step, too. -/
theorem EachStep.mono {ok ok' : σ → α → Prop} {as : List α} (h : EachStep step s₀ ok as)
    (himp : ∀ s a, ok s a → ok' s a) : EachStep step s₀ ok' as :=
  fun pre a hpre => himp _ a (h pre a hpre)

/-- An invariant that holds initially and is kept by every step holds after every run. -/
theorem inv_foldl {I : σ → Prop} (h₀ : I s₀) (hstep : ∀ s a, I s → I (step s a)) (as : List α) :
    I (as.foldl step s₀) :=
  List.foldlRecOn as step h₀ fun s hs a _ => hstep s a hs

/-- An invariant that is kept by every step of the run holds after the run. -/
theorem inv_foldl_of_mem {I : σ → Prop} {as : List α} (h₀ : I s₀)
    (hstep : ∀ s, ∀ a ∈ as, I s → I (step s a)) : I (as.foldl step s₀) :=
  List.foldlRecOn as step h₀ fun s hs a ha => hstep s a ha hs

/-- If every step of a machine is simulated by some steps of another one that show the same, then
every run is simulated by a run that shows the same. -/
theorem exists_simulation {τ β γ : Type} {step' : τ → β → τ} (abs : σ → τ) {I : σ → Prop}
    {seen : α → Option γ} {seen' : β → Option γ} (h₀ : I s₀)
    (hinv : ∀ s a, I s → I (step s a))
    (hsim : ∀ s a, I s → ∃ bs : List β, bs.foldl step' (abs s) = abs (step s a) ∧
      bs.filterMap seen' = (seen a).toList) (as : List α) :
    ∃ bs : List β, bs.foldl step' (abs s₀) = abs (as.foldl step s₀) ∧
      bs.filterMap seen' = as.filterMap seen := by
  induction as generalizing s₀ with
  | nil => exact ⟨[], rfl, rfl⟩
  | cons a as ih =>
    obtain ⟨bs, hbs, hseen⟩ := hsim s₀ a h₀
    obtain ⟨rest, hrest, hseenRest⟩ := ih (hinv s₀ a h₀)
    refine ⟨bs ++ rest, ?_, ?_⟩
    · rw [List.foldl_append, hbs, hrest, List.foldl_cons]
    · rw [List.filterMap_append, hseen, hseenRest]
      cases ha : seen a <;> simp [ha]

/-- A run whose steps all decrease a measure is no longer than the measure of its first state. -/
theorem length_le_of_eachStep {μ : σ → ℕ} {as : List α}
    (h : EachStep step s₀ (fun s a => μ (step s a) < μ s) as) : as.length ≤ μ s₀ := by
  induction as generalizing s₀ with
  | nil => exact Nat.zero_le _
  | cons a as ih =>
    obtain ⟨hfirst, hrest⟩ := eachStep_cons_iff.mp h
    have hle : as.length ≤ μ (step s₀ a) := ih hrest
    rw [List.length_cons]
    omega

/-- The exact rule for conditional invariants: if a step keeps `I` exactly when it meets `ok`,
then `I` holds throughout a run exactly when each of its steps meets `ok`. -/
theorem always_iff {I : σ → Prop} {ok : σ → α → Prop} (h₀ : I s₀)
    (hstep : ∀ s a, I s → (I (step s a) ↔ ok s a)) (as : List α) :
    Always step s₀ I as ↔ EachStep step s₀ ok as := by
  constructor
  · intro hall pre a hpre
    have hbefore : I (pre.foldl step s₀) := hall pre ((List.prefix_append pre [a]).trans hpre)
    have hafter : I ((pre ++ [a]).foldl step s₀) := hall (pre ++ [a]) hpre
    rw [List.foldl_append, List.foldl_cons, List.foldl_nil] at hafter
    exact (hstep _ a hbefore).mp hafter
  · intro hok pre
    -- the states reached are those after the prefixes, so the induction is on the prefix
    induction pre using List.reverseRecOn with
    | nil => exact fun _ => h₀
    | append_singleton pre a ih =>
      intro hpre
      rw [List.foldl_append, List.foldl_cons, List.foldl_nil]
      have hbefore : I (pre.foldl step s₀) := ih ((List.prefix_append pre [a]).trans hpre)
      exact (hstep _ a hbefore).mpr (hok pre a hpre)

/-- Nothing is pending in a run whose steps open no obligation. -/
theorem EachStep.not_pending {opens closes : σ → α → Prop} {as : List α}
    (h : EachStep step s₀ (fun s a => ¬opens s a) as) : ¬Pending step s₀ opens closes as := by
  rintro ⟨pre, a, post, rfl, hopen, -⟩
  exact h pre a ⟨post, by simp⟩ hopen

/-- Where a run with a last step `a` is split at a step `x`. -/
theorem concat_eq_split_iff {as pre post : List α} {a x : α} :
    as ++ [a] = pre ++ x :: post ↔
      (as = pre ∧ a = x ∧ post = []) ∨ ∃ mid, post = mid ++ [a] ∧ as = pre ++ x :: mid := by
  constructor
  · intro heq
    rcases List.eq_nil_or_concat' post with rfl | ⟨mid, y, rfl⟩
    · obtain ⟨rfl, hx⟩ := List.append_inj' heq rfl
      exact .inl ⟨rfl, (List.cons.inj hx).1, rfl⟩
    · rw [← List.cons_append, ← List.append_assoc] at heq
      obtain ⟨rfl, hy⟩ := List.append_inj' heq rfl
      obtain ⟨rfl, -⟩ := List.cons.inj hy
      exact .inr ⟨mid, rfl, rfl⟩
  · rintro (⟨rfl, rfl, rfl⟩ | ⟨mid, rfl, rfl⟩)
    · rfl
    · simp

/-- An obligation is pending after a step that opens it, or if it was pending before and the
step does not close it. -/
theorem pending_concat_iff {opens closes : σ → α → Prop} {as : List α} {a : α} :
    Pending step s₀ opens closes (as ++ [a]) ↔ opens (as.foldl step s₀) a ∨
      (Pending step s₀ opens closes as ∧ ¬closes (as.foldl step s₀) a) := by
  constructor
  · rintro ⟨pre, x, post, heq, hopen, hkeep⟩
    rcases concat_eq_split_iff.mp heq with ⟨rfl, rfl, rfl⟩ | ⟨mid, rfl, rfl⟩
    · -- the obligation is opened by the last step
      exact .inl hopen
    · refine .inr ⟨⟨pre, x, mid, rfl, hopen, fun mid' b rest hmid => ?_⟩, hkeep mid a [] rfl⟩
      exact hkeep mid' b (rest ++ [a]) (by simp [hmid])
  · rintro (hopen | ⟨⟨pre, x, post, rfl, hopen, hkeep⟩, hlast⟩)
    · exact ⟨as, a, [], rfl, hopen, fun mid b rest h => by simp at h⟩
    · refine ⟨pre, x, post ++ [a], by simp, hopen, fun mid b rest hpost => ?_⟩
      rcases concat_eq_split_iff.mp hpost with ⟨rfl, rfl, -⟩ | ⟨mid', -, hmid'⟩
      · exact hlast
      · exact hkeep mid b mid' hmid'

/-- A computation returns if both of its parts do. -/
theorem bind_eq_ok_iff {ε β γ : Type} {x : Except ε β} {f : β → Except ε γ} {c : γ} :
    (x >>= f) = .ok c ↔ ∃ b, x = .ok b ∧ f b = .ok c := by
  cases x with
  | error e => simp [bind, Except.bind]
  | ok b => simp [bind, Except.bind]

/-- An invariant that the body of a loop keeps when it returns. -/
theorem inv_foldlM {ε ι : Type} {body : σ → ι → Except ε σ} {I : σ → Prop}
    (hbody : ∀ s i s', I s → body s i = .ok s' → I s') {l : List ι} {s s' : σ} (hs : I s)
    (h : l.foldlM body s = .ok s') : I s' := by
  induction l generalizing s with
  | nil =>
    cases h
    exact hs
  | cons i l ih =>
    rw [List.foldlM_cons] at h
    obtain ⟨s₁, hs₁, hrest⟩ := bind_eq_ok_iff.mp h
    exact ih (hbody s i s₁ hs hs₁) hrest

/-- The state that is left by a computation which may throw. -/
def left {ε : Type} : Except (ε × σ) σ → σ
  | .ok s => s
  | .error (_, s) => s

/-- An invariant that every execution of the body of a loop leaves holds after the loop, also if it
throws. -/
theorem inv_left_foldlM {ε ι : Type} {body : σ → ι → Except (ε × σ) σ} {I : σ → Prop}
    (hbody : ∀ s i, I s → I (left (body s i))) (l : List ι) {s : σ} (hs : I s) :
    I (left (l.foldlM body s)) := by
  induction l generalizing s with
  | nil => exact hs
  | cons i l ih =>
    rw [List.foldlM_cons]
    have hfirst := hbody s i hs
    cases hi : body s i with
    | ok s' =>
      rw [hi] at hfirst
      exact ih hfirst
    | error e =>
      rw [hi] at hfirst
      exact hfirst

/-- Loop rule for a body that may throw: with an invariant `I k` of the state before execution `k`,
and what is known of the state that is left in any case. -/
theorem left_foldlM_range {ε : Type} {body : σ → ℕ → Except (ε × σ) σ} {I : ℕ → σ → Prop}
    {J : σ → Prop} {n : ℕ} {s : σ} (hinit : I 0 s) (hleft : ∀ s, I n s → J s)
    (hstep : ∀ k < n, ∀ s, I k s → (∃ s', body s k = .ok s' ∧ I (k + 1) s') ∨
      ∃ e s', body s k = .error (e, s') ∧ J s') :
    J (left ((List.range n).foldlM body s)) := by
  have hall : (∃ s', (List.range n).foldlM body s = .ok s' ∧ I n s') ∨
      ∃ e s', (List.range n).foldlM body s = .error (e, s') ∧ J s' := by
    clear hleft
    induction n with
    | zero => exact .inl ⟨s, rfl, hinit⟩
    | succ n ih =>
      rw [List.range_succ, List.foldlM_append]
      simp only [List.foldlM_cons, List.foldlM_nil, bind_pure]
      rcases ih fun k hk => hstep k (Nat.lt_succ_of_lt hk) with ⟨s', hs', hI⟩ | ⟨e, s', hs', hJ⟩
      · rw [hs']
        exact hstep n (Nat.lt_succ_self n) s' hI
      · rw [hs']
        exact .inr ⟨e, s', rfl, hJ⟩
  rcases hall with ⟨s', hs', hI⟩ | ⟨e, s', hs', hJ⟩
  · rw [hs']
    exact hleft s' hI
  · rw [hs']
    exact hJ

end Run
