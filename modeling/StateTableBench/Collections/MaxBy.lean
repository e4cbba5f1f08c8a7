import Mathlib.Data.List.Basic
import Mathlib.Data.List.Induction

/-!
# The first maximum of an iteration

`maxBy cmp f l` scans `l` once and keeps the first element whose image under `f` no later
element exceeds. The comparison is an arbitrary three-way function: for one that is not a
lawful order the scan still returns an element of the list, and nothing more is known.

* `maxBy_mem`, `maxBy_eq_none_iff` — for every comparison;
* `maxBy_isLE` — for a total preorder (`Std.TransCmp`), no element exceeds the result;
* `forall_perm_maxBy_iff` — for every comparison, when the result has a property in whatever
  order the elements are scanned.
-/

variable {α β : Type}

/-- One step of the scan: replace the best element so far by a strictly greater one. -/
def maxByStep (cmp : β → β → Ordering) (f : α → β) (best : Option α) (x : α) : Option α :=
  match best with
  | none => some x
  | some b => if cmp (f x) (f b) = .gt then some x else some b

/-- The first element of `l` that is maximal under `f`, scanning from the left. -/
def maxBy (cmp : β → β → Ordering) (f : α → β) (l : List α) : Option α :=
  l.foldl (maxByStep cmp f) none

section

variable {cmp : β → β → Ordering} {f : α → β}

/-- A step keeps the best element so far or takes the new one. -/
theorem maxByStep_eq_or (cmp : β → β → Ordering) (f : α → β) (best : Option α) (x : α) :
    maxByStep cmp f best x = best ∨ maxByStep cmp f best x = some x := by
  cases best with
  | none => exact Or.inr rfl
  | some b =>
    by_cases h : cmp (f x) (f b) = .gt
    · exact Or.inr (by simp [maxByStep, h])
    · exact Or.inl (by simp [maxByStep, h])

/-- Scanning from `best` ends with `best` or with an element of the list. -/
theorem foldl_maxByStep_mem (l : List α) (best : Option α) {x : α}
    (h : l.foldl (maxByStep cmp f) best = some x) : best = some x ∨ x ∈ l := by
  induction l generalizing best with
  | nil => exact Or.inl h
  | cons y l ih =>
    rcases ih _ h with hstep | hmem
    · rcases maxByStep_eq_or cmp f best y with heq | heq
      · exact Or.inl (heq ▸ hstep)
      · rw [heq, Option.some.injEq] at hstep
        exact Or.inr (hstep ▸ List.mem_cons_self)
    · exact Or.inr (List.mem_cons_of_mem _ hmem)

/-- The scan returns an element of the list. -/
theorem maxBy_mem {l : List α} {x : α} (h : maxBy cmp f l = some x) : x ∈ l := by
  simpa using foldl_maxByStep_mem l none h

/-- Once an element has been found the scan returns one. -/
theorem foldl_maxByStep_some_ne_none (l : List α) (b : α) :
    l.foldl (maxByStep cmp f) (some b) ≠ none := by
  induction l generalizing b with
  | nil => simp
  | cons y l ih =>
    rw [List.foldl_cons]
    rcases maxByStep_eq_or cmp f (some b) y with heq | heq <;> rw [heq] <;> apply ih

/-- The scan finds nothing exactly when there is nothing to scan. -/
theorem maxBy_eq_none_iff {l : List α} : maxBy cmp f l = none ↔ l = [] := by
  cases l with
  | nil => simp [maxBy]
  | cons y l => simp [maxBy, maxByStep, foldl_maxByStep_some_ne_none]

end

section TotalPreorder

variable {cmp : β → β → Ordering} [Std.TransCmp cmp] {f : α → β}

/-- A step does not lower the best element so far, and covers the new one. -/
theorem isLE_of_maxByStep {best : Option α} {x b : α} (h : maxByStep cmp f best x = some b) :
    (∀ a, best = some a → (cmp (f a) (f b)).isLE) ∧ (cmp (f x) (f b)).isLE := by
  cases best with
  | none =>
    obtain rfl : x = b := by simpa [maxByStep] using h
    exact ⟨by simp, by simp [Std.ReflCmp.compare_self]⟩
  | some a =>
    by_cases hgt : cmp (f x) (f a) = .gt
    · obtain rfl : x = b := by simpa [maxByStep, hgt] using h
      refine ⟨?_, by simp [Std.ReflCmp.compare_self]⟩
      rintro _ ⟨rfl⟩
      rw [Std.OrientedCmp.gt_iff_lt] at hgt
      simp [hgt]
    · obtain rfl : a = b := by simpa [maxByStep, hgt] using h
      refine ⟨?_, by simpa [Ordering.isLE_iff_ne_gt] using hgt⟩
      rintro _ ⟨rfl⟩
      simp [Std.ReflCmp.compare_self]

/-- The scan covers its starting point and every element it passes. -/
theorem isLE_of_foldl_maxByStep (l : List α) {best : Option α} {b : α}
    (h : l.foldl (maxByStep cmp f) best = some b) :
    (∀ a, best = some a → (cmp (f a) (f b)).isLE) ∧ ∀ x ∈ l, (cmp (f x) (f b)).isLE := by
  induction l generalizing best with
  | nil =>
    refine ⟨?_, by simp⟩
    rintro a rfl
    obtain rfl : a = b := by simpa using h
    simp [Std.ReflCmp.compare_self]
  | cons y l ih =>
    obtain ⟨hbest, hl⟩ := ih h
    -- the scan goes on with an element `c`, which covers both `best` and `y`
    obtain ⟨c, hc⟩ : ∃ c, maxByStep cmp f best y = some c := by
      rcases maxByStep_eq_or cmp f best y with heq | heq
      · cases best with
        | none => exact ⟨y, rfl⟩
        | some a => exact ⟨a, heq⟩
      · exact ⟨y, heq⟩
    obtain ⟨hkeep, hnew⟩ := isLE_of_maxByStep hc
    refine ⟨fun a ha => Std.TransCmp.isLE_trans (hkeep a ha) (hbest c hc), ?_⟩
    rintro x hx
    rcases List.mem_cons.mp hx with rfl | hx
    · exact Std.TransCmp.isLE_trans hnew (hbest c hc)
    · exact hl x hx

/-- Under a total preorder no element exceeds the result of the scan. -/
theorem maxBy_isLE {l : List α} {b : α} (h : maxBy cmp f l = some b) :
    ∀ x ∈ l, (cmp (f x) (f b)).isLE :=
  (isLE_of_foldl_maxByStep l h).2

end TotalPreorder

section AnyOrder

variable {cmp : β → β → Ordering} {f : α → β} {P : α → Prop}

/-- Scanning one more element is one more step. -/
theorem maxBy_concat (cmp : β → β → Ordering) (f : α → β) (l : List α) (x : α) :
    maxBy cmp f (l ++ [x]) = maxByStep cmp f (maxBy cmp f l) x := by
  simp [maxBy]

/-- Elements that beat all others, whichever of the two comes first, win the scan. -/
theorem exists_maxBy_of_dominates (l : List α) (hex : ∃ x ∈ l, P x)
    (hdom : ∀ x ∈ l, P x → ∀ y ∈ l, ¬P y → cmp (f x) (f y) = .gt ∧ cmp (f y) (f x) ≠ .gt) :
    ∃ w, maxBy cmp f l = some w ∧ P w := by
  induction l using List.reverseRecOn with
  | nil => simp at hex
  | append_singleton l z ih =>
    rw [maxBy_concat]
    by_cases hz : P z
    · -- `z` takes over from anything that it does not share the property with
      cases hbest : maxBy cmp f l with
      | none => exact ⟨z, rfl, hz⟩
      | some b =>
        rcases maxByStep_eq_or cmp f (some b) z with heq | heq
        · refine ⟨b, heq, ?_⟩
          by_contra hb
          have hgt := (hdom z (by simp) hz b (by simp [maxBy_mem hbest]) hb).1
          simp [maxByStep, hgt] at heq
          exact hb (heq ▸ hz)
        · exact ⟨z, heq, hz⟩
    · -- `z` does not: the winner so far has the property already, and keeps its place
      obtain ⟨x, hx, hPx⟩ := hex
      have hxl : x ∈ l := by
        rcases List.mem_append.mp hx with hx | hx
        · exact hx
        · rw [List.mem_singleton] at hx
          exact absurd (hx ▸ hPx) hz
      obtain ⟨w, hw, hPw⟩ := ih ⟨x, hxl, hPx⟩ fun x hx hPx y hy hPy =>
        hdom x (by simp [hx]) hPx y (by simp [hy]) hPy
      have hle := (hdom w (by simp [maxBy_mem hw]) hPw z (by simp) hz).2
      exact ⟨w, by simp [hw, maxByStep, hle], hPw⟩

/-- An element that beats all of `l₂` wins from the last place, unless one of `l₁` does. -/
theorem maxBy_of_last_beats {l₁ l₂ : List α} {y w : α} (hbeats : ∀ x ∈ l₂, cmp (f y) (f x) = .gt)
    (hw : maxBy cmp f (l₁ ++ l₂ ++ [y]) = some w) : w ∈ l₁ ∨ w = y := by
  rw [maxBy_concat] at hw
  cases hbest : maxBy cmp f (l₁ ++ l₂) with
  | none =>
    rw [hbest] at hw
    exact Or.inr (Option.some.inj hw).symm
  | some b =>
    rcases List.mem_append.mp (maxBy_mem hbest) with hb | hb
    · rcases maxByStep_eq_or cmp f (maxBy cmp f (l₁ ++ l₂)) y with heq | heq
      · rw [heq, hbest, Option.some.injEq] at hw
        exact Or.inl (hw ▸ hb)
      · rw [heq, Option.some.injEq] at hw
        exact Or.inr hw.symm
    · rw [hbest, maxByStep, if_pos (hbeats b hb), Option.some.injEq] at hw
      exact Or.inr hw.symm

/-- An element that none of `l₂` beats keeps the first place, unless one of `l₁` takes it. -/
theorem maxBy_of_first_unbeaten {l₁ l₂ : List α} {y w : α}
    (hkeeps : ∀ x ∈ l₂, cmp (f x) (f y) ≠ .gt)
    (hw : maxBy cmp f (y :: (l₂ ++ l₁)) = some w) : w ∈ l₁ ∨ w = y := by
  have hfold : l₂.foldl (maxByStep cmp f) (some y) = some y := by
    clear hw
    induction l₂ with
    | nil => rfl
    | cons x l₂ ih =>
      have hstep : maxByStep cmp f (some y) x = some y := by
        simp [maxByStep, hkeeps x List.mem_cons_self]
      rw [List.foldl_cons, hstep]
      exact ih fun x' hx' => hkeeps x' (List.mem_cons_of_mem _ hx')
  have hscan : l₁.foldl (maxByStep cmp f) (some y) = some w := by
    rw [maxBy, List.foldl_cons, List.foldl_append] at hw
    rwa [show maxByStep cmp f none y = some y from rfl, hfold] at hw
  rcases foldl_maxByStep_mem l₁ (some y) hscan with heq | hmem
  · exact Or.inr (Option.some.inj heq).symm
  · exact Or.inl hmem

/-- The elements with a property `P`, among which the comparison does not distinguish, win the
scan in every order exactly when each of them beats each of the others from either side. -/
theorem forall_perm_maxBy_iff [DecidablePred P] {l : List α} (hex : ∃ x ∈ l, P x)
    (hsame : ∀ x ∈ l, P x → ∀ x' ∈ l, P x' → ∀ y,
      cmp (f x) (f y) = cmp (f x') (f y) ∧ cmp (f y) (f x) = cmp (f y) (f x')) :
    (∀ l', l'.Perm l → ∃ w, maxBy cmp f l' = some w ∧ P w) ↔
      ∀ x ∈ l, P x → ∀ y ∈ l, ¬P y → cmp (f x) (f y) = .gt ∧ cmp (f y) (f x) ≠ .gt := by
  constructor
  · intro hall x hx hPx y hy hPy
    have hsplit : (l.filter (fun z => P z) ++ l.filter (fun z => !P z)).Perm l :=
      List.filter_append_perm _ l
    obtain ⟨s, t, hst⟩ := List.append_of_mem (show y ∈ l.filter (fun z => !P z) by simp [hy, hPy])
    have hrest : ∀ w, w ∈ s ++ t ∨ w = y → ¬P w := by
      rintro w (hw | rfl)
      · have hmem : w ∈ l.filter (fun z => !P z) := by
          rw [hst]
          simp only [List.mem_append, List.mem_cons] at hw ⊢
          tauto
        simpa using (List.mem_filter.mp hmem).2
      · exact hPy
    rw [hst] at hsplit
    constructor
    · -- were `y` not beaten, it would win from the first place
      by_contra hgt
      have hperm : (y :: (l.filter (fun z => P z) ++ (s ++ t))).Perm l := by
        refine List.Perm.trans ?_ hsplit
        rw [← List.append_assoc, ← List.append_assoc]
        exact List.perm_middle.symm
      obtain ⟨w, hw, hPw⟩ := hall _ hperm
      refine hrest w (maxBy_of_first_unbeaten ?_ hw) hPw
      intro x' hx'
      rw [List.mem_filter, decide_eq_true_eq] at hx'
      rwa [(hsame x' hx'.1 hx'.2 x hx hPx y).1]
    · -- were `x` beaten by `y`, then `y` would win from the last place
      intro hgt
      have hperm : ((s ++ t) ++ l.filter (fun z => P z) ++ [y]).Perm l := by
        refine List.Perm.trans ?_ hsplit
        refine List.perm_append_comm.trans ?_
        rw [List.singleton_append]
        refine (List.Perm.cons y List.perm_append_comm).trans ?_
        rw [← List.append_assoc, ← List.append_assoc]
        exact List.perm_middle.symm
      obtain ⟨w, hw, hPw⟩ := hall _ hperm
      refine hrest w (maxBy_of_last_beats ?_ hw) hPw
      intro x' hx'
      rw [List.mem_filter, decide_eq_true_eq] at hx'
      rwa [(hsame x' hx'.1 hx'.2 x hx hPx y).2]
  · intro hdom l' hl'
    obtain ⟨x, hx, hPx⟩ := hex
    refine exists_maxBy_of_dominates l' ⟨x, hl'.mem_iff.mpr hx, hPx⟩ ?_
    intro x hx hPx y hy hPy
    exact hdom x (hl'.mem_iff.mp hx) hPx y (hl'.mem_iff.mp hy) hPy

end AnyOrder
