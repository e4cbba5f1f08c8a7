import Mathlib.Data.List.Induction
import Mathlib.Data.List.Perm.Basic

/-!
# The last value of a loop variable

A loop over a list assigns a value to a variable for some of the elements. After the loop the
variable has the value of the last of them.

* `lastValue f v l` — the value after the loop;
* `lastValue_concat` — the last element of the list decides, if it has a value;
* `lastValue_perm_iff` — the value is the same in every order exactly if all elements that have a
  value have the same one.
-/

namespace LastValue

variable {α β : Type} {f : α → Option β} {v : β} {l : List α}

/-- The value of a variable after a loop, if it is `v` before. -/
def lastValue (f : α → Option β) (v : β) (l : List α) : β := l.foldl (fun v x => (f x).getD v) v

/-- The last element decides where it has a value. -/
theorem lastValue_concat (f : α → Option β) (v : β) (l : List α) (x : α) :
    lastValue f v (l ++ [x]) = (f x).getD (lastValue f v l) :=
  List.foldl_concat _ _ _ _

/-- The value is that of an element, unless none has a value. -/
theorem lastValue_eq_or_mem (f : α → Option β) (v : β) (l : List α) :
    (lastValue f v l = v ∧ ∀ x ∈ l, f x = none) ∨ ∃ x ∈ l, f x = some (lastValue f v l) := by
  induction l using List.reverseRecOn with
  | nil => exact .inl ⟨rfl, by simp⟩
  | append_singleton l x ih =>
    rw [lastValue_concat]
    cases hx : f x with
    | some w => exact .inr ⟨x, by simp, hx⟩
    | none =>
      -- the value is still that of the elements before
      rcases ih with ⟨hsame, hnone⟩ | ⟨y, hy, hlast⟩
      · left
        refine ⟨hsame, fun y hy => ?_⟩
        rcases List.mem_append.mp hy with hold | hnew
        · exact hnone y hold
        · rw [List.mem_singleton.mp hnew, hx]
      · exact .inr ⟨y, List.mem_append_left _ hy, hlast⟩

/-- Where no element has a value, the start value stays. -/
theorem lastValue_of_none (h : ∀ x ∈ l, f x = none) : lastValue f v l = v := by
  rcases lastValue_eq_or_mem f v l with ⟨hsame, -⟩ | ⟨x, hx, hlast⟩
  · exact hsame
  · rw [h x hx] at hlast
    cases hlast

/-- All values are the same, and there is one. -/
theorem lastValue_of_const {x : α} {w : β} (hx : x ∈ l) (hw : f x = some w)
    (h : ∀ y ∈ l, ∀ w', f y = some w' → w' = w) : lastValue f v l = w := by
  rcases lastValue_eq_or_mem f v l with ⟨-, hnone⟩ | ⟨y, hy, hlast⟩
  · rw [hnone x hx] at hw
    cases hw
  · exact h y hy _ hlast

/-- An element is put at the end. -/
theorem exists_perm_lastValue {x : α} {w : β} (hx : x ∈ l) (hw : f x = some w) :
    ∃ l', l'.Perm l ∧ lastValue f v l' = w := by
  obtain ⟨before, after, rfl⟩ := List.append_of_mem hx
  refine ⟨(before ++ after) ++ [x], ?_, ?_⟩
  · exact (List.perm_append_singleton x _).trans List.perm_middle.symm
  · rw [lastValue_concat, hw, Option.getD_some]

/-- The last value is the same in every order exactly if all values are equal. -/
theorem lastValue_perm_iff (f : α → Option β) (v : β) (l : List α) :
    (∀ l₁ l₂, l₁.Perm l → l₂.Perm l → lastValue f v l₁ = lastValue f v l₂) ↔
      ∀ x ∈ l, ∀ y ∈ l, ∀ w w', f x = some w → f y = some w' → w = w' := by
  constructor
  · -- each of the two elements is the last one in some order
    intro hall x hx y hy w w' hw hw'
    obtain ⟨l₁, hperm₁, hlast₁⟩ := exists_perm_lastValue (v := v) hx hw
    obtain ⟨l₂, hperm₂, hlast₂⟩ := exists_perm_lastValue (v := v) hy hw'
    rw [← hlast₁, ← hlast₂, hall l₁ l₂ hperm₁ hperm₂]
  · intro hsame l₁ l₂ hperm₁ hperm₂
    rcases lastValue_eq_or_mem f v l₁ with ⟨hstart₁, hnone₁⟩ | ⟨x, hx, hlast₁⟩
    · rcases lastValue_eq_or_mem f v l₂ with ⟨hstart₂, -⟩ | ⟨y, hy, hlast₂⟩
      · rw [hstart₁, hstart₂]
      · rw [hnone₁ y (hperm₁.mem_iff.mpr (hperm₂.mem_iff.mp hy))] at hlast₂
        cases hlast₂
    · rcases lastValue_eq_or_mem f v l₂ with ⟨-, hnone₂⟩ | ⟨y, hy, hlast₂⟩
      · rw [hnone₂ x (hperm₂.mem_iff.mpr (hperm₁.mem_iff.mp hx))] at hlast₁
        cases hlast₁
      · exact hsame x (hperm₁.mem_iff.mp hx) y (hperm₂.mem_iff.mp hy) _ _ hlast₁ hlast₂

end LastValue
