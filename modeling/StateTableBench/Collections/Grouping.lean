import StateTableBench.Collections.FiniteMap
import Mathlib.Data.List.Perm.Basic

/-!
# Groups of values

A map from keys to lists collects the values that have been listed with each key.

* `Groups m l` — each list is that of the values with its key, in order, and there is no list where
  there are no values;
* `Groups.append` — how a value is added;
* `Groups.perm_flatMap_entries` — the lists together have every value once.
-/

open FiniteMap

namespace Grouping

variable {κ ν : Type} [DecidableEq κ]

/-- The values that are listed with a key. -/
def valuesAt (l : List (κ × ν)) (k : κ) : List ν := (l.filter fun p => p.1 = k).map Prod.snd

variable {l : List (κ × ν)} {k k' : κ} {x : ν}

@[simp]
theorem valuesAt_nil (k : κ) : valuesAt ([] : List (κ × ν)) k = [] := rfl

/-- A new pair adds its value to those at its key. -/
theorem valuesAt_concat_self : valuesAt (l ++ [(k, x)]) k = valuesAt l k ++ [x] := by
  simp [valuesAt]

/-- A new pair changes nothing at other keys. -/
theorem valuesAt_concat_of_ne (h : k' ≠ k) : valuesAt (l ++ [(k, x)]) k' = valuesAt l k' := by
  simp [valuesAt, h.symm]

/-- A key has no values exactly if no pair has it. -/
theorem valuesAt_eq_nil_iff : valuesAt l k = [] ↔ ∀ p ∈ l, p.1 ≠ k := by
  simp [valuesAt]

/-- The other pairs do not count. -/
theorem valuesAt_filter_ne (h : k' ≠ k) :
    valuesAt (l.filter fun p => p.1 ≠ k) k' = valuesAt l k' := by
  rw [valuesAt, valuesAt, List.filter_filter]
  congr 2
  ext p
  by_cases hp : p.1 = k' <;> simp [hp, h]

/-- Listed key by key, the values are a permutation of all values. -/
theorem perm_flatMap_valuesAt {ks : List κ} (hnodup : ks.Nodup) (hkeys : ∀ p ∈ l, p.1 ∈ ks) :
    (ks.flatMap (valuesAt l)).Perm (l.map Prod.snd) := by
  -- by induction on the keys, taking the pairs of one key out of the list
  induction ks generalizing l with
  | nil =>
    cases l with
    | nil => exact .rfl
    | cons p l => cases hkeys p List.mem_cons_self
  | cons k ks ih =>
    obtain ⟨hk, hnodup⟩ := List.nodup_cons.mp hnodup
    have hrest : ks.flatMap (valuesAt l) = ks.flatMap (valuesAt (l.filter fun p => p.1 ≠ k)) := by
      refine List.flatMap_congr fun k' hk' => (valuesAt_filter_ne ?_).symm
      rintro rfl
      exact hk hk'
    have hperm : (ks.flatMap (valuesAt (l.filter fun p => p.1 ≠ k))).Perm
        ((l.filter fun p => p.1 ≠ k).map Prod.snd) := by
      refine ih hnodup fun p hp => ?_
      obtain ⟨hmem, hne⟩ := List.mem_filter.mp hp
      exact List.mem_of_ne_of_mem (of_decide_eq_true hne) (hkeys p hmem)
    rw [List.flatMap_cons, hrest]
    refine (hperm.append_left _).trans ?_
    rw [valuesAt, ← List.map_append]
    simpa using (List.filter_append_perm (fun p => decide (p.1 = k)) l).map Prod.snd

variable {M : Type → Type → Type} [FiniteMap M] {m m' : M κ (List ν)}

/-- The map has the values of the list, grouped by their keys. -/
def Groups (m : M κ (List ν)) (l : List (κ × ν)) : Prop :=
  ∀ k, get? m k = if valuesAt l k = [] then none else some (valuesAt l k)

/-- The empty map groups the empty list. -/
theorem groups_empty : Groups (empty : M κ (List ν)) [] := by
  intro k
  rw [get?_empty, if_pos (valuesAt_nil k)]

/-- A lookup in the grouping map, with the empty list as default, is the list of values. -/
theorem Groups.getD_get? (h : Groups m l) (k : κ) : (get? m k).getD [] = valuesAt l k := by
  rw [h k]
  split
  · next hnil => exact hnil.symm
  · rfl

/-- A map in which one list has been extended. -/
theorem Groups.append (h : Groups m l)
    (hget : ∀ k', get? m' k' = if k' = k then some ((get? m k).getD [] ++ [x]) else get? m k') :
    Groups m' (l ++ [(k, x)]) := by
  intro k'
  rw [hget]
  by_cases hk : k' = k
  · subst hk
    rw [if_pos rfl, h.getD_get?, valuesAt_concat_self, if_neg (by simp)]
  · rw [if_neg hk, valuesAt_concat_of_ne hk, h k']

/-- The lists have every value once. -/
theorem Groups.perm_flatMap_entries (h : Groups m l) :
    ((entries m).flatMap Prod.snd).Perm (l.map Prod.snd) := by
  have hvalues : (entries m).flatMap Prod.snd =
      ((entries m).map Prod.fst).flatMap (valuesAt l) := by
    rw [List.flatMap_map]
    refine List.flatMap_congr fun e he => ?_
    obtain ⟨k, values⟩ := e
    have hget := mem_entries.mp he
    have hgetD := h.getD_get? k
    rw [hget] at hgetD
    exact hgetD
  rw [hvalues]
  refine perm_flatMap_valuesAt (nodup_map_fst_entries m) fun p hp => ?_
  -- the key of a value has a list
  have hne : ¬valuesAt l p.1 = [] := fun hnil => valuesAt_eq_nil_iff.mp hnil p hp rfl
  have hget := h p.1
  rw [if_neg hne] at hget
  exact List.mem_map.mpr ⟨(p.1, valuesAt l p.1), mem_entries.mpr hget, rfl⟩

end Grouping
