import Mathlib.Data.Finset.Card
import Mathlib.Data.List.Basic

/-!
# Finite maps with unspecified iteration order

The mutable maps of a collection library promise what a lookup returns after an update, and
that iterating visits every entry once. They promise nothing about the order of iteration,
which may depend on hashes, on the table size and on the whole history of the map.

* `FiniteMap M` — the contract: lookups (`get?`), updates (`put`, `retain`) and the list of
  entries in iteration order (`entries`), with no law about that order;
* `FiniteMap.keys m` — the keys of a map as a `Finset`, with its behaviour under updates;
* `AssocMap` — an executable implementation, which iterates in the order of the last updates.
-/

/-- A library of mutable finite maps. `get?` determines the contents of a map; `entries` lists
them in an iteration order about which nothing is known. -/
class FiniteMap (M : Type → Type → Type) where
  /-- The map without entries. -/
  empty {κ ν : Type} : M κ ν
  /-- The value stored at a key. -/
  get? {κ ν : Type} [DecidableEq κ] : M κ ν → κ → Option ν
  /-- Store a value at a key, replacing the value already there. -/
  put {κ ν : Type} [DecidableEq κ] : M κ ν → κ → ν → M κ ν
  /-- Keep only the entries that satisfy a predicate. -/
  retain {κ ν : Type} : M κ ν → (κ → ν → Bool) → M κ ν
  /-- The entries in iteration order. -/
  entries {κ ν : Type} : M κ ν → List (κ × ν)
  get?_empty {κ ν : Type} [DecidableEq κ] (k : κ) : get? (empty : M κ ν) k = none
  get?_put {κ ν : Type} [DecidableEq κ] (m : M κ ν) (k k' : κ) (v : ν) :
    get? (put m k v) k' = if k' = k then some v else get? m k'
  get?_retain {κ ν : Type} [DecidableEq κ] (m : M κ ν) (p : κ → ν → Bool) (k : κ) :
    get? (retain m p) k = (get? m k).filter (p k)
  mem_entries {κ ν : Type} [DecidableEq κ] {m : M κ ν} {k : κ} {v : ν} :
    (k, v) ∈ entries m ↔ get? m k = some v
  nodup_entries {κ ν : Type} (m : M κ ν) : (entries m).Nodup

namespace FiniteMap

attribute [simp] get?_empty

variable {M : Type → Type → Type} [FiniteMap M] {κ ν : Type}

/-- The map has no entries. -/
def isEmpty (m : M κ ν) : Bool := (entries m).isEmpty

/-- The number of entries. -/
def size (m : M κ ν) : ℕ := (entries m).length

/-- Drop the entry at a key, if there is one. -/
def remove [DecidableEq κ] (m : M κ ν) (k : κ) : M κ ν := retain m fun k' _ => decide (k' ≠ k)

section Lookup

variable [DecidableEq κ] (m : M κ ν) (k k' : κ) (v : ν)

/-- A key just written holds the value written. -/
@[simp]
theorem get?_put_self : get? (put m k v) k = some v := by
  simp [get?_put]

/-- A write does not touch the other keys. -/
theorem get?_put_of_ne (h : k' ≠ k) : get? (put m k v) k' = get? m k' := by
  simp [get?_put, h]

/-- Removal clears its key and no other. -/
theorem get?_remove : get? (remove m k) k' = if k' = k then none else get? m k' := by
  rw [remove, get?_retain]
  by_cases h : k' = k
  · simp [h]
  · cases hv : get? m k' <;> simp [h]

/-- A map is empty exactly when every lookup fails. -/
theorem isEmpty_iff : isEmpty m = true ↔ ∀ k, get? m k = none := by
  rw [isEmpty, List.isEmpty_iff, List.eq_nil_iff_forall_not_mem]
  constructor
  · intro h k
    rw [Option.eq_none_iff_forall_ne_some]
    intro v hv
    exact h (k, v) (mem_entries.mpr hv)
  · rintro h ⟨k, v⟩ hmem
    rw [mem_entries, h k] at hmem
    cases hmem

/-- A map is non-empty exactly when some lookup succeeds. -/
theorem isEmpty_eq_false_iff : isEmpty m = false ↔ ∃ k v, get? m k = some v := by
  rw [← Bool.not_eq_true, isEmpty_iff]
  simp [Option.ne_none_iff_exists']

/-- A map just written to is not empty. -/
@[simp]
theorem isEmpty_put : isEmpty (put m k v) = false :=
  (isEmpty_eq_false_iff _).mpr ⟨k, v, get?_put_self m k v⟩

/-- The empty map is empty. -/
@[simp]
theorem isEmpty_empty : isEmpty (empty : M κ ν) = true := by
  simp [isEmpty_iff]

end Lookup

section Keys

variable [DecidableEq κ] (m : M κ ν) (k : κ) (v : ν)

/-- The keys of a map. -/
def keys (m : M κ ν) : Finset κ := ((entries m).map Prod.fst).toFinset

/-- The keys of a map are those at which a lookup succeeds. -/
theorem mem_keys : k ∈ keys m ↔ (get? m k).isSome = true := by
  simp [keys, mem_entries, Option.isSome_iff_exists]

/-- No key occurs twice in the iteration. -/
theorem nodup_map_fst_entries : ((entries m).map Prod.fst).Nodup := by
  refine (List.nodup_map_iff_inj_on (nodup_entries m)).mpr ?_
  rintro ⟨a, x⟩ hx ⟨b, y⟩ hy (rfl : a = b)
  rw [mem_entries] at hx hy
  rw [Option.some.inj (hx.symm.trans hy)]

/-- The number of entries is the number of keys. -/
theorem size_eq_card_keys : size m = (keys m).card := by
  rw [keys, List.toFinset_card_of_nodup (nodup_map_fst_entries m), List.length_map, size]

/-- A write adds its key. -/
theorem keys_put : keys (put m k v) = insert k (keys m) := by
  ext k'
  by_cases h : k' = k <;> simp [mem_keys, get?_put, h]

/-- Removal erases its key. -/
theorem keys_remove : keys (remove m k) = (keys m).erase k := by
  ext k'
  by_cases h : k' = k <;> simp [mem_keys, get?_remove, h]

/-- The empty map has no entries. -/
@[simp]
theorem size_empty : size (empty : M κ ν) = 0 := by
  rw [size_eq_card_keys, Finset.card_eq_zero, Finset.eq_empty_iff_forall_notMem]
  simp [mem_keys]

/-- Overwriting an existing key keeps the number of entries. -/
theorem size_put_of_isSome (h : (get? m k).isSome = true) : size (put m k v) = size m := by
  -- the contract does not fix the order of `entries`, so their number goes through the keys
  rw [size_eq_card_keys, size_eq_card_keys, keys_put,
    Finset.insert_eq_of_mem ((mem_keys m k).mpr h)]

/-- Writing a new key adds one entry. -/
theorem size_put_of_eq_none (h : get? m k = none) : size (put m k v) = size m + 1 := by
  rw [size_eq_card_keys, size_eq_card_keys, keys_put, Finset.card_insert_of_notMem]
  simp [mem_keys, h]

/-- Removing an existing key drops one entry. -/
theorem size_remove_of_isSome (h : (get? m k).isSome = true) :
    size (remove m k) + 1 = size m := by
  rw [size_eq_card_keys, size_eq_card_keys, keys_remove]
  exact Finset.card_erase_add_one ((mem_keys m k).mpr h)

end Keys

end FiniteMap

/-- An association list with pairwise distinct keys, the most recently written one last. -/
structure AssocMap (κ ν : Type) where
  /-- The entries, in iteration order. -/
  entries : List (κ × ν)
  nodup : (entries.map Prod.fst).Nodup

namespace AssocMap

variable {κ ν : Type}

/-- The value stored at a key. -/
def get? [DecidableEq κ] (m : AssocMap κ ν) (k : κ) : Option ν := m.entries.lookup k

/-- Keep only the entries that satisfy a predicate. -/
def retain (m : AssocMap κ ν) (p : κ → ν → Bool) : AssocMap κ ν where
  entries := m.entries.filter fun e => p e.1 e.2
  nodup := m.nodup.sublist (List.filter_sublist.map Prod.fst)

/-- Store a value at a key; the entry moves to the end of the iteration order. -/
def put [DecidableEq κ] (m : AssocMap κ ν) (k : κ) (v : ν) : AssocMap κ ν where
  entries := (m.retain fun k' _ => decide (k' ≠ k)).entries ++ [(k, v)]
  nodup := by
    rw [List.map_append, List.nodup_append]
    refine ⟨(m.retain _).nodup, by simp, ?_⟩
    intro a ha b hb
    simp only [retain, List.mem_map, List.mem_filter, decide_eq_true_eq] at ha
    obtain ⟨e, ⟨-, hne⟩, rfl⟩ := ha
    simp only [List.map_cons, List.map_nil, List.mem_singleton] at hb
    exact hb ▸ hne

/-- Lookups and membership agree, because keys are distinct. -/
theorem lookup_eq_some_iff_mem [DecidableEq κ] {l : List (κ × ν)}
    (hnd : (l.map Prod.fst).Nodup) (k : κ) (v : ν) : l.lookup k = some v ↔ (k, v) ∈ l := by
  induction l with
  | nil => simp
  | cons e l ih =>
    obtain ⟨a, x⟩ := e
    rw [List.map_cons, List.nodup_cons] at hnd
    rw [List.lookup_cons, List.mem_cons]
    by_cases h : k = a
    · subst h
      have hv : (k, v) ∉ l := fun hmem => hnd.1 (List.mem_map.mpr ⟨(k, v), hmem, rfl⟩)
      simp [hv, eq_comm]
    · rw [beq_eq_false_iff_ne.mpr h]
      simp [h, ih hnd.2]

theorem get?_eq_some_iff [DecidableEq κ] (m : AssocMap κ ν) (k : κ) (v : ν) :
    m.get? k = some v ↔ (k, v) ∈ m.entries :=
  lookup_eq_some_iff_mem m.nodup k v

instance : FiniteMap AssocMap where
  empty := ⟨[], by simp⟩
  get? := get?
  put := put
  retain := retain
  entries := entries
  get?_empty _ := rfl
  get?_put m k k' v := by
    rw [Option.ext_iff]
    intro w
    rw [get?_eq_some_iff]
    by_cases h : k' = k
    · subst h
      simp [put, retain, eq_comm]
    · simp [put, retain, h, get?_eq_some_iff]
  get?_retain m p k := by
    rw [Option.ext_iff]
    intro w
    rw [get?_eq_some_iff, Option.filter_eq_some_iff, get?_eq_some_iff]
    simp [retain]
  mem_entries := (get?_eq_some_iff _ _ _).symm
  nodup_entries m := m.nodup.of_map _

end AssocMap
