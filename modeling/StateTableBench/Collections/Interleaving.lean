import Mathlib.Data.Fintype.Card
import Mathlib.Data.List.Nodup

/-!
# Interleaved streams

The events of several sources, in one order. Each event is a pair of its source and its contents.

* `Interleaving.of i events` — the events of the source `i`;
* `Interleaving.behind k events` — the number of sources with fewer than `k` events, which is what
  a latch that each source counts down with its `k`-th event is at.
-/

namespace Interleaving

variable {ι α : Type} [DecidableEq ι]

/-- The events of one source, in order. -/
def of (i : ι) (events : List (ι × α)) : List α :=
  (events.filter fun e => e.1 = i).map Prod.snd

@[simp]
theorem of_nil (i : ι) : of i ([] : List (ι × α)) = [] := rfl

/-- A new event is appended to the events of its source. -/
theorem of_concat (i j : ι) (events : List (ι × α)) (a : α) :
    of i (events ++ [(j, a)]) = if j = i then of i events ++ [a] else of i events := by
  rw [of, List.filter_append, List.map_append]
  split_ifs with hij
  · simp [of, hij]
  · simp [of, hij]

/-- The source of a new event has it last. -/
@[simp]
theorem of_concat_self (i : ι) (events : List (ι × α)) (a : α) :
    of i (events ++ [(i, a)]) = of i events ++ [a] := by
  rw [of_concat, if_pos rfl]

/-- The other sources do not see a new event. -/
theorem of_concat_of_ne {i j : ι} (h : i ≠ j) (events : List (ι × α)) (a : α) :
    of i (events ++ [(j, a)]) = of i events := by
  rw [of_concat, if_neg h.symm]

/-- With one source only, these are all events. -/
theorem of_eq_map {i : ι} {events : List (ι × α)} (h : ∀ e ∈ events, e.1 = i) :
    of i events = events.map Prod.snd := by
  rw [of, List.filter_eq_self.mpr fun e he => decide_eq_true (h e he)]

/-- A part of an interleaving has a part of the events of each source. -/
theorem of_isPrefix {pre events : List (ι × α)} (h : pre <+: events) (i : ι) :
    of i pre <+: of i events :=
  (h.filter _).map _

/-- One event of each of several sources. -/
theorem of_map_of_nodup {l : List ι} (hnd : l.Nodup) (f : ι → α) {i : ι} (hi : i ∈ l) :
    of i (l.map fun j => (j, f j)) = [f i] := by
  have hfilter : l.filter (fun j => j = i) = [i] := by
    rw [List.filter_eq, List.count_eq_one_of_mem hnd hi, List.replicate_one]
  rw [of, List.filter_map, List.map_map]
  exact congrArg (List.map f) hfilter

section Behind

variable [Fintype ι]

/-- The number of sources that have had fewer than `k` events. -/
def behind (k : ℕ) (events : List (ι × α)) : ℕ :=
  (Finset.univ.filter fun i => (of i events).length < k).card

/-- At the start everybody is behind. -/
theorem behind_nil {k : ℕ} (hk : 0 < k) : behind k ([] : List (ι × α)) = Fintype.card ι := by
  have hall : ∀ i ∈ Finset.univ, (of i ([] : List (ι × α))).length < k := fun _ _ => hk
  rw [behind, Finset.filter_true_of_mem hall, Finset.card_univ]

/-- Nobody is behind exactly if every source has `k` events. -/
theorem behind_eq_zero_iff {k : ℕ} {events : List (ι × α)} :
    behind k events = 0 ↔ ∀ i, k ≤ (of i events).length := by
  simp [behind, Finset.filter_eq_empty_iff]

/-- The `k`-th event of a source is the one with which it is no longer behind. -/
theorem behind_concat (k : ℕ) (events : List (ι × α)) (j : ι) (a : α) :
    behind k (events ++ [(j, a)]) =
      if (of j events).length + 1 = k then behind k events - 1 else behind k events := by
  have hother : ∀ i, i ≠ j → (of i (events ++ [(j, a)])).length = (of i events).length :=
    fun i hij => by rw [of_concat_of_ne hij]
  have hself : (of j (events ++ [(j, a)])).length = (of j events).length + 1 := by simp
  rw [behind, behind]
  split_ifs with hk
  · -- the source `j` leaves the set
    have hmem : j ∈ Finset.univ.filter fun i => (of i events).length < k := by
      rw [Finset.mem_filter]
      exact ⟨Finset.mem_univ j, by omega⟩
    rw [← Finset.card_erase_of_mem hmem]
    congr 1
    ext i
    rw [Finset.mem_erase, Finset.mem_filter, Finset.mem_filter]
    by_cases hij : i = j
    · subst hij
      simp [hk]
    · simp [hij, hother i hij]
  · -- before and after this event it is on the same side of `k`
    congr 1
    ext i
    rw [Finset.mem_filter, Finset.mem_filter]
    by_cases hij : i = j
    · subst hij
      rw [hself]
      simp only [Finset.mem_univ, true_and]
      omega
    · rw [hother i hij]

end Behind

end Interleaving
