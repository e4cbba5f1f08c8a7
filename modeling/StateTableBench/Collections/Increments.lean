import Mathlib.Algebra.BigOperators.Group.List.Basic
import Mathlib.Algebra.Order.Group.Defs
import Mathlib.Data.List.Chain

/-!
# Increments of a sequence

The increments of a sequence are the differences of its neighbours, and its rises are those that are
positive. Of a sequence with times each rise has the time at which it is complete.

* `sum_increments` — the increments sum up to the difference of the last value and the first;
* `sum_rises_of_isChain` — so do the rises if the sequence does not decrease.
-/

namespace Increments

variable {τ α : Type} [AddCommGroup α]

/-- The differences of neighbours. -/
def increments (values : List α) : List α := List.zipWith (fun v w => w - v) values values.tail

theorem increments_cons_cons (v w : α) (values : List α) :
    increments (v :: w :: values) = (w - v) :: increments (w :: values) := rfl

/-- The increments telescope. -/
theorem sum_increments (v : α) (values : List α) :
    (increments (v :: values)).sum = (v :: values).getLast (List.cons_ne_nil v values) - v := by
  induction values generalizing v with
  | nil => simp [increments]
  | cons w values ih =>
    rw [increments_cons_cons, List.sum_cons, ih, List.getLast_cons_cons]
    exact sub_add_sub_cancel' w v _

variable [LinearOrder α]

/-- The positive increments, each with the time of its second sample. -/
def rises (l : List (τ × α)) : List (τ × α) :=
  (List.zipWith (fun p q => (q.1, q.2 - p.2)) l l.tail).filter fun p => 0 < p.2

variable {p q : τ × α} {l : List (τ × α)}

/-- A step that goes up is listed with its position. -/
theorem rises_cons_cons_of_pos (h : 0 < q.2 - p.2) :
    rises (p :: q :: l) = (q.1, q.2 - p.2) :: rises (q :: l) := by
  simp [rises, h]

/-- A step that does not go up is left out. -/
theorem rises_cons_cons_of_nonpos (h : q.2 - p.2 ≤ 0) : rises (p :: q :: l) = rises (q :: l) := by
  simp [rises, h]

/-- Every listed rise is positive. -/
theorem pos_of_mem_rises (h : p ∈ rises l) : 0 < p.2 := of_decide_eq_true (List.mem_filter.mp h).2

/-- The rises without their times. -/
theorem map_snd_rises (l : List (τ × α)) :
    (rises l).map Prod.snd = (increments (l.map Prod.snd)).filter fun d => 0 < d := by
  have hincrements : increments (l.map Prod.snd) =
      (List.zipWith (fun p q => (q.1, q.2 - p.2)) l l.tail).map Prod.snd := by
    rw [increments, ← List.map_tail, List.zipWith_map, List.map_zipWith]
  rw [rises, hincrements, List.filter_map]
  rfl

/-- The increments of a sequence that does not decrease are not negative. -/
theorem nonneg_of_mem_increments [IsOrderedAddMonoid α] {values : List α}
    (h : values.IsChain (· ≤ ·)) {d : α} (hd : d ∈ increments values) : 0 ≤ d := by
  induction values with
  | nil => cases hd
  | cons v values ih =>
    cases values with
    | nil => cases hd
    | cons w values =>
      obtain ⟨hle, hrest⟩ := List.isChain_cons_cons.mp h
      rw [increments_cons_cons, List.mem_cons] at hd
      rcases hd with rfl | hd
      · exact sub_nonneg.mpr hle
      · exact ih hrest hd

/-- Leaving out the zeros keeps the sum of non-negative numbers. -/
theorem sum_filter_pos {ds : List α} (h : ∀ d ∈ ds, 0 ≤ d) :
    (ds.filter fun d => 0 < d).sum = ds.sum := by
  induction ds with
  | nil => rfl
  | cons d ds ih =>
    have hrest := ih fun x hx => h x (List.mem_cons_of_mem d hx)
    rcases (h d List.mem_cons_self).eq_or_lt with rfl | hpos
    · rw [List.filter_cons_of_neg (by simp), List.sum_cons, zero_add, hrest]
    · rw [List.filter_cons_of_pos (by simpa using hpos), List.sum_cons, List.sum_cons, hrest]

/-- The rises of a sequence that does not decrease telescope. -/
theorem sum_rises_of_isChain [IsOrderedAddMonoid α]
    (hchain : ((p :: l).map Prod.snd).IsChain (· ≤ ·)) :
    ((rises (p :: l)).map Prod.snd).sum = ((p :: l).getLast (List.cons_ne_nil p l)).2 - p.2 := by
  rw [map_snd_rises, sum_filter_pos fun d hd => nonneg_of_mem_increments hchain hd,
    List.map_cons, sum_increments]
  have hne : (p :: l).map Prod.snd ≠ [] := by simp
  exact congrArg (· - p.2) (List.getLast_map hne)

end Increments
