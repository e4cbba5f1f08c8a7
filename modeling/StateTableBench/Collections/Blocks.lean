import Mathlib.Algebra.BigOperators.Group.Finset.Basic
import Mathlib.Algebra.Order.BigOperators.Group.Finset
import Mathlib.Algebra.Ring.Int.Defs
import Mathlib.Algebra.Ring.Nat

/-!
# Consecutive blocks

Block `r` has `size r` items, and the blocks follow one another without a gap. `start size r` is
the position of the first item of block `r`, so the `j`-th item of the block is at position
`start size r + j`.

* `Blocks.exists_of_lt`, `Blocks.start_add_inj`, `Blocks.start_add_lt` — the items of the first
  `p` blocks are in increasing one-to-one correspondence with the positions below `start size p`;
* `Blocks.flatMap_range` — listing the blocks one after another lists all positions in order;
* `Blocks.getElem?_flatten`, `Blocks.perm_columns` — blocks of one size are the rows of a table;
* `Blocks.evenSize` — `n` items in `p` blocks, the first `n % p` of which have one item more;
* `Blocks.cappedSize` — `n` items in `cappedCount n m` blocks of `m`, the last of which may be
  shorter.
-/

namespace Blocks

section

variable (size : ℕ → ℕ)

/-- The number of items in the blocks before block `r`. -/
def start (r : ℕ) : ℕ := ∑ i ∈ Finset.range r, size i

/-- The first block starts at 0. -/
@[simp]
theorem start_zero : start size 0 = 0 := by
  simp [start]

/-- A block starts where the one before it ends. -/
theorem start_succ (r : ℕ) : start size (r + 1) = start size r + size r :=
  Finset.sum_range_succ size r

/-- Later blocks start later. -/
theorem start_mono {r r' : ℕ} (h : r ≤ r') : start size r ≤ start size r' :=
  Finset.sum_le_sum_of_subset (Finset.range_mono h)

/-- The sizes of the blocks add up to the start of the next one. -/
theorem sum_map_range (p : ℕ) :
    ((List.range p).map fun r => (size r : ℤ)).sum = (start size p : ℕ) := by
  induction p with
  | zero => simp
  | succ p ih =>
    rw [List.range_succ, List.map_append, List.sum_append, ih, start_succ]
    simp

variable {size}

/-- A block ends where a later one starts, or before. -/
theorem start_add_lt_start {r r' j : ℕ} (hr : r < r') (hj : j < size r) :
    start size r + j < start size r' := by
  have hmono := start_mono size (Nat.succ_le_of_lt hr)
  rw [Nat.succ_eq_add_one, start_succ] at hmono
  omega

/-- Positions increase with the block and with the position in the block. -/
theorem start_add_lt {r r' j j' : ℕ} (hj : j < size r) (h : r < r' ∨ r = r' ∧ j < j') :
    start size r + j < start size r' + j' := by
  rcases h with hr | ⟨rfl, hlt⟩
  · have := start_add_lt_start hr hj
    omega
  · omega

/-- The position determines the block and the position in the block. -/
theorem start_add_inj {r r' j j' : ℕ} (hj : j < size r) (hj' : j' < size r')
    (h : start size r + j = start size r' + j') : r = r' ∧ j = j' := by
  -- in different blocks the positions would be in the order of the blocks
  rcases Nat.lt_trichotomy r r' with hlt | rfl | hgt
  · have := @start_add_lt size r r' j j' hj (Or.inl hlt)
    omega
  · exact ⟨rfl, by omega⟩
  · have := @start_add_lt size r' r j' j hj' (Or.inl hgt)
    omega

/-- Every position below the end of block `p - 1` belongs to a block. -/
theorem exists_of_lt {p k : ℕ} (h : k < start size p) :
    ∃ r < p, ∃ j < size r, start size r + j = k := by
  induction p with
  | zero => simp at h
  | succ p ih =>
    -- the position is in an earlier block, or in the last one
    by_cases hk : k < start size p
    · obtain ⟨r, hr, hj⟩ := ih hk
      exact ⟨r, Nat.lt_succ_of_lt hr, hj⟩
    · rw [start_succ] at h
      exact ⟨p, Nat.lt_succ_self p, k - start size p, by omega, by omega⟩

/-- The start of a block depends on the earlier blocks only. -/
theorem start_congr {size' : ℕ → ℕ} {r : ℕ} (h : ∀ i < r, size i = size' i) :
    start size r = start size' r :=
  Finset.sum_congr rfl fun i hi => h i (Finset.mem_range.mp hi)

/-- Blocks of equal size. -/
theorem start_const (m r : ℕ) : start (fun _ => m) r = r * m := by
  induction r with
  | zero => rw [start_zero, Nat.zero_mul]
  | succ r ih => rw [start_succ, ih, Nat.succ_mul]

section Lists

variable {α : Type} (f : ℕ → List α)

/-- The length of lists put one after another. -/
theorem length_flatMap_range (p : ℕ) :
    ((List.range p).flatMap f).length = start (fun r => (f r).length) p := by
  induction p with
  | zero => simp
  | succ p ih =>
    rw [List.range_succ, List.flatMap_append, List.length_append, ih, start_succ]
    simp

/-- The elements of lists put one after another. -/
theorem getElem?_flatMap_range {p r j : ℕ} (hr : r < p) (hj : j < (f r).length) :
    ((List.range p).flatMap f)[start (fun r => (f r).length) r + j]? = (f r)[j]? := by
  induction p with
  | zero => omega
  | succ p ih =>
    rw [List.range_succ, List.flatMap_append, List.flatMap_singleton]
    -- the position is after the earlier lists, or among them
    by_cases hlast : r = p
    · subst hlast
      rw [← length_flatMap_range f, List.getElem?_append_right (Nat.le_add_right _ _),
        Nat.add_sub_cancel_left]
    · have hrp : r < p := by omega
      rw [List.getElem?_append_left, ih hrp]
      rw [length_flatMap_range]
      exact @start_add_lt_start (fun r => (f r).length) r p j hrp hj

end Lists

/-- Listing the positions block by block lists them in order. -/
theorem flatMap_range (size : ℕ → ℕ) (p : ℕ) :
    ((List.range p).flatMap fun r => (List.range (size r)).map (start size r + ·)) =
      List.range (start size p) := by
  induction p with
  | zero => simp
  | succ p ih =>
    rw [List.range_succ, List.flatMap_append, ih, start_succ, List.range_add]
    simp

/-- Blocks of one size. -/
theorem getElem?_flatten {α : Type} {b i j : ℕ} {rows : List (List α)}
    (h : ∀ row ∈ rows, row.length = b) (hj : j < b) :
    rows.flatten[i * b + j]? = rows[i]?.bind fun row => row[j]? := by
  induction rows generalizing i with
  | nil => rfl
  | cons row rows ih =>
    have hrow : row.length = b := h row List.mem_cons_self
    cases i with
    | zero =>
      rw [Nat.zero_mul, Nat.zero_add, List.flatten_cons, List.getElem?_append_left (by omega)]
      rfl
    | succ i =>
      have hle : row.length ≤ (i + 1) * b + j := by
        rw [hrow, Nat.succ_mul]
        omega
      have hsub : (i + 1) * b + j - row.length = i * b + j := by
        rw [hrow, Nat.succ_mul]
        omega
      rw [List.flatten_cons, List.getElem?_append_right hle, hsub,
        ih fun row' hrow' => h row' (List.mem_cons_of_mem row hrow')]
      rfl

/-- Blocks of one length `b` hold `b` elements each. -/
theorem length_flatten {α : Type} {b : ℕ} {rows : List (List α)}
    (h : ∀ row ∈ rows, row.length = b) : rows.flatten.length = rows.length * b := by
  rw [List.length_flatten, List.map_congr_left h, List.map_const', List.sum_replicate_nat]

/-- Rows and columns of a table. -/
theorem flatMap_map_perm {α β γ : Type} (f : α → β → γ) (rows : List α) (columns : List β) :
    (rows.flatMap fun x => columns.map (f x)).Perm
      (columns.flatMap fun y => rows.map fun x => f x y) := by
  induction rows with
  | nil => simp
  | cons x rows ih =>
    rw [List.flatMap_cons]
    exact (ih.append_left _).trans (List.map_append_flatMap_perm columns (f x) _)

/-- The positions of `m` blocks of one size, in the order of the columns. -/
theorem perm_columns (m b : ℕ) :
    ((List.range b).flatMap fun j => (List.range m).map fun i => i * b + j).Perm
      (List.range (m * b)) := by
  have hrows := flatMap_range (fun _ => b) m
  simp only [start_const] at hrows
  rw [← hrows]
  exact flatMap_map_perm (fun j i => i * b + j) (List.range b) (List.range m)

end

section Even

/-- The size of block `r` when `n` items are spread evenly over `p` blocks, with the remaining
ones in the first blocks. -/
def evenSize (n p r : ℕ) : ℕ := n / p + if r < n % p then 1 else 0

/-- No block is larger than the first one. -/
theorem evenSize_le_zero (n p r : ℕ) : evenSize n p r ≤ evenSize n p 0 := by
  unfold evenSize
  split <;> split <;> omega

/-- Where an even block starts: the first `n % p` blocks are one longer. -/
theorem start_evenSize (n p r : ℕ) : start (evenSize n p) r = r * (n / p) + min r (n % p) := by
  induction r with
  | zero => simp
  | succ r ih =>
    rw [start_succ, ih, evenSize, Nat.succ_mul]
    split <;> omega

/-- All items have a block. -/
theorem start_evenSize_self {n p : ℕ} (hp : 0 < p) : start (evenSize n p) p = n := by
  have hlt := Nat.mod_lt n hp
  rw [start_evenSize, Nat.min_eq_right hlt.le, Nat.div_add_mod]

end Even

section Capped

/-- The size of block `r` when `n` items fill blocks of `m` in turn. -/
def cappedSize (n m r : ℕ) : ℕ := min ((r + 1) * m) n - r * m

/-- Where a capped block starts: at the multiples of the cap, up to the end. -/
theorem start_cappedSize (n m r : ℕ) : start (cappedSize n m) r = min (r * m) n := by
  induction r with
  | zero => simp
  | succ r ih =>
    have hle : r * m ≤ (r + 1) * m := Nat.mul_le_mul_right m (Nat.le_succ r)
    rw [start_succ, ih, cappedSize]
    omega

/-- The number of blocks of `m` that `n` items fill, the last one possibly in part. -/
def cappedCount (n m : ℕ) : ℕ := n / m + if 0 < n % m then 1 else 0

/-- The quotient, rounded up. -/
theorem cappedCount_eq_div (n : ℕ) {m : ℕ} (hm : 0 < m) : cappedCount n m = (n + m - 1) / m := by
  have hdiv := Nat.div_add_mod' n m
  have hlt := Nat.mod_lt n hm
  symm
  unfold cappedCount
  split
  · refine Nat.div_eq_of_lt_le ?_ ?_
    · rw [Nat.succ_mul]
      omega
    · rw [Nat.succ_mul, Nat.succ_mul]
      omega
  · refine Nat.div_eq_of_lt_le ?_ ?_
    · rw [Nat.add_zero]
      omega
    · rw [Nat.add_zero, Nat.succ_mul]
      omega

/-- The same as a quotient of integers. -/
theorem natCast_cappedCount (n : ℕ) {m : ℕ} (hm : 0 < m) :
    (cappedCount n m : ℤ) = (n + m - 1) / m := by
  have hsub : ((n + m - 1 : ℕ) : ℤ) = n + m - 1 := by omega
  rw [cappedCount_eq_div n hm, Int.natCast_div, hsub]

/-- Every block starts before the last item. -/
theorem mul_lt_of_lt_cappedCount {n m r : ℕ} (h : r < cappedCount n m) : r * m < n := by
  have hdiv := Nat.div_add_mod n m
  unfold cappedCount at h
  -- with a remainder the last block starts at `n / m * m`, which is less than `n`
  split at h
  · have hle : m * r ≤ m * (n / m) := Nat.mul_le_mul_left m (by omega)
    rw [Nat.mul_comm]
    omega
  · have hpos : 0 < m := by
      rcases Nat.eq_zero_or_pos m with rfl | hpos
      · simp at h
      · exact hpos
    have hlt : m * r < m * (n / m) := Nat.mul_lt_mul_of_pos_left (by omega) hpos
    rw [Nat.mul_comm]
    omega

/-- The blocks hold all items. -/
theorem le_cappedCount_mul {n m : ℕ} (hm : 0 < m) : n ≤ cappedCount n m * m := by
  have hdiv := Nat.div_add_mod n m
  have hlt := Nat.mod_lt n hm
  rw [cappedCount, Nat.add_mul, Nat.mul_comm (n / m)]
  split <;> omega

/-- No block is empty. -/
theorem cappedSize_pos {n m r : ℕ} (hm : 0 < m) (h : r < cappedCount n m) :
    0 < cappedSize n m r := by
  have hlt := mul_lt_of_lt_cappedCount h
  rw [cappedSize, Nat.succ_mul]
  omega

/-- No capped block is longer than the cap. -/
theorem cappedSize_le (n m r : ℕ) : cappedSize n m r ≤ m := by
  rw [cappedSize, Nat.succ_mul]
  omega

/-- A block starts at a multiple of `m`. -/
theorem start_cappedSize_of_lt {n m r : ℕ} (h : r < cappedCount n m) :
    start (cappedSize n m) r = r * m := by
  have hlt := mul_lt_of_lt_cappedCount h
  rw [start_cappedSize]
  omega

/-- All items have a block. -/
theorem start_cappedSize_count {n m : ℕ} (hm : 0 < m) :
    start (cappedSize n m) (cappedCount n m) = n := by
  have hle := @le_cappedCount_mul n m hm
  rw [start_cappedSize]
  omega

end Capped

end Blocks
