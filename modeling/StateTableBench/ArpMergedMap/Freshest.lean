import StateTableBench.ArpMergedMap.Wire
import Mathlib.Algebra.Group.Int.Defs
import Mathlib.Algebra.Group.Nat.Defs

/-!
# The winner among ARP opinions

`arpOrdering` compares the `stale` times of two entries by subtracting them in 64 bits and
casting the difference to an `int`, so only the low 32 bits of the difference count: a time
that is ahead by `2 ^ 31` microseconds (about 36 minutes) appears to be behind, and one that is
ahead by `2 ^ 32` appears to be equal. The entries of
`ArpMergedMapTest.java` have `stale` time `0` during the warmup and the current time later.

`winningPair_freshest_iff` says for which collections of opinions the winner is a freshest one.
-/

open FiniteMap MergedMap

namespace ArpMergedMap

variable {MAC : Type}

/-- No opinion of the collection has a later `stale` time than `w`. -/
def IsFreshest (opinions : List (String × ArpCacheEntry MAC))
    (w : String × ArpCacheEntry MAC) : Prop :=
  ∀ e ∈ opinions, e.2.stale ≤ w.2.stale

instance (opinions : List (String × ArpCacheEntry MAC)) (w : String × ArpCacheEntry MAC) :
    Decidable (IsFreshest opinions w) := by
  unfold IsFreshest
  infer_instance

/-- The lead of `late` over `early`, reduced modulo `2 ^ 32`, is less than half a cycle and not
zero. -/
def LeadsByInt (late early : Int64) : Prop :=
  0 < (late.toInt - early.toInt) % 2 ^ 32 ∧ (late.toInt - early.toInt) % 2 ^ 32 < 2 ^ 31

instance (late early : Int64) : Decidable (LeadsByInt late early) := by
  unfold LeadsByInt
  infer_instance

/-- The `int` that `arpOrdering` compares with zero: the difference modulo `2 ^ 32`. -/
theorem toInt_toInt32_sub (a b : Int64) :
    (a - b).toInt32.toInt = (a.toInt - b.toInt).bmod (2 ^ 32) := by
  rw [Int64.toInt_toInt32, Int64.toInt_sub]
  exact Int.bmod_bmod_of_dvd (by decide)

/-- An entry wins a comparison exactly when it leads by a positive `int`. -/
theorem arpOrdering_eq_gt_iff (x y : ArpCacheEntry MAC) :
    arpOrdering x y = .gt ↔ LeadsByInt x.stale y.stale := by
  unfold arpOrdering LeadsByInt
  -- the cast keeps the low 32 bits and reads them with a sign
  rw [compare_gt_iff_gt, toInt_toInt32_sub, Int.bmod_def]
  split <;> omega

/-- Of two entries at most one leads. -/
theorem not_leadsByInt_of_leadsByInt {a b : Int64} (h : LeadsByInt a b) : ¬LeadsByInt b a := by
  unfold LeadsByInt at *
  omega

/-- An opinion is freshest exactly when no other one is fresher. -/
theorem not_isFreshest_iff_lt {opinions : List (String × ArpCacheEntry MAC)}
    {m y : String × ArpCacheEntry MAC} (hm : m ∈ opinions) (hfresh : IsFreshest opinions m) :
    ¬IsFreshest opinions y ↔ y.2.stale < m.2.stale := by
  constructor
  · intro hy
    by_contra hle
    rw [Int64.not_lt] at hle
    exact hy fun e he => Int64.le_trans (hfresh e he) hle
  · intro hlt hy
    exact Int64.not_le.mpr hlt (hy m hm)

/-- All freshest opinions have the same `stale` time. -/
theorem stale_eq_of_isFreshest {opinions : List (String × ArpCacheEntry MAC)}
    {m m' : String × ArpCacheEntry MAC} (hm : m ∈ opinions) (hfresh : IsFreshest opinions m)
    (hm' : m' ∈ opinions) (hfresh' : IsFreshest opinions m') : m.2.stale = m'.2.stale :=
  Int64.le_antisymm (hfresh' m hm) (hfresh m' hm')

/-- A non-empty collection has a freshest opinion. -/
theorem exists_isFreshest {opinions : List (String × ArpCacheEntry MAC)} (h : opinions ≠ []) :
    ∃ m ∈ opinions, IsFreshest opinions m := by
  induction opinions with
  | nil => exact absurd rfl h
  | cons e opinions ih =>
    by_cases hnil : opinions = []
    · subst hnil
      exact ⟨e, by simp, by simp [IsFreshest]⟩
    · obtain ⟨m, hm, hfresh⟩ := ih hnil
      -- the fresher one of the first opinion and of a freshest other one
      rcases Int64.le_total e.2.stale m.2.stale with hle | hle
      · refine ⟨m, List.mem_cons_of_mem _ hm, ?_⟩
        intro e' he'
        rcases List.mem_cons.mp he' with rfl | he'
        · exact hle
        · exact hfresh e' he'
      · refine ⟨e, List.mem_cons_self, ?_⟩
        intro e' he'
        rcases List.mem_cons.mp he' with rfl | he'
        · exact Int64.le_refl _
        · exact Int64.le_trans (hfresh e' he') hle

/-- The scan finds a freshest opinion in every order exactly when the freshest ones lead all
others by a positive `int`. -/
theorem forall_perm_maxBy_isFreshest_iff {opinions : List (String × ArpCacheEntry MAC)}
    (hne : opinions ≠ []) :
    (∀ l, l.Perm opinions → ∃ w, maxBy arpOrdering Prod.snd l = some w ∧ IsFreshest opinions w) ↔
      ∀ m ∈ opinions, IsFreshest opinions m → ∀ y ∈ opinions, y.2.stale < m.2.stale →
        LeadsByInt m.2.stale y.2.stale := by
  rw [forall_perm_maxBy_iff (exists_isFreshest hne)]
  · constructor
    · intro hdom m hm hfresh y hy hlt
      rw [← arpOrdering_eq_gt_iff]
      exact (hdom m hm hfresh y hy ((not_isFreshest_iff_lt hm hfresh).mpr hlt)).1
    · intro hlead m hm hfresh y hy hstale
      have hgt := hlead m hm hfresh y hy ((not_isFreshest_iff_lt hm hfresh).mp hstale)
      rw [arpOrdering_eq_gt_iff, ne_eq, arpOrdering_eq_gt_iff]
      exact ⟨hgt, not_leadsByInt_of_leadsByInt hgt⟩
  · -- the comparison reads nothing of an entry but its `stale` time
    intro m hm hfresh m' hm' hfresh' y
    unfold arpOrdering
    rw [stale_eq_of_isFreshest hm hfresh hm' hfresh']
    exact ⟨rfl, rfl⟩

section

variable {H : Type → Type → Type} [FiniteMap H]

/-- The winner of a non-empty collection of opinions is a freshest one, whatever the iteration
order, exactly when the freshest opinions lead every staler one by a number of microseconds
that is a positive `int` modulo `2 ^ 32`. -/
theorem winningPair_freshest_iff (opinions : H String (ArpCacheEntry MAC))
    (hne : isEmpty opinions = false) :
    (∀ (H' : Type → Type → Type) [FiniteMap H'] (opinions' : H' String (ArpCacheEntry MAC)),
      (entries opinions').Perm (entries opinions) →
      ∃ w, winningPair arpOrdering opinions' = some w ∧ IsFreshest (entries opinions') w) ↔
    ∀ m ∈ entries opinions, IsFreshest (entries opinions) m →
      ∀ y ∈ entries opinions, y.2.stale < m.2.stale → LeadsByInt m.2.stale y.2.stale := by
  have hnil : entries opinions ≠ [] := by
    rintro hnil
    simp [isEmpty, hnil] at hne
  rw [← forall_perm_maxBy_isFreshest_iff hnil]
  constructor
  · -- every order of the entries is that of some map
    intro hall l hl
    have hnodup : (l.map Prod.fst).Nodup :=
      (hl.map Prod.fst).nodup_iff.mpr (nodup_map_fst_entries opinions)
    obtain ⟨w, hw, hfresh⟩ := hall AssocMap ⟨l, hnodup⟩ hl
    exact ⟨w, hw, fun e he => hfresh e (hl.mem_iff.mpr he)⟩
  · intro hall H' _ opinions' hperm
    obtain ⟨w, hw, hfresh⟩ := hall (entries opinions') hperm
    exact ⟨w, hw, fun e he => hfresh e (hperm.mem_iff.mp he)⟩

end

/-- Two opinions with the given `stale` times, in this order. -/
def twoOpinions (first second : Int64) : AssocMap String (ArpCacheEntry Unit) where
  entries := [("a", ⟨(), 0, first, 0⟩), ("b", ⟨(), 0, second, 0⟩)]
  nodup := by simp

/-- One second after a first one, an opinion wins in either order. -/
theorem winningPair_twoOpinions_second :
    isEmpty (twoOpinions 0 1000000) = false ∧
    ∃ w, winningPair arpOrdering (twoOpinions 0 1000000) = some w ∧
      IsFreshest (entries (twoOpinions 0 1000000)) w :=
  ⟨by decide, (winningPair_freshest_iff (twoOpinions 0 1000000) (by decide)).mpr (by decide)
    AssocMap (twoOpinions 0 1000000) (List.Perm.refl _)⟩

/-- An opinion sent `2 ^ 31` microseconds after another one loses to it. -/
theorem winningPair_twoOpinions_stale :
    ∃ w, winningPair arpOrdering (twoOpinions 0 2147483648) = some w ∧
      ¬IsFreshest (entries (twoOpinions 0 2147483648)) w :=
  ⟨("a", ⟨(), 0, 0, 0⟩), by decide, by decide⟩

end ArpMergedMap
