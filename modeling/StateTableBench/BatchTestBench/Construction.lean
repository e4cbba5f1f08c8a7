import StateTableBench.Spmd.Termination

/-!
# The construction of a batch

A batch is a list of runs. The JVM is restarted for every run, and the property `bench.restarts`
says which run comes next. Each rank passes its own value of this property to the constructor of
`BatchTestBench`, and the root broadcasts its value, so that all ranks execute the same run
(`BatchTestBench.java`).

The broadcast overwrites the field `batchRunNumber`, but the run is selected with the parameter of
the same name. `sameRun_iff` says for which values of the property this makes no difference.
-/

open Spmd

namespace BatchTestBench

/-- The `List<Config>` of the runs: its size is an `int`. -/
structure ConfigList (C : Type) where
  elems : List C
  length_lt : elems.length < 2 ^ 31

namespace ConfigList

variable {C : Type}

/-- `runs.size()`. -/
def size (runs : ConfigList C) : Int32 := Int32.ofNat runs.elems.length

/-- `runs.get(index)`, or `none` where it throws an `IndexOutOfBoundsException`. -/
def get (runs : ConfigList C) (index : Int32) : Option C :=
  if 0 ≤ index then runs.elems[index.toNatClampNeg]? else none

end ConfigList

/-- The fields of a `BatchTestBench`. -/
structure App (C : Type) where
  batchRunNumber : Int32
  /-- `none` models `null`. -/
  currentRunConfiguration : Option C
  currentRunExists : Bool

variable {C : Type}

/-- `isBatchRunFinished`. -/
def App.isBatchRunFinished (app : App C) : Bool := !app.currentRunExists

/-- How far a rank has come in the constructor. -/
inductive Construction (C : Type)
  /-- At the broadcast, with the parameter in the field. -/
  | broadcastBatchRunNumber
  /-- Before the run is selected, with the field that the broadcast has left. -/
  | selectRun (field : Int32)
  | constructed (app : App C)
  | threw

/-- The end of the constructor. It reads the parameter `batchRunNumber`, which hides the
field. -/
def selectRun (runs : ConfigList C) (batchRunNumber field : Int32) : Construction C :=
  if batchRunNumber ≤ runs.size then
    match runs.get (batchRunNumber - 1) with
    | some config => .constructed ⟨field, some config, true⟩
    | none => .threw
  else .constructed ⟨field, none, false⟩

variable {mpiSize : ℕ} [NeZero mpiSize]

/-- The constructor on rank `mpiRank`, with its own parameter. -/
def construct (runs : ConfigList C) (batchRunNumber : Fin mpiSize → Int32) (mpiRank : Fin mpiSize)
    (s : Construction C) : Act mpiSize (Construction C) (List Int32) Empty :=
  match s with
  | .broadcastBatchRunNumber =>
    -- the root keeps its value, the others allocate an array of one element for it
    if mpiRank = 0 then
      .bcast 0 [batchRunNumber mpiRank] fun _ => .selectRun (batchRunNumber mpiRank)
    else .bcast 0 [0] fun number => .selectRun (number.headD 0)
  | .selectRun field => .compute none (selectRun runs (batchRunNumber mpiRank) field)
  | .constructed _ => .halt
  | .threw => .halt

/-! ## What a rank selects -/

namespace ConfigList

variable (runs : ConfigList C) {k : Int32}

theorem toInt_size : runs.size.toInt = runs.elems.length :=
  Int32.toInt_ofNat_of_lt runs.length_lt

/-- `k - 1` overflows at the least `int` only. -/
theorem toInt_sub_one (k : Int32) :
    (k - 1).toInt = if k.toInt = -2 ^ 31 then 2 ^ 31 - 1 else k.toInt - 1 := by
  have hle := k.le_toInt
  have hlt := k.toInt_lt
  have hone : Int32.toInt 1 = 1 := rfl
  rw [Int32.toInt_sub, hone, Int.bmod_def]
  split <;> split <;> omega

/-- Run numbers from 1 on index the list at one less. -/
theorem get_sub_one_of_one_le (hk : 1 ≤ k) :
    runs.get (k - 1) = runs.elems[k.toInt.toNat - 1]? := by
  have hk' : 1 ≤ k.toInt := Int32.le_iff_toInt_le.mp hk
  have hsub : (k - 1).toInt = k.toInt - 1 := by
    rw [toInt_sub_one, if_neg (by omega)]
  have hnonneg : 0 ≤ k - 1 := by
    rw [Int32.le_iff_toInt_le, hsub]
    exact Int.sub_nonneg_of_le hk'
  have hnat : (k - 1).toNatClampNeg = k.toInt.toNat - 1 := by
    rw [← Int32.toNat_toInt, hsub]
    omega
  rw [get, if_pos hnonneg, hnat]

/-- Below `1` there is no run: the index is negative or, after an overflow, beyond the end of
every list. -/
theorem get_sub_one_of_lt_one (hk : k < 1) : runs.get (k - 1) = none := by
  have hk' : k.toInt < 1 := Int32.lt_iff_toInt_lt.mp hk
  have hsub := toInt_sub_one k
  unfold get
  split
  · rename_i hnonneg
    -- a non-negative index can only come from the overflow
    have hnonneg' : 0 ≤ (k - 1).toInt := Int32.le_iff_toInt_le.mp hnonneg
    have hlen := runs.length_lt
    rw [← Int32.toNat_toInt]
    refine List.getElem?_eq_none ?_
    split at hsub <;> omega
  · rfl

/-- There is a run at the number exactly up to the size of the list. -/
theorem get_sub_one_isSome (hk : 1 ≤ k) : (runs.get (k - 1)).isSome = decide (k ≤ runs.size) := by
  have hk' : 1 ≤ k.toInt := Int32.le_iff_toInt_le.mp hk
  rw [runs.get_sub_one_of_one_le hk, Bool.eq_iff_iff, decide_eq_true_iff, Int32.le_iff_toInt_le,
    runs.toInt_size, Option.isSome_iff_ne_none, ne_eq, List.getElem?_eq_none_iff]
  omega

end ConfigList

section Select

variable (runs : ConfigList C) {k : Int32} (field : Int32)

/-- From 1 on the constructor does not throw. -/
theorem selectRun_of_one_le (hk : 1 ≤ k) :
    selectRun runs k field =
      .constructed ⟨field, runs.get (k - 1), (runs.get (k - 1)).isSome⟩ := by
  have hsome := runs.get_sub_one_isSome hk
  unfold selectRun
  by_cases hle : k ≤ runs.size
  · -- the run exists, so `runs.get` does not throw
    rw [decide_eq_true hle] at hsome
    obtain ⟨config, hconfig⟩ := Option.isSome_iff_exists.mp hsome
    rw [if_pos hle, hconfig]
    rfl
  · rw [decide_eq_false hle] at hsome
    rw [if_neg hle, Option.isSome_eq_false_iff.mp hsome |> Option.isNone_iff_eq_none.mp]
    rfl

/-- Below 1 the constructor throws. -/
theorem selectRun_of_lt_one (hk : k < 1) : selectRun runs k field = .threw := by
  have hle : k ≤ runs.size := by
    have hk' : k.toInt < 1 := Int32.lt_iff_toInt_lt.mp hk
    rw [Int32.le_iff_toInt_le, runs.toInt_size]
    omega
  rw [selectRun, if_pos hle, runs.get_sub_one_of_lt_one hk]

end Select

/-! ## The plan of the constructor -/

section Plan

variable (runs : ConfigList C) (batchRunNumber : Fin mpiSize → Int32)

/-- Where a rank may be after it has left `i` collectives: the broadcast is the only one, and
behind it the field of every rank is the value of the root. -/
def ConstructionAt (r : Fin mpiSize) (i : ℕ) (s : Construction C) : Prop :=
  match i with
  | 0 => s = .broadcastBatchRunNumber
  | _ =>
    s = .selectRun (batchRunNumber 0) ∨
      s = selectRun runs (batchRunNumber r) (batchRunNumber 0)

/-- A bound on the computations until the broadcast or the end of the constructor. -/
def Construction.work : Construction C → ℕ
  | .selectRun _ => 1
  | _ => 0

/-- The plan of the constructor. -/
def constructionPlan : Plan mpiSize (Construction C) (List Int32) where
  sched _ := .bcast 0 [batchRunNumber 0]
  len := 1
  At := ConstructionAt runs batchRunNumber
  work := Construction.work
  bound := 1

/-- The end of the constructor is an end of the rank. -/
theorem construct_selectRun (r : Fin mpiSize) (k field : Int32) :
    construct runs batchRunNumber r (selectRun runs k field) = .halt ∧
      (selectRun runs k field).work = 0 := by
  rcases Int32.lt_or_le k 1 with hk | hk
  · rw [selectRun_of_lt_one runs field hk]
    exact ⟨rfl, rfl⟩
  · rw [selectRun_of_one_le runs field hk]
    exact ⟨rfl, rfl⟩

/-- The only collective of a rank is the broadcast. -/
theorem construct_broadcast (r : Fin mpiSize) :
    ∃ mine next, construct runs batchRunNumber r .broadcastBatchRunNumber = .bcast 0 mine next ∧
      (r = 0 → mine = [batchRunNumber 0]) ∧
      next [batchRunNumber 0] = .selectRun (batchRunNumber 0) := by
  unfold construct
  by_cases hr : r = 0
  · subst hr
    exact ⟨_, _, if_pos rfl, fun _ => rfl, rfl⟩
  · exact ⟨_, _, if_neg hr, fun h => absurd h hr, rfl⟩

/-- The constructor executes the collectives of its plan, in that order. -/
theorem follows_constructionPlan :
    Follows (construct runs batchRunNumber) (fun _ => .broadcastBatchRunNumber)
      (constructionPlan runs batchRunNumber) where
  start _ := rfl
  compute {r i s event next} _ hat hact := by
    cases i with
    | zero =>
      obtain rfl : s = .broadcastBatchRunNumber := hat
      obtain ⟨mine, next', hbcast, -⟩ := construct_broadcast runs batchRunNumber r
      cases hbcast.symm.trans hact
    | succ i =>
      rcases hat with rfl | rfl
      · obtain ⟨-, rfl⟩ := Act.compute.inj hact
        refine ⟨.inr rfl, ?_⟩
        show (selectRun runs (batchRunNumber r) (batchRunNumber 0)).work < 1
        rw [(construct_selectRun runs batchRunNumber r _ _).2]
        exact Nat.one_pos
      · cases (construct_selectRun runs batchRunNumber r _ _).1.symm.trans hact
  collective {r i s x next} hi hat hact := by
    obtain rfl : i = 0 := Nat.lt_one_iff.mp hi
    obtain rfl : s = .broadcastBatchRunNumber := hat
    obtain ⟨mine, next', hbcast, hmine, hnext⟩ := construct_broadcast runs batchRunNumber r
    rw [hbcast] at hact
    obtain ⟨rfl, rfl⟩ := Prod.mk.inj (Option.some.inj hact)
    refine ⟨⟨rfl, hmine⟩, fun v hv => ?_⟩
    -- the broadcast hands over the value of the root
    obtain rfl : v = [batchRunNumber 0] := hv
    exact .inl hnext
  not_halt {r i s} hi hat hhalt := by
    obtain rfl : i = 0 := Nat.lt_one_iff.mp hi
    obtain rfl : s = .broadcastBatchRunNumber := hat
    obtain ⟨mine, next', hbcast, -⟩ := construct_broadcast runs batchRunNumber r
    cases hbcast.symm.trans hhalt
  work_le s := by
    show s.work ≤ 1
    unfold Construction.work
    split <;> omega

/-- The plan leaves no collective out. -/
theorem complete_constructionPlan :
    Complete (construct runs batchRunNumber) (constructionPlan runs batchRunNumber) := by
  intro r s hat
  rcases hat with rfl | rfl
  · rfl
  · rw [(construct_selectRun runs batchRunNumber r _ _).1]
    rfl

variable {runs batchRunNumber}
variable {c : Config mpiSize (Construction C) (List Int32) Empty}

/-- In every interleaving, a rank that is through with the constructor has selected the run of its
own parameter. -/
theorem loc_eq_selectRun
    (hc : Reachable (construct runs batchRunNumber) (fun _ => .broadcastBatchRunNumber) c)
    {r : Fin mpiSize} (hhalt : construct runs batchRunNumber r (c.loc r) = .halt) :
    c.loc r = selectRun runs (batchRunNumber r) (batchRunNumber 0) := by
  have hf := follows_constructionPlan runs batchRunNumber
  have hle := hf.left_le_len (complete_constructionPlan runs batchRunNumber) hc r
  have hat : ConstructionAt runs batchRunNumber r (c.left r) (c.loc r) :=
    (hf.onPlan hc).at_left r hle
  cases hleft : c.left r with
  | zero =>
    rw [hleft] at hat
    rw [show c.loc r = .broadcastBatchRunNumber from hat] at hhalt
    obtain ⟨mine, next', hbcast, -⟩ := construct_broadcast runs batchRunNumber r
    cases hbcast.symm.trans hhalt
  | succ i =>
    rw [hleft] at hat
    rcases hat with hat | hat
    · rw [hat] at hhalt
      cases hhalt
    · exact hat

end Plan

/-! ## The same run on all ranks -/

/-- A `BatchTestBench` is set for run `k ≥ 1`: it is finished if there is no such run, and else
this is the one it has selected. -/
structure App.SetFor (runs : ConfigList C) (k : Int32) (app : App C) : Prop where
  finished : app.isBatchRunFinished = decide (runs.size < k)
  selected : app.currentRunConfiguration = runs.get (k - 1)

/-- All ranks execute the same run, if the value of the root is a number of a run: in every
interleaving the constructor returns on every rank, after finitely many steps, and every
`BatchTestBench` it returns is set for the run of the root. -/
def SameRun (runs : ConfigList C) (batchRunNumber : Fin mpiSize → Int32) : Prop :=
  1 ≤ batchRunNumber 0 →
    (∀ c, Reachable (construct runs batchRunNumber) (fun _ => .broadcastBatchRunNumber) c →
      (∀ r app, c.loc r = .constructed app → app.SetFor runs (batchRunNumber 0)) ∧
      (Stuck (construct runs batchRunNumber) c → ∀ r, ∃ app, c.loc r = .constructed app)) ∧
    ∃ μ : Config mpiSize (Construction C) (List Int32) Empty → ℕ, ∀ c c',
      Reachable (construct runs batchRunNumber) (fun _ => .broadcastBatchRunNumber) c →
        Step (construct runs batchRunNumber) c c' → μ c' < μ c

variable {runs : ConfigList C} {batchRunNumber : Fin mpiSize → Int32}

/-- A rank ends with a bench for the run of the root exactly if its own value selects the same
entry. -/
theorem selectRun_setFor_iff {k n field : Int32} (hn : 1 ≤ n) :
    (∃ app, selectRun runs k field = .constructed app ∧ app.SetFor runs n) ↔
      1 ≤ k ∧ runs.get (k - 1) = runs.get (n - 1) := by
  constructor
  · rintro ⟨app, happ, hset⟩
    rcases Int32.lt_or_le k 1 with hk | hk
    · rw [selectRun_of_lt_one runs field hk] at happ
      cases happ
    · rw [selectRun_of_one_le runs field hk] at happ
      obtain rfl := Construction.constructed.inj happ
      exact ⟨hk, hset.selected⟩
  · rintro ⟨hk, hget⟩
    refine ⟨_, selectRun_of_one_le runs field hk, ?_, hget⟩
    show (!(runs.get (k - 1)).isSome) = decide (runs.size < n)
    rw [hget, runs.get_sub_one_isSome hn, ← decide_not]
    exact decide_eq_decide.mpr Int32.not_le

/-- If all ranks execute the run of the root, each of them selects it by its own value. -/
theorem SameRun.get_eq (h : SameRun runs batchRunNumber) (hroot : 1 ≤ batchRunNumber 0)
    (r : Fin mpiSize) :
    1 ≤ batchRunNumber r ∧
      runs.get (batchRunNumber r - 1) = runs.get (batchRunNumber 0 - 1) := by
  have hf := follows_constructionPlan runs batchRunNumber
  have hcomplete := complete_constructionPlan runs batchRunNumber
  -- look at the end of some run
  obtain ⟨c, hc, hstuck⟩ := hf.exists_reachable_stuck hcomplete
  obtain ⟨hset, hall⟩ := (h hroot).1 c hc
  obtain ⟨app, happ⟩ := hall hstuck r
  have hloc := loc_eq_selectRun hc (hf.halted_of_stuck hcomplete hc hstuck r).2.2
  exact (selectRun_setFor_iff hroot).mp ⟨app, hloc.symm.trans happ, hset r app happ⟩

/-- For every number of ranks, list of runs and value of the property on each rank: all ranks
execute the run of the root exactly when the root has no run to ask for, or the value of each rank
selects the same entry of the list as the value of the root, both of them being beyond its end
included. -/
theorem sameRun_iff (runs : ConfigList C) (batchRunNumber : Fin mpiSize → Int32) :
    SameRun runs batchRunNumber ↔
      batchRunNumber 0 < 1 ∨ ∀ r, 1 ≤ batchRunNumber r ∧
        runs.get (batchRunNumber r - 1) = runs.get (batchRunNumber 0 - 1) := by
  constructor
  · intro h
    exact (Int32.lt_or_le (batchRunNumber 0) 1).imp_right h.get_eq
  · intro hcond hroot
    have hf := follows_constructionPlan runs batchRunNumber
    have hcomplete := complete_constructionPlan runs batchRunNumber
    have hsel : ∀ r, ∃ app, selectRun runs (batchRunNumber r) (batchRunNumber 0) =
        .constructed app ∧ app.SetFor runs (batchRunNumber 0) := by
      rcases hcond with hneg | hsame
      · exact absurd hroot (Int32.not_le.mpr hneg)
      · exact fun r => (selectRun_setFor_iff hroot).mpr (hsame r)
    refine ⟨fun c hc => ⟨fun r app happ => ?_, fun hstuck r => ?_⟩, hf.terminates hcomplete⟩
    · -- a rank that has returned has selected the run of its own value
      obtain ⟨app', happ', hset⟩ := hsel r
      have hloc := loc_eq_selectRun hc (r := r) (by rw [happ]; rfl)
      rw [happ, happ'] at hloc
      obtain rfl := Construction.constructed.inj hloc
      exact hset
    · obtain ⟨app, happ, -⟩ := hsel r
      exact ⟨app, (loc_eq_selectRun hc (hf.halted_of_stuck hcomplete hc hstuck r).2.2).trans happ⟩

/-! ### Two ranks and two runs -/

/-- A batch of two runs. -/
def twoRuns : ConfigList ℕ := ⟨[10, 20], by decide⟩

theorem sameRun_twoRuns : SameRun twoRuns (fun _ : Fin 2 => 2) :=
  (sameRun_iff twoRuns _).mpr (.inr (by decide))

/-- Rank `1` has been restarted once more than the root, and executes the other run. -/
theorem not_sameRun_twoRuns : ¬SameRun twoRuns (fun r : Fin 2 => if r = 0 then 1 else 2) := by
  intro h
  have hget := (h.get_eq (by decide) 1).2
  revert hget
  decide

end BatchTestBench
