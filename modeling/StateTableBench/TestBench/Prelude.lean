import StateTableBench.Spmd.Agreement
import StateTableBench.LatencyNodes.Nodes
import StateTableBench.TestBench.Admission

/-!
# What the ranks agree on

Before `MergedMapTestBench.run` and `MultiMergedMapTestBench.run` make a rank a writer, a reader or
a dummy, the ranks agree on two values that only the root knows. If the configuration has no base
name for the maps, the root takes one from its clock and broadcasts the time
(`generateAndDistributeMapBaseName`). After the check for enough nodes it draws the set of addresses
and broadcasts them as integers (`distributeRandomIPSet`).

All ranks are given the same configuration.

`ranks_agree`: in every interleaving all ranks that get to their role have the same base
name, and the addresses of `LatencyNodes.distributeRandomIPSet`; either all ranks get to their role
or none does, and nobody waits forever.
-/

open Spmd

namespace TestBench

/-- The size of the set of addresses. -/
def Bench.tableSize : Bench → Int32
  | .mergedMap b => b.tableSize
  | .multiMergedMap b => b.tableSize

/-- There are enough nodes. -/
def Bench.Admits (bench : Bench) (worldSize : ℕ) : Prop :=
  ∃ nodes, bench.checkNodes (Int32.ofNat worldSize) = .ok nodes

/-- Whether there are enough nodes can be computed. -/
instance (bench : Bench) (worldSize : ℕ) : Decidable (bench.Admits worldSize) :=
  match h : bench.checkNodes (Int32.ofNat worldSize) with
  | .ok nodes => .isTrue ⟨nodes, h⟩
  | .error _ => .isFalse fun ⟨_, hok⟩ => by cases h.symm.trans hok

namespace Prelude

/-- What is broadcast: `long[]` and `int[]`. -/
inductive Message
  | longs (values : List ℤ)
  | ints (values : List Int32)
deriving Inhabited

/-- `IPv4Addr.toInt` and `IPv4Addr.fromInt`. -/
structure IntAddresses (κ : Type) where
  toInt : κ → Int32
  fromInt : Int32 → κ
  fromInt_toInt : ∀ ip, fromInt (toInt ip) = ip

/-- Where a rank is in `run`. -/
inductive Pc
  | begin
  /-- The base name of the maps is known. -/
  | named
  | distributeRandomIPSet
  /-- At the log message of `distributeRandomIPSet`. -/
  | log
  /-- Where the roles begin. -/
  | role
  | threw
deriving DecidableEq

/-- The local state of a rank. -/
structure State (κ : Type) where
  pc : Pc
  mapBaseName : String
  ipAddresses : List κ

/-- The configuration names the maps, or leaves the name empty. -/
def State.init {κ : Type} (mapBaseName : String) : State κ where
  pc := .begin
  mapBaseName
  ipAddresses := []

section Program

variable {mpiSize : ℕ} [NeZero mpiSize] {κ σ : Type}

/-- `generateAndDistributeMapBaseName`; `currentTimeMillis` is the clock of the rank. -/
def generateAndDistributeMapBaseName (currentTimeMillis : ℤ) (mpiRank : Fin mpiSize)
    (next : String → σ) : Act mpiSize σ Message Unit :=
  if mpiRank = 0 then
    .bcast 0 (.longs [currentTimeMillis]) fun _ => next ("auto" ++ toString currentTimeMillis)
  else
    .bcast 0 (.longs []) fun valueArray =>
      match valueArray with
      | .longs (value :: _) => next ("auto" ++ toString value)
      | _ => next ("auto" ++ toString (0 : ℤ))

/-- `distributeRandomIPSet` up to the log message; the rank draws the addresses `random`. -/
def distributeRandomIPSet (A : IntAddresses κ) (size : Int32) (random : ℕ → κ)
    (myRank : Fin mpiSize) (next : List κ → σ) : Act mpiSize σ Message Unit :=
  if myRank = 0 then
    let ips := (List.range size.toInt.toNat).map random
    .bcast 0 (.ints (ips.map A.toInt)) fun _ => next ips
  else
    .bcast 0 (.ints []) fun intIps =>
      match intIps with
      | .ints values => next (values.map A.fromInt)
      | .longs _ => next []

/-- `run` of a bench on rank `worldRank`, up to the roles. -/
def run (bench : Bench) (A : IntAddresses κ) (currentTimeMillis : Fin mpiSize → ℤ)
    (random : Fin mpiSize → ℕ → κ) (worldRank : Fin mpiSize) (s : State κ) :
    Act mpiSize (State κ) Message Unit :=
  match s.pc with
  | .begin =>
    if s.mapBaseName = "" then
      generateAndDistributeMapBaseName (currentTimeMillis worldRank) worldRank fun mapBaseName =>
        { s with mapBaseName, pc := .named }
    else .compute none { s with pc := .named }
  | .named =>
    match bench.checkNodes (Int32.ofNat mpiSize) with
    | .error _ => .compute none { s with pc := .threw }
    | .ok _ => .compute none { s with pc := .distributeRandomIPSet }
  | .distributeRandomIPSet =>
    -- `new int[size]`
    if bench.tableSize < 0 then .compute none { s with pc := .threw }
    else
      distributeRandomIPSet A bench.tableSize (random worldRank) worldRank fun ipAddresses =>
        { s with ipAddresses, pc := .log }
  | .log =>
    -- the message has the first address
    .compute none { s with pc := if s.ipAddresses.isEmpty then .threw else .role }
  | .role => .halt
  | .threw => .halt

end Program

/-! ## The plan -/

section Plan

variable {mpiSize : ℕ} [NeZero mpiSize] {κ : Type}
variable (bench : Bench) (A : IntAddresses κ) (mapBaseName : String)
variable (currentTimeMillis : Fin mpiSize → ℤ) (random : Fin mpiSize → ℕ → κ)

/-- The base name that all ranks use. -/
def agreedName : String :=
  if mapBaseName = "" then "auto" ++ toString (currentTimeMillis 0) else mapBaseName

/-- The addresses that all ranks use. -/
def agreedAddresses : List κ :=
  LatencyNodes.distributeRandomIPSet bench.tableSize.toInt (random 0)

/-- How many broadcasts there are for the base name. -/
def namings : ℕ := if mapBaseName = "" then 1 else 0

/-- How many broadcasts there are. -/
def broadcasts (mpiSize : ℕ) : ℕ :=
  namings mapBaseName + if bench.Admits mpiSize ∧ ¬bench.tableSize < 0 then 1 else 0

/-- Where a rank may be after `i` broadcasts. -/
def Before (i : ℕ) (s : State κ) : Prop :=
  match s.pc with
  | .begin => i = 0 ∧ s.mapBaseName = mapBaseName
  | .named => i = namings mapBaseName ∧ s.mapBaseName = agreedName mapBaseName currentTimeMillis
  | .distributeRandomIPSet =>
    i = namings mapBaseName ∧ s.mapBaseName = agreedName mapBaseName currentTimeMillis ∧
      bench.Admits mpiSize
  | .log =>
    i = broadcasts bench mapBaseName mpiSize ∧
      s.mapBaseName = agreedName mapBaseName currentTimeMillis ∧ bench.Admits mpiSize ∧
      ¬bench.tableSize < 0 ∧ s.ipAddresses = agreedAddresses bench random
  | .role =>
    i = broadcasts bench mapBaseName mpiSize ∧
      s.mapBaseName = agreedName mapBaseName currentTimeMillis ∧ bench.Admits mpiSize ∧
      0 < bench.tableSize ∧ s.ipAddresses = agreedAddresses bench random
  | .threw =>
    i = broadcasts bench mapBaseName mpiSize ∧ ¬(bench.Admits mpiSize ∧ 0 < bench.tableSize)

/-- A bound on the computations until the next broadcast or the end. -/
def State.work (s : State κ) : ℕ :=
  match s.pc with
  | .begin => 3
  | .named => 2
  | .distributeRandomIPSet => 1
  | .log => 1
  | _ => 0

/-- The plan of all ranks. -/
def plan : Plan mpiSize (State κ) Message where
  sched i :=
    if i < namings mapBaseName then .bcast 0 (.longs [currentTimeMillis 0])
    else .bcast 0 (.ints ((agreedAddresses bench random).map A.toInt))
  len := broadcasts bench mapBaseName mpiSize
  At _ := Before bench mapBaseName currentTimeMillis random
  work := State.work
  bound := 3

variable {bench A mapBaseName currentTimeMillis random}

theorem pos_iff {size : Int32} : 0 < size ↔ 0 < size.toInt := by
  rw [Int32.lt_iff_toInt_lt]
  rfl

theorem agreedAddresses_eq_nil_iff :
    agreedAddresses bench random = [] ↔ ¬0 < bench.tableSize := by
  rw [agreedAddresses, LatencyNodes.distributeRandomIPSet, List.map_eq_nil_iff,
    List.range_eq_nil, pos_iff]
  omega

/-- The computations of a rank keep to the plan. -/
theorem Before.compute {r : Fin mpiSize} {i : ℕ} {s next : State κ} {event : Option Unit}
    (hat : Before bench mapBaseName currentTimeMillis random i s)
    (hact : run bench A currentTimeMillis random r s = .compute event next) :
    Before bench mapBaseName currentTimeMillis random i next ∧ next.work < s.work := by
  cases hpc : s.pc with
  | begin =>
    simp only [Before, hpc] at hat
    obtain ⟨rfl, hname⟩ := hat
    simp only [run, hpc] at hact
    split_ifs at hact with hempty
    · unfold generateAndDistributeMapBaseName at hact
      split_ifs at hact
    · obtain ⟨-, rfl⟩ := Act.compute.inj hact
      rw [hname] at hempty
      refine ⟨⟨?_, ?_⟩, by simp [State.work, hpc]⟩
      · rw [namings, if_neg hempty]
      · rw [agreedName, if_neg hempty]
        exact hname
  | named =>
    simp only [Before, hpc] at hat
    obtain ⟨hi, hname⟩ := hat
    simp only [run, hpc] at hact
    cases hcheck : bench.checkNodes (Int32.ofNat mpiSize) with
    | error e =>
      rw [hcheck] at hact
      obtain ⟨-, rfl⟩ := Act.compute.inj hact
      have hadmits : ¬bench.Admits mpiSize := fun ⟨_, hok⟩ => by cases hcheck.symm.trans hok
      refine ⟨⟨?_, fun h => hadmits h.1⟩, by simp [State.work, hpc]⟩
      rw [broadcasts, if_neg fun h => hadmits h.1]
      exact hi
    | ok nodes =>
      rw [hcheck] at hact
      obtain ⟨-, rfl⟩ := Act.compute.inj hact
      exact ⟨⟨hi, hname, nodes, hcheck⟩, by simp [State.work, hpc]⟩
  | distributeRandomIPSet =>
    simp only [Before, hpc] at hat
    obtain ⟨hi, hname, hadmits⟩ := hat
    simp only [run, hpc] at hact
    split_ifs at hact with hsize
    · obtain ⟨-, rfl⟩ := Act.compute.inj hact
      refine ⟨⟨?_, fun h => ?_⟩, by simp [State.work, hpc]⟩
      · rw [broadcasts, if_neg fun h => h.2 hsize]
        exact hi
      · exact Int32.lt_irrefl (Int32.lt_trans h.2 hsize)
    · unfold distributeRandomIPSet at hact
      split_ifs at hact
  | log =>
    simp only [Before, hpc] at hat
    obtain ⟨hi, hname, hadmits, hsize, hips⟩ := hat
    simp only [run, hpc] at hact
    obtain ⟨-, rfl⟩ := Act.compute.inj hact
    by_cases hempty : s.ipAddresses.isEmpty = true
    · rw [if_pos hempty]
      have hnil : agreedAddresses bench random = [] := hips ▸ List.isEmpty_iff.mp hempty
      exact ⟨⟨hi, fun h => agreedAddresses_eq_nil_iff.mp hnil h.2⟩, by simp [State.work, hpc]⟩
    · rw [if_neg hempty]
      have hpos : 0 < bench.tableSize := by
        by_contra hneg
        exact hempty (List.isEmpty_iff.mpr (hips.trans (agreedAddresses_eq_nil_iff.mpr hneg)))
      exact ⟨⟨hi, hname, hadmits, hpos, hips⟩, by simp [State.work, hpc]⟩
  | role =>
    simp only [run, hpc] at hact
    cases hact
  | threw =>
    simp only [run, hpc] at hact
    cases hact

/-- The broadcasts of a rank are those of the plan, and what it makes of them is too. -/
theorem Before.collective {r : Fin mpiSize} {i : ℕ} {s : State κ}
    {x : Collective mpiSize Message} {next : Message → State κ}
    (hat : Before bench mapBaseName currentTimeMillis random i s)
    (hact : (run bench A currentTimeMillis random r s).collective? = some (x, next)) :
    let y := (plan bench A mapBaseName currentTimeMillis random).sched i
    x.Fits r y ∧ ∀ v, y.Delivers v →
      Before bench mapBaseName currentTimeMillis random (i + 1) (next v) := by
  cases hpc : s.pc with
  | begin =>
    simp only [Before, hpc] at hat
    obtain ⟨rfl, hname⟩ := hat
    simp only [run, hpc] at hact
    by_cases hempty : s.mapBaseName = ""
    · have hnamings : namings mapBaseName = 1 := by rw [namings, ← hname, if_pos hempty]
      have hagreed : agreedName mapBaseName currentTimeMillis =
          "auto" ++ toString (currentTimeMillis 0) := by
        rw [agreedName, ← hname, if_pos hempty]
      have hsched : (plan bench A mapBaseName currentTimeMillis random).sched 0 =
          .bcast 0 (.longs [currentTimeMillis 0]) := by
        simp [plan, hnamings]
      rw [if_pos hempty, generateAndDistributeMapBaseName] at hact
      rw [hsched]
      split_ifs at hact with hroot
      · obtain ⟨rfl, rfl⟩ := Prod.mk.inj (Option.some.inj hact)
        refine ⟨⟨rfl, fun _ => by rw [hroot]⟩, fun v _ => ⟨hnamings.symm, ?_⟩⟩
        rw [hagreed, ← hroot]
      · obtain ⟨rfl, rfl⟩ := Prod.mk.inj (Option.some.inj hact)
        refine ⟨⟨rfl, fun h => absurd h hroot⟩, fun v hv => ?_⟩
        obtain rfl : v = .longs [currentTimeMillis 0] := hv
        exact ⟨hnamings.symm, hagreed.symm⟩
    · rw [if_neg hempty] at hact
      cases hact
  | named =>
    simp only [run, hpc] at hact
    split at hact <;> cases hact
  | distributeRandomIPSet =>
    simp only [Before, hpc] at hat
    obtain ⟨rfl, hname, hadmits⟩ := hat
    simp only [run, hpc] at hact
    by_cases hsize : bench.tableSize < 0
    · rw [if_pos hsize] at hact
      cases hact
    · have hlast : namings mapBaseName + 1 = broadcasts bench mapBaseName mpiSize := by
        rw [broadcasts, if_pos ⟨hadmits, hsize⟩]
      have hsched : (plan bench A mapBaseName currentTimeMillis random).sched
          (namings mapBaseName) =
          .bcast 0 (.ints ((agreedAddresses bench random).map A.toInt)) := by
        simp [plan]
      rw [if_neg hsize, distributeRandomIPSet] at hact
      rw [hsched]
      split_ifs at hact with hroot
      · obtain ⟨rfl, rfl⟩ := Prod.mk.inj (Option.some.inj hact)
        subst hroot
        exact ⟨⟨rfl, fun _ => rfl⟩, fun v _ => ⟨hlast, hname, hadmits, hsize, rfl⟩⟩
      · obtain ⟨rfl, rfl⟩ := Prod.mk.inj (Option.some.inj hact)
        refine ⟨⟨rfl, fun h => absurd h hroot⟩, fun v hv => ?_⟩
        obtain rfl : v = .ints ((agreedAddresses bench random).map A.toInt) := hv
        refine ⟨hlast, hname, hadmits, hsize, ?_⟩
        show ((agreedAddresses bench random).map A.toInt).map A.fromInt = _
        simp [List.map_map, Function.comp_def, A.fromInt_toInt]
  | log =>
    simp only [run, hpc] at hact
    cases hact
  | role =>
    simp only [run, hpc] at hact
    cases hact
  | threw =>
    simp only [run, hpc] at hact
    cases hact

/-- A rank halts in its role, or after an exception. -/
theorem pc_of_halt {r : Fin mpiSize} {s : State κ}
    (hact : run bench A currentTimeMillis random r s = .halt) :
    s.pc = .role ∨ s.pc = .threw := by
  cases hpc : s.pc with
  | role => exact .inl rfl
  | threw => exact .inr rfl
  | begin =>
    simp only [run, hpc, generateAndDistributeMapBaseName] at hact
    split_ifs at hact
  | named =>
    simp only [run, hpc] at hact
    split at hact <;> cases hact
  | distributeRandomIPSet =>
    simp only [run, hpc, distributeRandomIPSet] at hact
    split_ifs at hact
  | log =>
    simp only [run, hpc] at hact
    cases hact

theorem follows :
    Follows (run bench A currentTimeMillis random) (fun _ => State.init mapBaseName)
      (plan bench A mapBaseName currentTimeMillis random) where
  start _ := ⟨rfl, rfl⟩
  compute _ hat hact := Before.compute hat hact
  collective _ hat hact := Before.collective hat hact
  not_halt {r i s} hi hat hact := by
    have hend : i = broadcasts bench mapBaseName mpiSize := by
      have hat' : Before bench mapBaseName currentTimeMillis random i s := hat
      rcases pc_of_halt hact with hpc | hpc
      · simp only [Before, hpc] at hat'
        exact hat'.1
      · simp only [Before, hpc] at hat'
        exact hat'.1
    exact absurd hi (by rw [hend]; exact Nat.lt_irrefl _)
  work_le s := by
    show s.work ≤ 3
    unfold State.work
    split <;> omega

/-- No broadcast is left at the end of the plan. -/
theorem complete :
    Complete (run bench A currentTimeMillis random)
      (plan bench A mapBaseName currentTimeMillis random) := by
  intro r s hat
  have hat' : Before bench mapBaseName currentTimeMillis random
    (broadcasts bench mapBaseName mpiSize) s := hat
  by_contra hne
  obtain ⟨⟨x, next⟩, hact⟩ := Option.ne_none_iff_exists'.mp hne
  cases hpc : s.pc with
  | begin =>
    simp only [Before, hpc] at hat'
    obtain ⟨hnone, hname⟩ := hat'
    have hempty : ¬s.mapBaseName = "" := by
      intro hempty
      rw [hname] at hempty
      rw [broadcasts, namings, if_pos hempty] at hnone
      omega
    simp only [run, hpc, if_neg hempty] at hact
    cases hact
  | named =>
    simp only [run, hpc] at hact
    split at hact <;> cases hact
  | distributeRandomIPSet =>
    simp only [Before, hpc] at hat'
    obtain ⟨hlast, -, hadmits⟩ := hat'
    have hsize : bench.tableSize < 0 := by
      by_contra hsize
      rw [broadcasts, if_pos ⟨hadmits, hsize⟩] at hlast
      omega
    simp only [run, hpc, if_pos hsize] at hact
    cases hact
  | log =>
    simp only [run, hpc] at hact
    cases hact
  | role =>
    simp only [run, hpc] at hact
    cases hact
  | threw =>
    simp only [run, hpc] at hact
    cases hact

end Plan

/-- In every interleaving all ranks that get to their role have the same base name for the maps and
the same addresses, those of the root. All ranks issue the same broadcasts, and after finitely many
steps either all of them are in their roles, or all of them have thrown. -/
theorem ranks_agree {mpiSize : ℕ} [NeZero mpiSize] {κ : Type} (bench : Bench) (A : IntAddresses κ)
    (mapBaseName : String) (currentTimeMillis : Fin mpiSize → ℤ)
    (random : Fin mpiSize → ℕ → κ) :
    let prog := run bench A currentTimeMillis random
    let init := fun _ => State.init mapBaseName
    NoRankLeftAlone prog init ∧
      (∃ μ : Config mpiSize (State κ) Message Unit → ℕ, ∀ c c', Reachable prog init c →
        Step prog c c' → μ c' < μ c) ∧
      ∀ c, Reachable prog init c →
        (∀ r, (c.loc r).pc = .role →
          (c.loc r).mapBaseName = agreedName mapBaseName currentTimeMillis ∧
          (c.loc r).ipAddresses =
            LatencyNodes.distributeRandomIPSet bench.tableSize.toInt (random 0)) ∧
        (Stuck prog c → ∀ r, (c.loc r).pc =
          if bench.Admits mpiSize ∧ 0 < bench.tableSize then .role else .threw) := by
  intro prog init
  have hf : Follows prog init (plan bench A mapBaseName currentTimeMillis random) :=
    follows
  refine ⟨hf.noRankLeftAlone complete, hf.terminates complete, fun c hc => ?_⟩
  have hat : ∀ r, Before bench mapBaseName currentTimeMillis random (c.left r) (c.loc r) :=
    fun r => (hf.onPlan hc).at_left r (hf.left_le_len complete hc r)
  refine ⟨fun r hpc => ?_, fun hstuck r => ?_⟩
  · have hrole := hat r
    simp only [Before, hpc] at hrole
    obtain ⟨-, hname, -, -, hips⟩ := hrole
    exact ⟨hname, hips⟩
  · obtain ⟨-, -, hact⟩ := hf.halted_of_stuck complete hc hstuck r
    have hend := hat r
    rcases pc_of_halt hact with hpc | hpc
    · simp only [Before, hpc] at hend
      obtain ⟨-, -, hadmits, hsize, -⟩ := hend
      rw [hpc, if_pos ⟨hadmits, hsize⟩]
    · simp only [Before, hpc] at hend
      rw [hpc, if_neg hend.2]

/-- Addresses that are given as integers. -/
def sampleAddresses : IntAddresses Int32 := ⟨id, id, fun _ => rfl⟩

/-- The clocks of two ranks differ by a millisecond, and so do their first addresses. -/
theorem ranks_agree_pairBench :
    ∃ c, Reachable (run pairBench sampleAddresses (fun r : Fin 2 => 1000 + (r.val : ℤ))
        fun r i => Int32.ofNat (r.val + i)) (fun _ => State.init "") c ∧
      ∀ r, (c.loc r).mapBaseName = "auto1000" ∧
        (c.loc r).ipAddresses = LatencyNodes.distributeRandomIPSet 1000 Int32.ofNat := by
  have hf : Follows (run pairBench sampleAddresses (fun r : Fin 2 => 1000 + (r.val : ℤ))
      fun r i => Int32.ofNat (r.val + i)) (fun _ => State.init "") _ := follows
  obtain ⟨c, hc, hstuck⟩ := hf.exists_reachable_stuck complete
  obtain ⟨hvalues, hend⟩ := (ranks_agree pairBench sampleAddresses ""
    (fun r : Fin 2 => 1000 + (r.val : ℤ)) fun r i => Int32.ofNat (r.val + i)).2.2 c hc
  refine ⟨c, hc, fun r => ?_⟩
  have hpc : (c.loc r).pc = .role := by
    rw [hend hstuck r, if_pos (by decide)]
  obtain ⟨hname, hips⟩ := hvalues r hpc
  refine ⟨hname.trans (by decide), hips.trans ?_⟩
  have hsize : pairBench.tableSize.toInt = 1000 := by decide
  simp [hsize]

end Prelude

end TestBench
