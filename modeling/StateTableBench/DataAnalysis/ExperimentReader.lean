import StateTableBench.BatchTestBench.Config
import StateTableBench.Collections.FiniteMap
import StateTableBench.Text.Regex

/-!
# Reading the tags of experiments

The results of a run are in a directory that is named by `suggestedTestTag`. The scripts for the
analysis find the parameters of the run by taking this name apart with a regular expression
(`experimentreader.py`).

The expression for `MergedMapTestBench` allows only one digit for the number of maps.
`listExperiments_iff` says which tags are read correctly.
-/

open FiniteMap Text.Regex BatchTestBench

namespace ExperimentReader

/-- `^MMTB-(\d)w(\d+)c(\d+)ups(\d+)ts(\d+)x$` -/
def mmtbRegexp : List Item :=
  literals "MMTB-" ++ [.digit] ++ literals "w" ++ [.digits] ++ literals "c" ++ [.digits] ++
    literals "ups" ++ [.digits] ++ literals "ts" ++ [.digits] ++ literals "x"

/-- `^MultiMMTB-(\d+)mpw(\d+)mpr(\d+)maps(\d+)ups(\d+)ts(\d+)x$` -/
def multiMMTBRegexp : List Item :=
  literals "MultiMMTB-" ++ [.digits] ++ literals "mpw" ++ [.digits] ++ literals "mpr" ++
    [.digits] ++ literals "maps" ++ [.digits] ++ literals "ups" ++ [.digits] ++ literals "ts" ++
    [.digits] ++ literals "x"

/-- An entry of the result. -/
inductive Experiment
  | mmtb (writers readers writeRate : ℤ)
  | multiMMTB (mapsPerWriter mapsPerReader maps updatesPerSecond tableSize : ℤ)
deriving DecidableEq

/-- `int(parts.group(k))`. -/
def intGroup (parts : List (List Char)) (k : ℕ) : ℤ :=
  (Nat.ofDigitChars 10 (parts.getD (k - 1) []) 0 : ℕ)

variable {D : Type → Type → Type} [FiniteMap D]

/-- The body of the loop of `listExperiments`. -/
def addExperiment (experiments : D String Experiment) (expirementTag : String) :
    D String Experiment :=
  let experiments :=
    match fullMatch mmtbRegexp expirementTag.toList with
    | some parts =>
      put experiments expirementTag
        (.mmtb (intGroup parts 1) (intGroup parts 2) (intGroup parts 3))
    | none => experiments
  match fullMatch multiMMTBRegexp expirementTag.toList with
  | some parts =>
    put experiments expirementTag
      (.multiMMTB (intGroup parts 1) (intGroup parts 2) (intGroup parts 3) (intGroup parts 4)
        (intGroup parts 5))
  | none => experiments

/-- `listExperiments`: `listdir` are the names in the directory and `isdir` says which of them are
directories themselves. -/
def listExperiments (listdir : List String) (isdir : String → Bool) : D String Experiment :=
  listdir.foldl (fun experiments expirementTag =>
    if isdir expirementTag then addExperiment experiments expirementTag else experiments) empty

/-! ## The entry for a directory -/

/-- What `listExperiments` makes of a tag. -/
def experiment? (tag : String) : Option Experiment :=
  match fullMatch multiMMTBRegexp tag.toList with
  | some parts =>
    some (.multiMMTB (intGroup parts 1) (intGroup parts 2) (intGroup parts 3) (intGroup parts 4)
      (intGroup parts 5))
  | none =>
    (fullMatch mmtbRegexp tag.toList).map fun parts =>
      .mmtb (intGroup parts 1) (intGroup parts 2) (intGroup parts 3)

/-- A directory adds its own experiment, if its name is matched. -/
theorem get?_addExperiment (experiments : D String Experiment) (tag tag' : String) :
    get? (addExperiment experiments tag') tag =
      if tag = tag' then (experiment? tag).or (get? experiments tag) else get? experiments tag := by
  unfold addExperiment experiment?
  by_cases heq : tag = tag'
  · subst heq
    -- the second entry replaces the first one
    cases fullMatch multiMMTBRegexp tag.toList with
    | some parts => simp
    | none =>
      cases fullMatch mmtbRegexp tag.toList with
      | some parts => simp
      | none => simp
  · cases fullMatch multiMMTBRegexp tag'.toList with
    | some parts =>
      cases fullMatch mmtbRegexp tag'.toList with
      | some parts => simp [get?_put, heq]
      | none => simp [get?_put, heq]
    | none =>
      cases fullMatch mmtbRegexp tag'.toList with
      | some parts => simp [get?_put, heq]
      | none => simp [heq]

/-- The entry for a directory depends on its name only. -/
theorem get?_listExperiments {listdir : List String} {isdir : String → Bool} {tag : String}
    (hmem : tag ∈ listdir) (hdir : isdir tag = true) :
    get? (listExperiments listdir isdir : D String Experiment) tag = experiment? tag := by
  -- whatever the loop starts with, the tag is seen once or more often
  have hloop : ∀ (names : List String) (experiments : D String Experiment),
      get? (names.foldl (fun experiments expirementTag =>
        if isdir expirementTag then addExperiment experiments expirementTag else experiments)
        experiments) tag =
      if tag ∈ names then (experiment? tag).or (get? experiments tag)
      else get? experiments tag := by
    intro names
    induction names with
    | nil => intro experiments; rfl
    | cons name names ih =>
      intro experiments
      rw [List.foldl_cons, ih]
      by_cases heq : tag = name
      · subst heq
        rw [if_pos hdir, get?_addExperiment, if_pos rfl, if_pos List.mem_cons_self]
        split
        · cases experiment? tag <;> rfl
        · rfl
      · have hkeep : get? (if isdir name then addExperiment experiments name else experiments) tag =
            get? experiments tag := by
          split
          · rw [get?_addExperiment, if_neg heq]
          · rfl
        rw [hkeep]
        simp [heq]
  rw [listExperiments, hloop, if_pos hmem, get?_empty, Option.or_none]

/-! ## The tags of the benches -/

section Tags

theorem repr_of_nonneg {z : ℤ} (h : 0 ≤ z) : z.repr = z.toNat.repr := by
  rw [Int.repr_eq_if, if_pos h]

/-- The first group of digits is read back. -/
theorem intGroup_one {z : ℤ} (h : 0 ≤ z) (parts : List (List Char)) :
    intGroup (z.repr.toList :: parts) 1 = z := by
  show ((Nat.ofDigitChars 10 z.repr.toList 0 : ℕ) : ℤ) = z
  rw [repr_of_nonneg h, Nat.toList_repr, Nat.ofDigitChars_ten_toDigits, Int.toNat_of_nonneg h]

theorem intGroup_cons (part : List Char) (parts : List (List Char)) (k : ℕ) :
    intGroup (part :: parts) (k + 2) = intGroup parts (k + 1) := rfl

variable {a b c d e f : ℕ}

/-- The last group of both expressions. -/
theorem fullMatch_last (n : ℕ) :
    fullMatch (.digits :: literals "x") (n.repr.toList ++ "x".toList) = some [n.repr.toList] := by
  have hrepr := @fullMatch_repr [] [] "x" _ _ rfl (by decide) n
  rw [List.append_nil, List.append_nil] at hrepr
  rw [hrepr]
  rfl

/-- The groups of the expression for `MergedMapTestBench`. -/
theorem fullMatch_mmtb :
    fullMatch mmtbRegexp ("MMTB-" ++ a.repr ++ "w" ++ b.repr ++ "c" ++ c.repr ++ "ups" ++ d.repr ++
      "ts" ++ e.repr ++ "x").toList =
    if a < 10 then
      some [a.repr.toList, b.repr.toList, c.repr.toList, d.repr.toList, e.repr.toList]
    else none := by
  simp only [mmtbRegexp, String.toList_append, List.append_assoc, List.cons_append,
    List.nil_append]
  rw [literals, fullMatch_literals, fullMatch_digit_repr rfl (by decide),
    fullMatch_repr rfl (by decide), fullMatch_repr rfl (by decide), fullMatch_repr rfl (by decide),
    fullMatch_last]
  rfl

/-- The groups of the expression for `MultiMergedMapTestBench`. -/
theorem fullMatch_multiMMTB :
    fullMatch multiMMTBRegexp ("MultiMMTB-" ++ a.repr ++ "mpw" ++ b.repr ++ "mpr" ++ c.repr ++
      "maps" ++ d.repr ++ "ups" ++ e.repr ++ "ts" ++ f.repr ++ "x").toList =
    some [a.repr.toList, b.repr.toList, c.repr.toList, d.repr.toList, e.repr.toList,
      f.repr.toList] := by
  simp only [multiMMTBRegexp, String.toList_append, List.append_assoc, List.cons_append,
    List.nil_append]
  rw [literals, fullMatch_literals, fullMatch_repr rfl (by decide), fullMatch_repr rfl (by decide),
    fullMatch_repr rfl (by decide), fullMatch_repr rfl (by decide), fullMatch_repr rfl (by decide),
    fullMatch_last]
  rfl

/-- The expressions differ in the second character. -/
theorem fullMatch_multiMMTB_of_mmtb (text : List Char) :
    fullMatch multiMMTBRegexp ("MMTB-".toList ++ text) = none := by
  simp only [multiMMTBRegexp, literals, List.append_assoc]
  rfl

end Tags

/-- All numbers in the tag of the bench are non-negative. -/
def TagNonneg : Bench → Prop
  | .mergedMap b => 0 ≤ b.numberOfMaps.toInt ∧ 0 ≤ b.readersPerMap.toInt ∧ 0 ≤ b.writeRate.toInt ∧
      0 ≤ b.tableSize.toInt ∧ 0 ≤ b.benchmarkWrites.toInt
  | .multiMergedMap b => 0 ≤ b.maxNumberOfMapsPerWriter.toInt ∧
      0 ≤ b.maxNumberOfMapsPerReader.toInt ∧ 0 ≤ b.numberOfMaps.toInt ∧
      0 ≤ b.writeRatePerMap.toInt ∧ 0 ≤ b.tableSize.toInt ∧ 0 ≤ b.benchmarkWrites.toInt

/-- The entry that is expected for a bench. -/
def expected : Bench → Experiment
  | .mergedMap b => .mmtb b.numberOfMaps.toInt b.readersPerMap.toInt b.writeRate.toInt
  | .multiMergedMap b =>
    .multiMMTB b.maxNumberOfMapsPerWriter.toInt b.maxNumberOfMapsPerReader.toInt
      b.numberOfMaps.toInt b.writeRatePerMap.toInt b.tableSize.toInt

/-- The name of a `MergedMapTestBench` is matched for at most nine maps. -/
theorem experiment?_mergedMap {b : MergedMapTestBench} (h : TagNonneg (.mergedMap b)) :
    experiment? b.suggestedTestTag =
      if b.numberOfMaps.toInt ≤ 9 then some (expected (.mergedMap b)) else none := by
  obtain ⟨hmaps, hreaders, hrate, htable, hwrites⟩ := h
  have hmulti : fullMatch multiMMTBRegexp b.suggestedTestTag.toList = none := by
    rw [MergedMapTestBench.suggestedTestTag_eq, String.toList_append]
    exact fullMatch_multiMMTB_of_mmtb _
  -- the groups are texts of naturals, and the numbers of the bench are non-negative
  have hmatch := @fullMatch_mmtb b.numberOfMaps.toInt.toNat b.readersPerMap.toInt.toNat
    b.writeRate.toInt.toNat b.tableSize.toInt.toNat b.benchmarkWrites.toInt.toNat
  rw [← repr_of_nonneg hmaps, ← repr_of_nonneg hreaders, ← repr_of_nonneg hrate,
    ← repr_of_nonneg htable, ← repr_of_nonneg hwrites] at hmatch
  change fullMatch mmtbRegexp b.suggestedTestTag.toList = _ at hmatch
  rw [experiment?, hmulti, hmatch]
  by_cases hone : b.numberOfMaps.toInt ≤ 9
  · have hlt : b.numberOfMaps.toInt.toNat < 10 := by omega
    rw [if_pos hlt, if_pos hone, expected, Option.map_some]
    simp only [intGroup_one hmaps, intGroup_one hreaders, intGroup_one hrate, intGroup_cons]
  · have hge : ¬b.numberOfMaps.toInt.toNat < 10 := by omega
    rw [if_neg hge, if_neg hone, Option.map_none]

/-- The name of a `MultiMergedMapTestBench` is always matched. -/
theorem experiment?_multiMergedMap {b : MultiMergedMapTestBench}
    (h : TagNonneg (.multiMergedMap b)) :
    experiment? b.suggestedTestTag = some (expected (.multiMergedMap b)) := by
  obtain ⟨hwriter, hreader, hmaps, hrate, htable, hwrites⟩ := h
  have hmatch := @fullMatch_multiMMTB b.maxNumberOfMapsPerWriter.toInt.toNat
    b.maxNumberOfMapsPerReader.toInt.toNat b.numberOfMaps.toInt.toNat b.writeRatePerMap.toInt.toNat
    b.tableSize.toInt.toNat b.benchmarkWrites.toInt.toNat
  rw [← repr_of_nonneg hwriter, ← repr_of_nonneg hreader, ← repr_of_nonneg hmaps,
    ← repr_of_nonneg hrate, ← repr_of_nonneg htable, ← repr_of_nonneg hwrites] at hmatch
  change fullMatch multiMMTBRegexp b.suggestedTestTag.toList = _ at hmatch
  simp only [experiment?, hmatch, expected, intGroup_one hwriter, intGroup_one hreader,
    intGroup_one hmaps, intGroup_one hrate, intGroup_one htable, intGroup_cons]

/-- The directory of a run is listed with the numbers of its configuration exactly if the run is
one of `MultiMergedMapTestBench` or has at most nine maps. -/
theorem listExperiments_iff (bench : Bench) (hnonneg : TagNonneg bench)
    (listdir : List String) (isdir : String → Bool) (hmem : bench.suggestedTestTag ∈ listdir)
    (hdir : isdir bench.suggestedTestTag = true) :
    get? (listExperiments listdir isdir : D String Experiment) bench.suggestedTestTag =
        some (expected bench) ↔
      ∀ b, bench = .mergedMap b → b.numberOfMaps.toInt ≤ 9 := by
  rw [get?_listExperiments hmem hdir]
  cases bench with
  | mergedMap b =>
    rw [Bench.suggestedTestTag, experiment?_mergedMap hnonneg]
    by_cases hone : b.numberOfMaps.toInt ≤ 9
    · simp [hone]
    · simp [hone]
  | multiMergedMap b =>
    rw [Bench.suggestedTestTag, experiment?_multiMergedMap hnonneg]
    simp

/-- A directory with a run of each bench. -/
def sampleListdir : List String :=
  ["MMTB-9w2c100ups1000ts500x", "MultiMMTB-12mpw5mpr1maps100ups1000ts30000x"]

/-- Both runs are listed, the one with nine maps and the one with twelve maps for each writer. -/
theorem listExperiments_sampleListdir :
    get? (listExperiments sampleListdir (fun _ => true) : AssocMap String Experiment)
      "MMTB-9w2c100ups1000ts500x" = some (.mmtb 9 2 100) ∧
    get? (listExperiments sampleListdir (fun _ => true) : AssocMap String Experiment)
      "MultiMMTB-12mpw5mpr1maps100ups1000ts30000x" = some (.multiMMTB 12 5 1 100 1000) :=
  ⟨(listExperiments_iff (.mergedMap
      { numberOfMaps := 9, readersPerMap := 2, writeRate := 100, benchmarkWrites := 500 })
      (by unfold TagNonneg; decide) sampleListdir (fun _ => true) (by decide) rfl).mpr
      (by rintro b ⟨⟩; decide),
    (listExperiments_iff (.multiMergedMap
      { numberOfMaps := 1, writeRatePerMap := 100, maxNumberOfMapsPerWriter := 12,
        maxNumberOfMapsPerReader := 5, benchmarkWrites := 30000 })
      (by unfold TagNonneg; decide) sampleListdir (fun _ => true) (by decide) rfl).mpr
      (by rintro b ⟨⟩)⟩

/-- A run of `MergedMapTestBench` with ten maps is not listed. -/
theorem listExperiments_ten :
    (({ numberOfMaps := 10, readersPerMap := 2, writeRate := 100, benchmarkWrites := 500 } :
      MergedMapTestBench).suggestedTestTag = "MMTB-10w2c100ups1000ts500x") ∧
    get? (listExperiments ["MMTB-10w2c100ups1000ts500x"] (fun _ => true) :
      AssocMap String Experiment) "MMTB-10w2c100ups1000ts500x" = none := by
  decide

end ExperimentReader
