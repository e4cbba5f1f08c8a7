import StateTableBench.BatchTestBench.Config

/-!
# Where the results of a run are stored

Each rank stores the results of a run in files of its own, under a path made of the base path of
the batch, the tag of the bench, the host name with the rank and the name of the log
(`Bookkeeper.java`). Existing files are overwritten.

The tag contains some parameters of the bench only. `pathToLog_eq_iff` says which runs and ranks are
kept apart: the ones that differ in the bench, in a parameter that is part of the tag, or in the
rank.
-/

open Text

namespace BatchTestBench

/-- `Bookkeeper`. -/
structure Bookkeeper where
  basePath : String
  hostname : String
  tag : String

/-- `getPathToExperiment`. -/
def Bookkeeper.getPathToExperiment (bookkeeper : Bookkeeper) : String :=
  bookkeeper.basePath ++ "/" ++ bookkeeper.tag

/-- `getPathToLog`. -/
def Bookkeeper.getPathToLog (bookkeeper : Bookkeeper) (name : String) : String :=
  bookkeeper.getPathToExperiment ++ "/" ++ bookkeeper.hostname ++ "/" ++ name

/-- The `Bookkeeper` that `runTestBench` creates. -/
def bookkeeper (basePath mpiHostName : String) (mpiRank : ℕ) (testBench : Bench) : Bookkeeper where
  basePath
  hostname := mpiHostName ++ "-" ++ mpiRank.repr
  tag := testBench.suggestedTestTag

/-- The path of a log of a run on rank `mpiRank`; there is none if the type of the bench is
unknown. -/
def pathToLog (batchConfiguration currentRunConfiguration : Config) (mpiHostName : String)
    (mpiRank : ℕ) (name : String) : Except ConfigException (Option String) := do
  match ← effective batchConfiguration currentRunConfiguration with
  | some testBench =>
    let basePath ← batchConfiguration.getString "Bookkeeper.basePath"
    return some ((bookkeeper basePath mpiHostName mpiRank testBench).getPathToLog name)
  | none => return none

/-! ## Tags -/

/-- The benches agree in the parameters that are part of the tag. -/
def TagEq : Bench → Bench → Prop
  | .mergedMap b, .mergedMap b' => b.numberOfMaps = b'.numberOfMaps ∧
      b.readersPerMap = b'.readersPerMap ∧ b.writeRate = b'.writeRate ∧
      b.tableSize = b'.tableSize ∧ b.benchmarkWrites = b'.benchmarkWrites
  | .multiMergedMap b, .multiMergedMap b' =>
      b.maxNumberOfMapsPerWriter = b'.maxNumberOfMapsPerWriter ∧
      b.maxNumberOfMapsPerReader = b'.maxNumberOfMapsPerReader ∧
      b.numberOfMaps = b'.numberOfMaps ∧ b.writeRatePerMap = b'.writeRatePerMap ∧
      b.tableSize = b'.tableSize ∧ b.benchmarkWrites = b'.benchmarkWrites
  | _, _ => False

theorem int_repr_append_inj {text : String} {i j : ℤ} :
    i.repr ++ text = j.repr ++ text ↔ i = j := by
  rw [String.append_left_inj]
  exact ⟨fun h => Int.repr_injective h, fun h => by rw [h]⟩

/-- Two benches have one tag exactly if the parameters in it agree. -/
theorem suggestedTestTag_inj (bench bench' : Bench) :
    bench.suggestedTestTag = bench'.suggestedTestTag ↔ TagEq bench bench' := by
  cases bench with
  | mergedMap b =>
    cases bench' with
    | mergedMap b' =>
      -- a number ends where the letters begin, so the tag is read from left to right
      rw [Bench.suggestedTestTag, Bench.suggestedTestTag, MergedMapTestBench.suggestedTestTag_eq,
        MergedMapTestBench.suggestedTestTag_eq, String.append_right_inj,
        repr_append_inj rfl (by decide) (by decide), repr_append_inj rfl (by decide) (by decide),
        repr_append_inj rfl (by decide) (by decide), repr_append_inj rfl (by decide) (by decide),
        int_repr_append_inj]
      simp only [Int32.toInt_inj, TagEq]
    | multiMergedMap b' =>
      refine ⟨fun h => ?_, False.elim⟩
      rw [Bench.suggestedTestTag, Bench.suggestedTestTag, MergedMapTestBench.suggestedTestTag_eq,
        MultiMergedMapTestBench.suggestedTestTag_eq, ← String.toList_inj, String.toList_append,
        String.toList_append] at h
      -- the tags differ in the second letter
      simp at h
  | multiMergedMap b =>
    cases bench' with
    | mergedMap b' =>
      refine ⟨fun h => ?_, False.elim⟩
      rw [Bench.suggestedTestTag, Bench.suggestedTestTag, MergedMapTestBench.suggestedTestTag_eq,
        MultiMergedMapTestBench.suggestedTestTag_eq, ← String.toList_inj, String.toList_append,
        String.toList_append] at h
      simp at h
    | multiMergedMap b' =>
      rw [Bench.suggestedTestTag, Bench.suggestedTestTag,
        MultiMergedMapTestBench.suggestedTestTag_eq, MultiMergedMapTestBench.suggestedTestTag_eq,
        String.append_right_inj, repr_append_inj rfl (by decide) (by decide),
        repr_append_inj rfl (by decide) (by decide), repr_append_inj rfl (by decide) (by decide),
        repr_append_inj rfl (by decide) (by decide), repr_append_inj rfl (by decide) (by decide),
        int_repr_append_inj]
      simp only [Int32.toInt_inj, TagEq]

/-- The tag is one component of a path. -/
theorem slash_not_mem_suggestedTestTag (bench : Bench) : '/' ∉ bench.suggestedTestTag.toList := by
  have hint : ∀ z : ℤ, '/' ∉ z.repr.toList := not_mem_int_repr (by decide) (by decide)
  cases bench with
  | mergedMap b =>
    rw [Bench.suggestedTestTag, MergedMapTestBench.suggestedTestTag_eq]
    simp [hint]
  | multiMergedMap b =>
    rw [Bench.suggestedTestTag, MultiMergedMapTestBench.suggestedTestTag_eq]
    simp [hint]

/-! ## Paths -/

section Paths

variable {basePath host host' name name' : String} {r r' : ℕ} {bench bench' : Bench}

/-- So is the host's directory. -/
theorem slash_not_mem_hostname (hhost : '/' ∉ host.toList) (r : ℕ) :
    '/' ∉ (host ++ "-" ++ r.repr).toList := by
  have hrepr := @not_mem_repr '/' (by decide) r
  simp only [String.toList_append, List.mem_append, hhost, hrepr]
  decide

/-- Two logs have one path exactly if tag, host, rank and name agree. -/
theorem getPathToLog_eq_iff (hhost : '/' ∉ host.toList) (hhost' : '/' ∉ host'.toList) :
    (bookkeeper basePath host r bench).getPathToLog name =
        (bookkeeper basePath host' r' bench').getPathToLog name' ↔
      TagEq bench bench' ∧ host = host' ∧ r = r' ∧ name = name' := by
  -- neither the tag nor the name of the host contains a slash
  have hsplit : ∀ (b : Bench) (h : String) (k : ℕ) (l : String),
      (bookkeeper basePath h k b).getPathToLog l = basePath ++ ("/" ++ (b.suggestedTestTag ++
        String.singleton '/' ++ ((h ++ "-" ++ k.repr) ++ String.singleton '/' ++ l))) := by
    intro b h k l
    show basePath ++ "/" ++ b.suggestedTestTag ++ "/" ++ (h ++ "-" ++ k.repr) ++ "/" ++ l = _
    simp only [String.append_assoc]
    rfl
  rw [hsplit, hsplit, String.append_right_inj, String.append_right_inj,
    append_sep_inj (slash_not_mem_suggestedTestTag bench) (slash_not_mem_suggestedTestTag bench'),
    append_sep_inj (slash_not_mem_hostname hhost r) (slash_not_mem_hostname hhost' r'),
    suggestedTestTag_inj]
  -- the host name may contain dashes, but the rank does not
  have hrank : host ++ "-" ++ r.repr = host' ++ "-" ++ r'.repr ↔ host = host' ∧ r = r' := by
    have hfree : ∀ k : ℕ, '-' ∉ k.repr.toList := not_mem_repr (by decide)
    refine (append_sep_inj_right (hfree r) (hfree r')).trans (and_congr_right fun _ => ?_)
    exact ⟨fun h => Nat.repr_injective h, fun h => by rw [h]⟩
  rw [hrank, and_assoc]

theorem pathToLog_eq {batchConfiguration run : Config}
    (hrun : effective batchConfiguration run = .ok (some bench)) {path : String}
    (hpath : pathToLog batchConfiguration run host r name = .ok (some path)) :
    ∃ basePath, batchConfiguration.getString "Bookkeeper.basePath" = .ok basePath ∧
      path = (bookkeeper basePath host r bench).getPathToLog name := by
  unfold pathToLog at hpath
  rw [hrun] at hpath
  cases hbase : batchConfiguration.getString "Bookkeeper.basePath" with
  | error exception =>
    simp only [hbase, bind, Except.bind] at hpath
    cases hpath
  | ok basePath =>
    simp only [hbase, bind, Except.bind, pure, Except.pure] at hpath
    exact ⟨basePath, rfl, (Option.some.inj (Except.ok.inj hpath)).symm⟩

end Paths

/-- Two logs have the same path exactly if the runs use the same bench with the same values of all
parameters that are part of the tag, and host name, rank and the name of the log are the same. -/
theorem pathToLog_eq_iff (batchConfiguration run run' : Config) {bench bench' : Bench}
    (hrun : effective batchConfiguration run = .ok (some bench))
    (hrun' : effective batchConfiguration run' = .ok (some bench'))
    {host host' : String} (hhost : '/' ∉ host.toList) (hhost' : '/' ∉ host'.toList) {r r' : ℕ}
    {name name' path path' : String}
    (hpath : pathToLog batchConfiguration run host r name = .ok (some path))
    (hpath' : pathToLog batchConfiguration run' host' r' name' = .ok (some path')) :
    path = path' ↔ TagEq bench bench' ∧ host = host' ∧ r = r' ∧ name = name' := by
  obtain ⟨basePath, hbase, rfl⟩ := pathToLog_eq hrun hpath
  obtain ⟨basePath', hbase', rfl⟩ := pathToLog_eq hrun' hpath'
  obtain rfl : basePath = basePath' := Except.ok.inj (hbase.symm.trans hbase')
  exact getPathToLog_eq_iff hhost hhost'

/-- A batch configuration with defaults for one map and one reader. -/
def exampleBatch : Config :=
  .ofValues [("defaultConfig.MergedMapTestBench.numberOfMaps", 1),
      ("defaultConfig.MergedMapTestBench.readersPerMap", 1)]
    [("Bookkeeper.basePath", "results")] ["defaultConfig.MergedMapTestBench"]

/-- A run that sets one parameter. -/
def exampleRun (parameter : String) (value : Int32) : Config :=
  .ofValues [("MergedMapTestBench." ++ parameter, value)] [("bench", "MergedMapTestBench")]
    ["MergedMapTestBench"]

/-- Two runs with different write rates. -/
theorem pathToLog_eq_iff_writeRate :
    pathToLog exampleBatch (exampleRun "writeRate" 100) "host-1" 2 "summary" =
      .ok (some "results/MMTB-1w1c100ups1000ts0x/host-1-2/summary") ∧
    ("results/MMTB-1w1c100ups1000ts0x/host-1-2/summary" =
        "results/MMTB-1w1c200ups1000ts0x/host-1-2/summary" ↔
      TagEq (.mergedMap { numberOfMaps := 1, readersPerMap := 1, writeRate := 100 })
        (.mergedMap { numberOfMaps := 1, readersPerMap := 1, writeRate := 200 }) ∧
      "host-1" = "host-1" ∧ 2 = 2 ∧ "summary" = "summary") :=
  ⟨by decide, pathToLog_eq_iff exampleBatch (exampleRun "writeRate" 100)
    (exampleRun "writeRate" 200) (by decide) (by decide) (by decide) (by decide) (by decide)
    (by decide)⟩

/-- Two runs that differ in the number of warmup writes only, and write to the same files. -/
theorem pathToLog_warmupWrites :
    effective exampleBatch (exampleRun "numberOfWarmupWrites" 0) ≠
      effective exampleBatch (exampleRun "numberOfWarmupWrites" 500) ∧
    pathToLog exampleBatch (exampleRun "numberOfWarmupWrites" 0) "host" 0 "summary" =
      .ok (some "results/MMTB-1w1c0ups1000ts0x/host-0/summary") ∧
    pathToLog exampleBatch (exampleRun "numberOfWarmupWrites" 500) "host" 0 "summary" =
      .ok (some "results/MMTB-1w1c0ups1000ts0x/host-0/summary") := by
  decide

end BatchTestBench
