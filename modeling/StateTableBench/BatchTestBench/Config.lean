import StateTableBench.Arithmetic.Int32
import StateTableBench.Text.Split

/-!
# The configuration of a batch

A batch configuration holds the configurations of its runs, and default values for each bench.
The benches start from the values of their fields and are updated twice, with the defaults and
with the section of the run (`BatchTestBench.java`). `effective` is the configuration that a run
really uses.

`suggestedTestTag` is the name of the directory for the results.
-/

namespace BatchTestBench

/-- Why a value of a configuration cannot be read. -/
inductive ConfigException
  | missing
  | wrongType
deriving DecidableEq

/-- A `Config` of the library: values at paths. The conversions of the library are left open, but
reading at a path without a value throws. -/
structure Config where
  hasPath : String → Bool
  getInt : String → Except ConfigException Int32
  getString : String → Except ConfigException String
  /-- The value at the path is itself a configuration. -/
  isObject : String → Bool
  getInt_missing : ∀ path, hasPath path = false → getInt path = .error .missing
  getString_missing : ∀ path, hasPath path = false → getString path = .error .missing
  isObject_missing : ∀ path, hasPath path = false → isObject path = false

namespace Config

variable (config : Config)

/-- `getConfig`: the paths of a nested configuration are continued with a dot. -/
def getConfig (path : String) : Except ConfigException Config :=
  if config.isObject path then
    .ok {
      hasPath := fun p => config.hasPath (path ++ "." ++ p)
      getInt := fun p => config.getInt (path ++ "." ++ p)
      getString := fun p => config.getString (path ++ "." ++ p)
      isObject := fun p => config.isObject (path ++ "." ++ p)
      getInt_missing := fun p => config.getInt_missing (path ++ "." ++ p)
      getString_missing := fun p => config.getString_missing (path ++ "." ++ p)
      isObject_missing := fun p => config.isObject_missing (path ++ "." ++ p)
    }
  else if config.hasPath path then .error .wrongType
  else .error .missing

/-- `if (config.hasPath(path)) field = config.getInt(path)`. -/
def updateInt (path : String) (field : Int32) : Except ConfigException Int32 :=
  if config.hasPath path then config.getInt path else .ok field

/-- `if (config.hasPath(path)) field = config.getString(path)`. -/
def updateString (path : String) (field : Option String) :
    Except ConfigException (Option String) :=
  if config.hasPath path then some <$> config.getString path else .ok field

/-- A configuration with the given values. -/
def ofValues (ints : List (String × Int32)) (texts : List (String × String))
    (objects : List String) : Config where
  hasPath path := (ints.lookup path).isSome || (texts.lookup path).isSome || objects.contains path
  getInt path :=
    match ints.lookup path with
    | some n => .ok n
    | none => .error (if (texts.lookup path).isSome || objects.contains path then .wrongType
        else .missing)
  getString path :=
    match texts.lookup path with
    | some text => .ok text
    | none => .error (if (ints.lookup path).isSome || objects.contains path then .wrongType
        else .missing)
  isObject path := objects.contains path
  getInt_missing path h := by
    simp only [Bool.or_eq_false_iff, Option.isSome_eq_false_iff, Option.isNone_iff_eq_none] at h
    simp only [h.1.1, h.1.2, h.2]
    rfl
  getString_missing path h := by
    simp only [Bool.or_eq_false_iff, Option.isSome_eq_false_iff, Option.isNone_iff_eq_none] at h
    simp only [h.1.1, h.1.2, h.2]
    rfl
  isObject_missing path h := by
    simp only [Bool.or_eq_false_iff] at h
    exact h.2

end Config

/-! ### `MergedMapTestBench` -/

/-- The parameters of `MergedMapTestBench`, with the initial values of the fields. -/
structure MergedMapTestBench where
  numberOfMaps : Int32 := 0
  writeRate : Int32 := 0
  writeInterval : Int32 := 0
  warmupWrites : Int32 := 0
  benchmarkWrites : Int32 := 0
  readersPerMap : Int32 := 0
  tableSize : Int32 := 1000
  /-- `none` models `null`. -/
  mapBaseName : Option String := none
deriving DecidableEq

namespace MergedMapTestBench

/-- `updateConfigurationWithConfig`. -/
def updateConfigurationWithConfig (bench : MergedMapTestBench) (config : Config) :
    Except ConfigException MergedMapTestBench := do
  let numberOfMaps ← config.updateInt "numberOfMaps" bench.numberOfMaps
  let writeRate ← config.updateInt "writeRate" bench.writeRate
  let writeInterval ←
    if config.hasPath "writeInterval" then (· * 1000) <$> config.getInt "writeInterval"
    else .ok bench.writeInterval
  let warmupWrites ← config.updateInt "numberOfWarmupWrites" bench.warmupWrites
  let benchmarkWrites ← config.updateInt "benchMarkWrites" bench.benchmarkWrites
  let readersPerMap ← config.updateInt "readersPerMap" bench.readersPerMap
  let mapBaseName ← config.updateString "mapName" bench.mapBaseName
  let tableSize ← config.updateInt "tableSize" bench.tableSize
  return ⟨numberOfMaps, writeRate, writeInterval, warmupWrites, benchmarkWrites, readersPerMap,
    tableSize, mapBaseName⟩

/-- `suggestedTestTag`. -/
def suggestedTestTag (bench : MergedMapTestBench) : String :=
  "MMTB-" ++
    bench.numberOfMaps.toInt.repr ++ "w" ++
    bench.readersPerMap.toInt.repr ++ "c" ++
    bench.writeRate.toInt.repr ++ "ups" ++
    bench.tableSize.toInt.repr ++ "ts" ++
    bench.benchmarkWrites.toInt.repr ++ "x"

/-- The tag from left to right. -/
theorem suggestedTestTag_eq (bench : MergedMapTestBench) :
    bench.suggestedTestTag = "MMTB-" ++ (bench.numberOfMaps.toInt.repr ++ ("w" ++
      (bench.readersPerMap.toInt.repr ++ ("c" ++ (bench.writeRate.toInt.repr ++ ("ups" ++
      (bench.tableSize.toInt.repr ++ ("ts" ++
      (bench.benchmarkWrites.toInt.repr ++ "x"))))))))) := by
  simp only [← String.append_assoc]
  rfl

end MergedMapTestBench

/-! ### `MultiMergedMapTestBench` -/

/-- The parameters of `MultiMergedMapTestBench`, with the initial values of the fields. -/
structure MultiMergedMapTestBench where
  numberOfMaps : Int32 := 0
  writeRatePerMap : Int32 := 0
  maxNumberOfMapsPerWriter : Int32 := 0
  maxNumberOfMapsPerReader : Int32 := 0
  benchmarkWrites : Int32 := 0
  warmupWrites : Int32 := 0
  tableSize : Int32 := 1000
  /-- `none` models `null`. -/
  mapBaseName : Option String := none
deriving DecidableEq

namespace MultiMergedMapTestBench

/-- `updateConfigurationWithConfig`. -/
def updateConfigurationWithConfig (bench : MultiMergedMapTestBench) (config : Config) :
    Except ConfigException MultiMergedMapTestBench := do
  let numberOfMaps ← config.updateInt "numberOfMaps" bench.numberOfMaps
  let writeRatePerMap ← config.updateInt "writeRatePerMap" bench.writeRatePerMap
  let maxNumberOfMapsPerReader ←
    config.updateInt "maxNumberOfMapsPerReader" bench.maxNumberOfMapsPerReader
  let maxNumberOfMapsPerWriter ←
    config.updateInt "maxNumberOfMapsPerWriter" bench.maxNumberOfMapsPerWriter
  let benchmarkWrites ← config.updateInt "benchMarkWrites" bench.benchmarkWrites
  let warmupWrites ← config.updateInt "warmupWrites" bench.warmupWrites
  let mapBaseName ← config.updateString "mapName" bench.mapBaseName
  let tableSize ← config.updateInt "tableSize" bench.tableSize
  return ⟨numberOfMaps, writeRatePerMap, maxNumberOfMapsPerWriter, maxNumberOfMapsPerReader,
    benchmarkWrites, warmupWrites, tableSize, mapBaseName⟩

/-- `suggestedTestTag`. -/
def suggestedTestTag (bench : MultiMergedMapTestBench) : String :=
  "MultiMMTB-" ++
    bench.maxNumberOfMapsPerWriter.toInt.repr ++ "mpw" ++
    bench.maxNumberOfMapsPerReader.toInt.repr ++ "mpr" ++
    bench.numberOfMaps.toInt.repr ++ "maps" ++
    bench.writeRatePerMap.toInt.repr ++ "ups" ++
    bench.tableSize.toInt.repr ++ "ts" ++
    bench.benchmarkWrites.toInt.repr ++ "x"

/-- The tag from left to right. -/
theorem suggestedTestTag_eq (bench : MultiMergedMapTestBench) :
    bench.suggestedTestTag = "MultiMMTB-" ++ (bench.maxNumberOfMapsPerWriter.toInt.repr ++ ("mpw" ++
      (bench.maxNumberOfMapsPerReader.toInt.repr ++ ("mpr" ++ (bench.numberOfMaps.toInt.repr ++
      ("maps" ++ (bench.writeRatePerMap.toInt.repr ++ ("ups" ++ (bench.tableSize.toInt.repr ++
      ("ts" ++ (bench.benchmarkWrites.toInt.repr ++ "x"))))))))))) := by
  simp only [← String.append_assoc]
  rfl

end MultiMergedMapTestBench

/-! ### Both benches -/

/-- A bench with its parameters. -/
inductive Bench
  | mergedMap (bench : MergedMapTestBench)
  | multiMergedMap (bench : MultiMergedMapTestBench)
deriving DecidableEq

/-- `suggestedTestTag`. -/
def Bench.suggestedTestTag : Bench → String
  | .mergedMap bench => bench.suggestedTestTag
  | .multiMergedMap bench => bench.suggestedTestTag

/-- The bench of a run with its effective configuration: `run`, `runMergedMapTestBench` and
`runMultiMergedMapTestBench` up to the start of the bench. There is none if the type of the bench is
unknown. -/
def effective (batchConfiguration currentRunConfiguration : Config) :
    Except ConfigException (Option Bench) := do
  let benchmarkType ← currentRunConfiguration.getString "bench"
  if benchmarkType = "MergedMapTestBench" then
    let defaults ← batchConfiguration.getConfig "defaultConfig.MergedMapTestBench"
    let testBench ← MergedMapTestBench.updateConfigurationWithConfig {} defaults
    let runConfig ← currentRunConfiguration.getConfig "MergedMapTestBench"
    let testBench ← testBench.updateConfigurationWithConfig runConfig
    return some (.mergedMap testBench)
  else if benchmarkType = "MultiMergedMapTestBench" then
    let defaults ← batchConfiguration.getConfig "defaultConfig.MultiMergedMapTestBench"
    let testBench ← MultiMergedMapTestBench.updateConfigurationWithConfig {} defaults
    let runConfig ← currentRunConfiguration.getConfig "MultiMergedMapTestBench"
    let testBench ← testBench.updateConfigurationWithConfig runConfig
    return some (.multiMergedMap testBench)
  else return none

end BatchTestBench
