import StateTableBench.DataAnalysis.TimeSeries
import StateTableBench.LatencyNodes.MultiMapResults

/-!
# Raw latencies

The readers write their latencies to a file with a header and one number in each line, and
`processDataFile` reads it. It skips the header and divides by 1000; a line that is not a number
makes the whole file empty.

`sameSamples_iff`: the file of a `MultiMapReaderNode` and the array that its statistics are made of
have the same latencies, as long as their number is the value of an `int`. The file has them in the
order of the columns.
-/

open Binary64 Text.Numerals LatencyNodes

namespace ExperimentReader

section Division

variable {α : Type} (divided : ℤ → Except PythonException α)

/-- A line of a data file, with the division of its number. -/
def dividedLine (x : String) : Except PythonException α :=
  match int x with
  | none => .error .valueError
  | some z => divided z

/-- `processDataFile`, with this division. -/
def processDataFileWith (content : List String) : Except PythonException (List α) :=
  -- other exceptions than a `ValueError` are not caught
  match (content.drop 1).mapM (dividedLine divided) with
  | .error .valueError => .ok []
  | result => result

/-- The division of doubles. -/
def roundedDivision (z : ℤ) : Except PythonException Float :=
  if (ofInt z).isFinite then .ok (ofInt z / 1000.0) else .error .overflowError

/-- The division of numbers. -/
def exactDivision (z : ℤ) : Except PythonException ℚ := .ok (z / 1000)

theorem processDataFile_eq (content : List String) :
    processDataFile content = processDataFileWith roundedDivision content := by
  have hline : dividedInt = dividedLine roundedDivision := rfl
  -- the exceptions are handled in the same way
  rw [processDataFile, processDataFileWith, hline]
  rcases (content.drop 1).mapM (dividedLine roundedDivision) with (_ | _) | _ <;> rfl

/-- Numbers that have been printed are all read. -/
theorem processDataFileWith_printed (divide : ℤ → α) {values : List Int64} (header : String)
    (hdivided : ∀ value ∈ values, divided value.toInt = .ok (divide value.toInt)) :
    processDataFileWith divided (header :: values.map fun value => value.toInt.repr) =
      .ok (values.map fun value => divide value.toInt) := by
  have hlines : (values.map fun value => value.toInt.repr).mapM (dividedLine divided) =
      .ok (values.map fun value => divide value.toInt) := by
    induction values with
    | nil => rfl
    | cons value values ih =>
      have hline : dividedLine divided value.toInt.repr = .ok (divide value.toInt) := by
        simp only [dividedLine, int_repr, hdivided value List.mem_cons_self]
      rw [List.map_cons, List.mapM_cons, hline,
        ih fun v hv => hdivided v (List.mem_cons_of_mem value hv)]
      rfl
  rw [processDataFileWith, List.drop_succ_cons, List.drop_zero, hlines]

end Division

/-- What is read of the latencies that have been printed. -/
theorem processDataFile_printed (values : List Int64) (header : String) :
    processDataFileWith exactDivision (header :: values.map fun value => value.toInt.repr) =
        .ok (values.map fun value => (value.toInt / 1000 : ℚ)) ∧
      processDataFile (header :: values.map fun value => value.toInt.repr) =
        .ok (values.map fun value => ofInt value.toInt / 1000.0) := by
  refine ⟨processDataFileWith_printed exactDivision (fun z => (z / 1000 : ℚ)) header
    fun value _ => rfl, ?_⟩
  rw [processDataFile_eq]
  refine processDataFileWith_printed roundedDivision (fun z => ofInt z / 1000.0) header ?_
  intro value _
  -- a number of 64 bits is never too large for a double
  rw [roundedDivision, if_pos (StatUtils.within_doubleValue value).isFinite]

/-! ## The file of a reader -/

/-- The latencies of a `ReaderNode` are what is read of its file, in order. -/
def ReadsBack (form : OneDecForm) (header : String → String) (node : ReaderNode)
    (directory : Directory) : Prop :=
  ∃ (content : List String) (values : List Int64),
    (exec (node.postProcessResults form header) directory).2 "raw-latency-data" = some content ∧
    node.receivedLatencies = values.map some ∧ values.length = node.totalRead ∧
    processDataFileWith exactDivision content =
      .ok (values.map fun value => (value.toInt / 1000 : ℚ))

theorem readsBack (form : OneDecForm) (header : String → String) (node : ReaderNode)
    (directory : Directory) : ReadsBack form header node directory := by
  obtain ⟨values, hvalues, hlength⟩ := node.exists_receivedLatencies
  refine ⟨header "raw-latency-data" :: node.latencyLines, values, ?_, hvalues, hlength, ?_⟩
  · exact node.exec_postProcessResults_rawLatencyData form header directory
  · rw [ReaderNode.latencyLines, hvalues, List.map_map]
    exact (processDataFile_printed values _).1

/-! ## The file of a reader of several maps -/

/-- The array and the file have the latencies of the table: the cells of the array are assigned
once, and the file is read back column by column. -/
def SameSamples (form : OneDecForm) (header : String → String) (node : Recorded)
    (directory : Directory) : Prop :=
  let m := node.latencies.length
  let b := node.benchmarkWrites.toInt.toNat
  let outcome := node.postProcessResults form header directory
  (outcome.copied.assigned.map Int32.toInt).Perm ((List.range (m * b)).map Int.ofNat) ∧
    outcome.copied.superLatencies.Perm (node.latencies.flatten.map some) ∧
    ∃ content values, outcome.directory "raw-latency-data" = some content ∧
      processDataFileWith exactDivision content = .ok values ∧ values.length = m * b ∧
      ∀ i < m, ∀ j < b, ∃ row latency, node.latencies[i]? = some row ∧ row[j]? = some latency ∧
        values[j * m + i]? = some (latency.toInt / 1000 : ℚ)

section

variable {form : OneDecForm} {header : String → String} {node : Recorded} {directory : Directory}

theorem sameSamples_of_lt
    (h : node.latencies.length * node.benchmarkWrites.toInt.toNat < 2 ^ 31) :
    SameSamples form header node directory := by
  obtain ⟨hcopied, hfile⟩ := Recorded.exists_copied h form header directory
  refine ⟨hcopied.assigned_perm, by rw [hcopied.superLatencies_eq], _, _, hfile,
    by rw [hcopied.rawData_eq]; exact (processDataFile_printed _ _).1, ?_, fun i hi j hj => ?_⟩
  -- as many values as there are cells in the columns
  · rw [List.length_map, Blocks.length_flatten fun column => Recorded.length_of_mem_columns,
      node.length_columns, Nat.mul_comm]
    rfl
  -- line `j * m + i` of the file is that of row `i` in column `j`
  · obtain ⟨row, hrow, hlatency⟩ := Recorded.getElem?_latency hi hj
    refine ⟨row, _, hrow, hlatency, ?_⟩
    rw [List.getElem?_map, Recorded.getElem?_columns hi hj]
    rfl

/-- The array cannot have more cells. -/
theorem lt_of_sameSamples (h : SameSamples form header node directory) :
    node.latencies.length * node.benchmarkWrites.toInt.toNat < 2 ^ 31 := by
  obtain ⟨-, hperm, -⟩ := h
  -- a permutation of the table has as many cells as the table
  have hlength := hperm.length_eq
  rw [List.length_map, Blocks.length_flatten node.length_row] at hlength
  exact hlength ▸ node.length_superLatencies_lt form header directory

end

/-- The samples of the raw data and of the summary are the latencies: for a reader of several maps
if their number is the value of an `int`, and for a reader of one map always. -/
theorem sameSamples_iff (form : OneDecForm) (header : String → String) (directory : Directory) :
    (∀ node : Recorded, SameSamples form header node directory ↔
      node.latencies.length * node.benchmarkWrites.toInt.toNat < 2 ^ 31) ∧
    ∀ node : ReaderNode, ReadsBack form header node directory :=
  ⟨fun _ => ⟨lt_of_sameSamples, sameSamples_of_lt⟩,
    fun node => readsBack form header node directory⟩

/-- Two maps with `2 ^ 30` latencies each. -/
def largeTable : Recorded where
  startWarmupTime := 0
  endWarmupTime := 0
  startBenchmark := 0
  endBenchmark := 0
  benchmarkWrites := 2 ^ 30
  latencies := List.replicate 2 (List.replicate (2 ^ 30) 0)
  benchmarkWrites_nonneg := by decide
  length_latencies := by rw [List.length_replicate]; decide
  length_row := by
    intro row hrow
    rw [List.eq_of_mem_replicate hrow, List.length_replicate]
    decide

/-- The size of the array would be `-2 ^ 31`. -/
theorem not_sameSamples_largeTable :
    ¬SameSamples ReaderNode.exactForm (fun _ => "HOST") largeTable fun _ => none := by
  intro h
  have hlt := lt_of_sameSamples h
  rw [largeTable, List.length_replicate] at hlt
  exact absurd hlt (by decide)

end ExperimentReader
