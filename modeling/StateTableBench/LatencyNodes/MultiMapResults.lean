import StateTableBench.LatencyNodes.ReaderResults
import StateTableBench.Mpi.Arrays
import StateTableBench.Transition.Run

/-!
# The results of a reader of several maps

A `MultiMapReaderNode` has a row of latencies for each of its maps. `postProcessResults` goes
through this table column by column. It writes the latencies to a file, and it copies them to an
array for the statistics, which is filled row by row.

`copyAll_eq_ok`: if the array has a cell for each latency, then the loops copy everything. Each cell
of the array is assigned once.
-/

namespace LatencyNodes

/-- The fields of `TimestampedNode`. -/
structure TimestampedNode where
  startWarmupTime : Int64
  endWarmupTime : Int64
  startBenchmark : Int64
  endBenchmark : Int64

/-- `TimestampedNode.postProcessResults` -/
def TimestampedNode.postProcessResults (node : TimestampedNode) (header : String → String) :
    List Statement :=
  writeFile header "timestamps"
    [ "startwarmup=" ++ node.startWarmupTime.toInt.repr,
      "endwarmup=" ++ node.endWarmupTime.toInt.repr,
      "startbenchmark=" ++ node.startBenchmark.toInt.repr,
      "endbenchmark=" ++ node.endBenchmark.toInt.repr ]

/-- What a `MultiMapReaderNode` has recorded. -/
structure Recorded extends TimestampedNode where
  benchmarkWrites : Int32
  latencies : List (List Int64)
  benchmarkWrites_nonneg : 0 ≤ benchmarkWrites
  length_latencies : latencies.length < 2 ^ 31
  length_row : ∀ row ∈ latencies, row.length = benchmarkWrites.toInt.toNat

namespace Recorded

/-- What the loops write to. -/
structure Copying where
  /-- The lines of the file, after the header. -/
  rawData : List String
  superLatencies : List (Option Int64)
  /-- The indices that have been assigned, in this order. -/
  assigned : List Int32

variable (node : Recorded)

/-- The body of the inner loop. If it throws, then what has been written is kept. -/
def copy (j : Int32) (s : Copying) (i : Int32) : Except (Mpi.Exn × Copying) Copying :=
  match Mpi.read node.latencies i >>= fun row => Mpi.read row j with
  | .error e => .error (e, s)
  | .ok latency =>
    -- the line is printed before the array is assigned
    let s := { s with rawData := s.rawData ++ [latency.toInt.repr] }
    let index := i * node.benchmarkWrites + j
    match Mpi.write s.superLatencies index (some latency) with
    | .error e => .error (e, s)
    | .ok superLatencies =>
      .ok { s with superLatencies := superLatencies, assigned := s.assigned ++ [index] }

/-- Both loops. -/
def copyAll (s : Copying) : Except (Mpi.Exn × Copying) Copying :=
  (intRange node.benchmarkWrites).foldlM (fun s j =>
    (intRange (Mpi.length node.latencies)).foldlM (node.copy j) s) s

/-- What `postProcessResults` leaves. -/
structure Outcome where
  /-- The exception that ends it early. -/
  exception : Option (Mpi.Exn ⊕ JavaException)
  copied : Copying
  directory : Directory

/-- `MultiMapReaderNode.postProcessResults` -/
def postProcessResults (form : OneDecForm) (header : String → String) (directory : Directory) :
    Outcome :=
  let directory := (exec (node.toTimestampedNode.postProcessResults header) directory).2
  let size := node.benchmarkWrites * Mpi.length node.latencies
  -- the array is allocated before the file of the latencies is opened
  match Mpi.newArray size (none : Option Int64) with
  | .error e => ⟨some (.inl e), ⟨[], [], []⟩, directory⟩
  | .ok superLatencies =>
    match node.copyAll ⟨[], superLatencies, []⟩ with
    | .error (e, s) =>
      -- what has been printed stays in the file, and there is no summary
      ⟨some (.inl e), s, (exec (writeFile header "raw-latency-data" s.rawData) directory).2⟩
    | .ok s =>
      let (exception, directory) := exec (writeFile header "raw-latency-data" s.rawData ++
        (.getFileWriter "summary" (header "summary") ::
          (ReaderNode.summary form s.superLatencies).map (.println "summary"))) directory
      ⟨exception.map .inr, s, directory⟩

/-! ## The loops -/

section Loops

variable {node : Recorded}

variable (node) in
/-- The number of latencies of a map. -/
def writes : ℕ := node.benchmarkWrites.toInt.toNat

variable (node) in
/-- `latencies[i][j]` -/
def latency (i j : ℕ) : Int64 := (node.latencies.getD i []).getD j 0

theorem toInt_benchmarkWrites (node : Recorded) : node.benchmarkWrites.toInt = node.writes :=
  (Int.toNat_of_nonneg (Int32.le_iff_toInt_le.mp node.benchmarkWrites_nonneg)).symm

theorem getElem?_latency {i j : ℕ} (hi : i < node.latencies.length) (hj : j < node.writes) :
    ∃ row, node.latencies[i]? = some row ∧ row[j]? = some (node.latency i j) := by
  have hrow : node.latencies[i].length = node.writes := node.length_row _ (List.getElem_mem hi)
  refine ⟨node.latencies[i], List.getElem?_eq_getElem hi, ?_⟩
  rw [latency, List.getD_eq_getElem _ _ hi, List.getD_eq_getElem _ _ (by omega)]
  exact List.getElem?_eq_getElem _

variable (node) in
/-- The places of the table in the order of the loops, up to row `i` of column `j`. -/
def places (j i : ℕ) : List (ℕ × ℕ) :=
  ((List.range j).flatMap fun j => (List.range node.latencies.length).map fun i => (i, j)) ++
    (List.range i).map fun i => (i, j)

/-- The state of the loops when they get to row `i` of column `j`. -/
structure Copied (node : Recorded) (j i : ℕ) (s : Copying) : Prop where
  rawData : s.rawData = (node.places j i).map fun p => (node.latency p.1 p.2).toInt.repr
  assigned : s.assigned.map Int32.toInt =
    (node.places j i).map fun p => ((p.1 * node.writes + p.2 : ℕ) : ℤ)
  length : s.superLatencies.length = node.latencies.length * node.writes
  superLatencies : ∀ p ∈ node.places j i,
    s.superLatencies[p.1 * node.writes + p.2]? = some (some (node.latency p.1 p.2))

/-- The next place of a column is the one below. -/
theorem places_succ (j i : ℕ) : node.places j (i + 1) = node.places j i ++ [(i, j)] := by
  rw [places, places, List.range_succ, List.map_append, List.append_assoc]
  rfl

/-- After the last map the next column begins. -/
theorem places_column (j : ℕ) : node.places j node.latencies.length = node.places (j + 1) 0 := by
  rw [places, places, List.range_succ, List.flatMap_append, List.flatMap_singleton]
  simp

/-- No place lies beyond the column reached. -/
theorem mem_places {j i : ℕ} {p : ℕ × ℕ} (h : p ∈ node.places j i) : p.2 ≤ j := by
  rw [places, List.mem_append, List.mem_flatMap, List.mem_map] at h
  -- a place of an earlier column, or of this one
  rcases h with ⟨j', hj', hp⟩ | ⟨i', -, rfl⟩
  · obtain ⟨i', -, rfl⟩ := List.mem_map.mp hp
    exact (List.mem_range.mp hj').le
  · exact le_rfl

/-- At the end every place has been reached. -/
theorem mem_places_end {i j : ℕ} (hi : i < node.latencies.length) (hj : j < node.writes) :
    (i, j) ∈ node.places node.writes 0 := by
  rw [places, List.mem_append, List.mem_flatMap]
  exact .inl ⟨j, List.mem_range.mpr hj, List.mem_map_of_mem (List.mem_range.mpr hi)⟩

/-- One execution of the body of the inner loop. -/
theorem Copied.copy (hsize : node.latencies.length * node.writes < 2 ^ 31) {j i : Int32}
    {c r : ℕ} (hj : j.toInt = c) (hc : c < node.writes) (hi : i.toInt = r)
    (hr : r < node.latencies.length) {s : Copying} (hs : Copied node c r s) :
    ∃ s', node.copy j s i = .ok s' ∧ Copied node c (r + 1) s' := by
  obtain ⟨row, hrow, hcell⟩ := getElem?_latency hr hc
  -- the index is that of the place in the flattened table
  have hlt : r * node.writes + c < node.latencies.length * node.writes := by
    have hle : (r + 1) * node.writes ≤ node.latencies.length * node.writes :=
      Nat.mul_le_mul_right _ hr
    rw [Nat.succ_mul] at hle
    omega
  have hindex : (i * node.benchmarkWrites + j).toInt = (r * node.writes + c : ℕ) :=
    Int32.toInt_add_natCast (Int32.toInt_mul_natCast hi node.toInt_benchmarkWrites (by omega)) hj
      (by omega)
  -- neither the reads nor the assignment are out of bounds
  have hread : (Mpi.read node.latencies i >>= fun row => Mpi.read row j) =
      .ok (node.latency r c) := by
    rw [(Mpi.read_eq_ok_iff hi).mpr hrow]
    exact (Mpi.read_eq_ok_iff hj).mpr hcell
  have hwrite := Mpi.write_eq_ok hindex (hs.length.symm ▸ hlt) (some (node.latency r c))
  refine ⟨⟨s.rawData ++ [(node.latency r c).toInt.repr],
    s.superLatencies.set (r * node.writes + c) (some (node.latency r c)),
    s.assigned ++ [i * node.benchmarkWrites + j]⟩, ?_, ?_, ?_, ?_, ?_⟩
  · simp only [Recorded.copy, hread, hwrite]
  · rw [places_succ, List.map_append, ← hs.rawData]
    rfl
  · rw [places_succ, List.map_append, List.map_append, hs.assigned, List.map_singleton, hindex]
    rfl
  · rw [List.length_set, hs.length]
  · intro p hp
    rw [places_succ, List.mem_append, List.mem_singleton] at hp
    rw [List.getElem?_set]
    split
    · next heq =>
      -- equal indices are those of one place
      have hp₂ : p.2 < node.writes := by
        rcases hp with hp | rfl
        · exact (mem_places hp).trans_lt hc
        · exact hc
      rw [← Blocks.start_const, ← Blocks.start_const] at heq
      obtain ⟨hp₁, hp₂⟩ := Blocks.start_add_inj hc hp₂ heq
      rw [← hp₁, ← hp₂]
      simp [hs.length, hlt]
    · next hne =>
      -- the cells that were assigned before keep their values
      rcases hp with hp | rfl
      · exact hs.superLatencies p hp
      · exact absurd rfl hne

/-- The next column. -/
theorem Copied.next {j : ℕ} {s : Copying} (h : Copied node j node.latencies.length s) :
    Copied node (j + 1) 0 s where
  rawData := by rw [← places_column, h.rawData]
  assigned := by rw [← places_column, h.assigned]
  length := h.length
  superLatencies := by rw [← places_column]; exact h.superLatencies

/-- If the array is large enough then both loops end. -/
theorem copyAll_eq_ok (hsize : node.latencies.length * node.writes < 2 ^ 31) :
    ∃ s, node.copyAll
        ⟨[], List.replicate (node.latencies.length * node.writes) none, []⟩ = .ok s ∧
      Copied node node.writes 0 s := by
  -- the outer loop keeps that the columns before `j` are copied, the inner one that in column `j`
  -- the rows before `i` are
  refine foldlM_intRange node.toInt_benchmarkWrites _ (fun j => Copied node j 0) ?_ ?_
  · exact ⟨rfl, rfl, List.length_replicate, fun p hp => absurd hp List.not_mem_nil⟩
  · intro j c hj hc s hs
    obtain ⟨s', hloop, hs'⟩ := foldlM_intRange (Mpi.toInt_length node.length_latencies)
      (node.copy j) (Copied node c) hs fun i r hi hr s hs => hs.copy hsize hj hc hi hr
    exact ⟨s', hloop, hs'.next⟩

/-! ## What the loops leave -/

/-- The latencies in the order in which they are printed. -/
def columns (node : Recorded) : List (List Int64) :=
  (List.range node.writes).map fun j =>
    (List.range node.latencies.length).map fun i => node.latency i j

/-- There is a column for each write. -/
theorem length_columns (node : Recorded) : node.columns.length = node.writes := by
  rw [columns, List.length_map, List.length_range]

/-- A column has an element for each map. -/
theorem length_of_mem_columns {column : List Int64} (h : column ∈ node.columns) :
    column.length = node.latencies.length := by
  obtain ⟨j, -, rfl⟩ := List.mem_map.mp h
  rw [List.length_map, List.length_range]

/-- The places are those of the table, column by column. -/
theorem places_end :
    node.places node.writes 0 = (List.range node.writes).flatMap fun j =>
      (List.range node.latencies.length).map fun i => (i, j) := by
  simp [places]

/-- At the end the raw data are the columns, one after the other. -/
theorem Copied.rawData_eq {s : Copying} (h : Copied node node.writes 0 s) :
    s.rawData = node.columns.flatten.map fun latency => latency.toInt.repr := by
  rw [h.rawData, places_end, columns, List.map_flatten, List.flatMap_def, List.map_flatten,
    List.map_map, List.map_map]
  simp [Function.comp_def]

/-- Every cell is assigned once. -/
theorem Copied.assigned_perm {s : Copying} (h : Copied node node.writes 0 s) :
    (s.assigned.map Int32.toInt).Perm
      ((List.range (node.latencies.length * node.writes)).map Int.ofNat) := by
  -- the indices in the order of the loops, which is that of the columns
  have hindices : (node.places node.writes 0).map (fun p => ((p.1 * node.writes + p.2 : ℕ) : ℤ)) =
      ((List.range node.writes).flatMap fun j =>
        (List.range node.latencies.length).map fun i => i * node.writes + j).map Int.ofNat := by
    rw [places_end, List.map_flatMap, List.map_flatMap]
    simp [Function.comp_def]
  rw [h.assigned, hindices]
  exact (Blocks.perm_columns _ _).map _

/-- The array is the table row by row. -/
theorem Copied.superLatencies_eq {s : Copying} (h : Copied node node.writes 0 s) :
    s.superLatencies = node.latencies.flatten.map some := by
  apply List.ext_getElem?
  intro k
  have hlength := Blocks.length_flatten node.length_row
  rcases Nat.lt_or_ge k (node.latencies.length * node.writes) with hlt | hge
  -- cell `k` is that of row `k / writes` and column `k % writes`
  · have hpos : 0 < node.writes := Nat.pos_of_mul_pos_left (Nat.zero_lt_of_lt hlt)
    have hi : k / node.writes < node.latencies.length := Nat.div_lt_of_lt_mul (by
      rwa [Nat.mul_comm])
    have hj : k % node.writes < node.writes := Nat.mod_lt k hpos
    have hcell := h.superLatencies _ (mem_places_end hi hj)
    obtain ⟨row, hrow, hvalue⟩ := getElem?_latency hi hj
    rw [← Nat.div_add_mod' k node.writes, hcell, List.getElem?_map,
      Blocks.getElem?_flatten (b := node.writes) node.length_row hj, hrow]
    simp [hvalue]
  · rw [List.getElem?_eq_none (by rw [h.length]; exact hge),
      List.getElem?_eq_none (by rw [List.length_map, hlength]; exact hge)]

/-- The columns have what the rows have. -/
theorem getElem?_columns {i j : ℕ} (hi : i < node.latencies.length) (hj : j < node.writes) :
    node.columns.flatten[j * node.latencies.length + i]? = some (node.latency i j) := by
  rw [Blocks.getElem?_flatten (fun column => length_of_mem_columns) hi, columns]
  simp [hi, hj]

/-- The file of the latencies, if they fit in an array. -/
theorem exists_copied (hsize : node.latencies.length * node.writes < 2 ^ 31) (form : OneDecForm)
    (header : String → String) (directory : Directory) :
    let outcome := node.postProcessResults form header directory
    Copied node node.writes 0 outcome.copied ∧
      outcome.directory "raw-latency-data" =
        some (header "raw-latency-data" :: outcome.copied.rawData) := by
  have hproduct : (node.benchmarkWrites * Mpi.length node.latencies).toInt =
      (node.writes * node.latencies.length : ℕ) :=
    Int32.toInt_mul_natCast node.toInt_benchmarkWrites (Mpi.toInt_length node.length_latencies)
      (by rwa [Nat.mul_comm])
  rw [Nat.mul_comm node.writes] at hproduct
  obtain ⟨s, hloop, hs⟩ := copyAll_eq_ok hsize
  -- the summary is written to another file
  have hother : ∀ statement ∈ Statement.getFileWriter "summary" (header "summary") ::
      (ReaderNode.summary form s.superLatencies).map (.println "summary"),
      statement.name ≠ "raw-latency-data" := by
    intro statement hstatement
    have hname : "summary" ≠ "raw-latency-data" := by decide
    rcases List.mem_cons.mp hstatement with rfl | hline
    · exact hname
    · rw [name_of_mem_summary statement hline]
      exact hname
  simp only [postProcessResults, Mpi.newArray_eq_ok hproduct, hloop, exec_writeFile]
  refine ⟨hs, ?_⟩
  rw [exec_apply_of_ne hother]
  exact Function.update_self _ _ _

end Loops

/-! ## Large tables -/

section Large

variable {node : Recorded}

/-- The array keeps its length. -/
theorem length_left_copy {n : ℕ} (j i : Int32) {s : Copying} (hs : s.superLatencies.length = n) :
    (Run.left (node.copy j s i)).superLatencies.length = n := by
  unfold copy
  split
  · exact hs
  · dsimp only
    split
    · exact hs
    · next superLatencies hwrite => exact (Mpi.length_of_write_eq_ok hwrite).trans hs

theorem length_left_copyAll (node : Recorded) {n : ℕ} {s : Copying}
    (hs : s.superLatencies.length = n) :
    (Run.left (node.copyAll s)).superLatencies.length = n := by
  refine Run.inv_left_foldlM (I := fun s : Copying => s.superLatencies.length = n)
    (fun s j hs => ?_) _ hs
  exact Run.inv_left_foldlM (I := fun s : Copying => s.superLatencies.length = n)
    (fun s i hs => length_left_copy j i hs) _ hs

/-- The length of an array is the value of an `int`, so a larger table is not copied. -/
theorem length_superLatencies_lt (node : Recorded) (form : OneDecForm) (header : String → String)
    (directory : Directory) :
    (node.postProcessResults form header directory).copied.superLatencies.length < 2 ^ 31 := by
  -- whatever the product overflows to
  have hlt : ∀ size : Int32, size.toNatClampNeg < 2 ^ 31 := by
    intro size
    rw [← Int32.toNat_toInt]
    have := size.toInt_lt
    omega
  unfold postProcessResults
  dsimp only
  split
  · exact Nat.two_pow_pos 31
  · next superLatencies hnew =>
    have hlength : superLatencies.length < 2 ^ 31 := by
      rw [Mpi.length_of_newArray_eq_ok hnew]
      exact hlt _
    -- the loops may throw, but they keep the length
    have hleft := length_left_copyAll node (s := ⟨[], superLatencies, []⟩) rfl
    split
    · next e s hloop =>
      rw [hloop] at hleft
      exact hleft.trans_lt hlength
    · next s hloop =>
      rw [hloop] at hleft
      exact hleft.trans_lt hlength

end Large

end Recorded

end LatencyNodes
