import StateTableBench.Arithmetic.Binary64
import StateTableBench.LatencyNodes.ReaderRun

/-!
# The results of a reader

After its run a `ReaderNode` writes its latencies and timestamps to files, and a summary with the
statistics of `StatUtils`. The mean and the standard deviation are formatted with one decimal and
parsed again.

`reports_iff`: all files are written exactly if something has been read. Else the mean is `0/0`,
which is formatted as a text that is not parsed.
-/

open Binary64

namespace LatencyNodes

/-- What may be thrown by `postProcessResults`. -/
inductive JavaException
  | numberFormat
  | nullPointer
deriving DecidableEq

/-- `StatUtils.oneDecForm`, with what is used of `Double`. The default locale must write a decimal
point: what is formatted with a comma is not parsed either. -/
structure OneDecForm where
  /-- `Double.valueOf(oneDecForm.format(x))`; there is no value if it throws. -/
  valueOfFormat : Float → Option Float
  /-- `Double.toString` -/
  toString : Float → String
  /-- `NaN` is formatted as a text that is not parsed. -/
  valueOfFormat_nan : ∀ x, x.isNaN = true → valueOfFormat x = none
  /-- A number is read back, up to rounding to one decimal. -/
  valueOfFormat_within : ∀ x b, Within b x →
    ∃ y, valueOfFormat x = some y ∧ Within (2 * b + 1) y

/-! ## `StatUtils` -/

namespace StatUtils

variable (form : OneDecForm)

/-- `nb.doubleValue()` -/
def doubleValue : Option Int64 → Except JavaException Float
  | some nb => .ok (ofInt nb.toInt)
  | none => .error .nullPointer

/-- `Double.valueOf(oneDecForm.format(x))` -/
def valueOf (x : Float) : Except JavaException Float :=
  match form.valueOfFormat x with
  | some y => .ok y
  | none => .error .numberFormat

def mean (values : List (Option Int64)) : Except JavaException Float := do
  let sum ← values.foldlM (fun mean nb => do
    let doubleNb ← doubleValue nb
    return mean + doubleNb) 0.0
  valueOf form (sum / ofInt values.length)

def standardDeviation (values : List (Option Int64)) : Except JavaException Float := do
  let mean ← mean form values
  let sum ← values.foldlM (fun stdDev nb => do
    let doubleNb ← doubleValue nb
    return stdDev + (doubleNb - mean) * (doubleNb - mean)) 0.0
  valueOf form (sum / ofInt values.length).sqrt

/-- The list is sorted in place, but the other statistics do not depend on its order then. -/
def percentile (values : List (Option Int64)) (percentile : Float) :
    Except JavaException Int64 := do
  let values ← values.mapM fun
    | some nb => .ok nb
    | none => .error .nullPointer
  let sorted := values.mergeSort fun a b => decide (a ≤ b)
  -- the product is not negative, so its floor is the number that the conversion truncates it to
  let index := (ofInt values.length * percentile).toModel.toInt32
  return if index.toInt < values.length then sorted.getD index.toInt.toNat 0 else 0

end StatUtils

/-! ## Files -/

/-- A directory of text files: the lines of each file. -/
abbrev Directory := String → Option (List String)

/-- A statement of `postProcessResults`. -/
inductive Statement
  /-- `getFileWriter` creates a file, or truncates it, and writes a header. -/
  | getFileWriter (name header : String)
  /-- `println` writes a line, unless its argument throws. -/
  | println (name : String) (line : Except JavaException String)

/-- The statements are executed until one throws. -/
def exec : List Statement → Directory → Option JavaException × Directory
  | [], directory => (none, directory)
  | .getFileWriter name header :: statements, directory =>
    exec statements (Function.update directory name (some [header]))
  | .println name line :: statements, directory =>
    match line with
    | .ok line =>
      exec statements (Function.update directory name (some ((directory name).getD [] ++ [line])))
    | .error exception => (some exception, directory)

/-- A file with a header and lines. -/
def writeFile (header : String → String) (name : String) (lines : List String) : List Statement :=
  .getFileWriter name (header name) :: lines.map fun line => .println name (.ok line)

theorem exec_println {name : String} {written lines : List String} {statements : List Statement}
    {directory : Directory} (h : directory name = some written) :
    exec ((lines.map fun line => .println name (.ok line)) ++ statements) directory =
      exec statements (Function.update directory name (some (written ++ lines))) := by
  induction lines generalizing written directory with
  | nil => rw [List.append_nil, ← h, Function.update_eq_self]; rfl
  | cons line lines ih =>
    rw [List.map_cons, List.cons_append, exec, h, Option.getD_some,
      ih (Function.update_self _ _ _), Function.update_idem, List.append_assoc,
      List.singleton_append]

/-- A file is written, whatever was in it. -/
theorem exec_writeFile (header : String → String) (name : String) (lines : List String)
    (statements : List Statement) (directory : Directory) :
    exec (writeFile header name lines ++ statements) directory =
      exec statements (Function.update directory name (some (header name :: lines))) := by
  rw [writeFile, List.cons_append, exec, exec_println (Function.update_self _ _ _),
    Function.update_idem]
  rfl

/-- The file that a statement is about. -/
def Statement.name : Statement → String
  | .getFileWriter name _ => name
  | .println name _ => name

/-- Files that no statement is about are left alone. -/
theorem exec_apply_of_ne {name : String} {statements : List Statement}
    (h : ∀ statement ∈ statements, statement.name ≠ name) (directory : Directory) :
    (exec statements directory).2 name = directory name := by
  induction statements generalizing directory with
  | nil => rfl
  | cons statement statements ih =>
    have hne := h statement List.mem_cons_self
    have hrest := ih fun s hs => h s (List.mem_cons_of_mem statement hs)
    cases statement with
    | getFileWriter name' header =>
      rw [exec, hrest]
      exact Function.update_of_ne (Ne.symm hne) _ _
    | println name' line =>
      cases line with
      | error exception => rfl
      | ok line =>
        rw [exec, hrest]
        exact Function.update_of_ne (Ne.symm hne) _ _

theorem name_of_mem_summary {name : String} {lines : List (Except JavaException String)} :
    ∀ statement ∈ lines.map (Statement.println name), statement.name = name := by
  intro statement h
  obtain ⟨line, -, rfl⟩ := List.mem_map.mp h
  rfl

namespace ReaderNode

/-- The latencies that have been read. -/
def receivedLatencies (node : ReaderNode) : List (Option Int64) :=
  (node.latencies.take node.totalRead).map (Option.map Reading.latency)

/-- A `Long` as it is printed. -/
def longText : Option Int64 → String
  | some value => value.toInt.repr
  | none => "null"

/-- The data lines of the first two files. -/
def latencyLines (node : ReaderNode) : List String := node.receivedLatencies.map longText

def timeLines (node : ReaderNode) : List String :=
  (node.timestamps.take node.totalRead).map fun time => time.toInt.repr

/-- The lines of the summary. -/
def summary (form : OneDecForm) (received : List (Option Int64)) :
    List (Except JavaException String) :=
  [ (StatUtils.mean form received).map fun mean => "mean=" ++ form.toString mean,
    (StatUtils.standardDeviation form received).map fun stdev => "stdev=" ++ form.toString stdev,
    (StatUtils.percentile received 0.95).map fun p => "95thpercentile=" ++ p.toInt.repr,
    (StatUtils.percentile received 0.99).map fun p => "99thpercentile=" ++ p.toInt.repr,
    (StatUtils.percentile received 0.9999).map fun p => "9999thpercentile=" ++ p.toInt.repr ]

/-- The lines of the file `timestamps`. -/
def timestampLines (node : ReaderNode) : List String :=
  [ "startwarmup=" ++ node.startWarmupTime.toInt.repr,
    "endwarmup=" ++ node.endWarmupTime.toInt.repr,
    "startbenchmark=" ++ node.startBenchmark.toInt.repr,
    "endbenchmark=" ++ node.endBenchmark.toInt.repr ]

/-- `ReaderNode.postProcessResults`; `header` is the first line of each file. -/
def postProcessResults (form : OneDecForm) (header : String → String) (node : ReaderNode) :
    List Statement :=
  writeFile header "raw-latency-data" node.latencyLines ++
    (writeFile header "raw-timestamp-data" node.timeLines ++
    (.getFileWriter "summary" (header "summary") ::
      ((summary form node.receivedLatencies).map (.println "summary") ++
    writeFile header "timestamps" node.timestampLines)))

end ReaderNode

/-! ## The statistics of what has been read -/

namespace StatUtils

variable {form : OneDecForm} {values : List Int64}

/-- Sums of values that are not `null`. -/
theorem foldlM_doubleValue (f : Float → Float → Float) (values : List Int64) (s : Float) :
    (values.map some).foldlM (fun s nb => do
      let doubleNb ← doubleValue nb
      return f s doubleNb) s =
      (.ok (values.foldl (fun s nb => f s (ofInt nb.toInt)) s) : Except JavaException Float) := by
  induction values generalizing s with
  | nil => rfl
  | cons nb values ih => exact ih (f s (ofInt nb.toInt))

theorem within_zero : Within 0 0.0 := le_refl (0 : ℚ)

theorem isNonneg_zero : IsNonneg 0.0 := trivial

theorem within_doubleValue (nb : Int64) : Within (2 ^ 63) (ofInt nb.toInt) := by
  apply within_ofInt (representable_two_pow 63) (two_pow_lt (by omega))
  rw [abs_le]
  have hle : -2 ^ 63 ≤ nb.toInt := nb.le_toInt
  have hlt : nb.toInt ≤ 2 ^ 63 := nb.toInt_lt.le
  exact ⟨by exact_mod_cast hle, by exact_mod_cast hlt⟩

/-- An average is not larger than the sum. -/
theorem within_div_length {n p : ℕ} {s : Float} (hpos : 0 < n) (hlt : n < 2 ^ 31) (hp : p ≤ 900)
    (hs : Within (n * 2 ^ p) s) : Within (n * 2 ^ p) (s / ofInt n) := by
  have hlarge : AtLeast 1 (ofInt n).toModel.unpack :=
    atLeast_one_ofInt (by omega) (by rw [Int.natAbs_natCast]; omega)
  have hlt' : n < 2 ^ 53 := by omega
  exact hs.div hlarge one_pos (representable_mul_two_pow hlt') (mul_two_pow_lt hlt' hp)
    (one_mul _).ge

theorem mul_two_pow_le {n p : ℕ} (hlt : n < 2 ^ 31) : (n : ℚ) * 2 ^ p ≤ 2 ^ (31 + p) := by
  have hle : (n : ℚ) ≤ (2 ^ 31 : ℕ) := Nat.cast_le.mpr hlt.le
  rw [pow_add]
  exact mul_le_mul_of_nonneg_right (by exact_mod_cast hle) (pow_pos two_pos p).le

/-- A number that is formatted and parsed again. -/
theorem exists_valueOf (form : OneDecForm) {x : Float} {b c : ℚ} (hx : Within b x)
    (hle : 2 * b + 1 ≤ c) :
    ∃ y, valueOf form x = .ok y ∧ Within c y := by
  obtain ⟨y, hy, hwithin⟩ := form.valueOfFormat_within x b hx
  exact ⟨y, by rw [valueOf, hy], hwithin.mono hle⟩

/-- The mean of some values is a number. -/
theorem exists_mean (form : OneDecForm) (hpos : 0 < values.length) (hlt : values.length < 2 ^ 31) :
    ∃ y, mean form (values.map some) = .ok y ∧ Within (2 ^ 96) y := by
  have hsum : Within ((0 + values.length : ℕ) * 2 ^ 63)
      (values.foldl (fun s nb => s + ofInt nb.toInt) 0.0) :=
    within_foldl (by omega) (fun nb _ => within_doubleValue nb) (by omega)
      (by simpa using within_zero)
  rw [Nat.zero_add] at hsum
  have haverage := (within_div_length hpos hlt (by omega) hsum).mono (mul_two_pow_le hlt)
  obtain ⟨y, hy, hwithin⟩ := exists_valueOf form (c := 2 ^ 96) haverage (by norm_num)
  refine ⟨y, ?_, hwithin⟩
  rw [mean, foldlM_doubleValue (fun s x => s + x), List.length_map]
  exact hy

/-- The deviations from the mean. -/
theorem within_sub {m : Float} (hm : Within (2 ^ 96) m) (nb : Int64) :
    Within (2 ^ 97) (ofInt nb.toInt - m) :=
  (within_doubleValue nb).sub hm (representable_two_pow 97) (two_pow_lt (by omega)) (by norm_num)

/-- The average of their squares is not too large, and not below zero. -/
theorem within_variance (hpos : 0 < values.length) (hlt : values.length < 2 ^ 31) {m : Float}
    (hm : Within (2 ^ 96) m) :
    Within (2 ^ 225) (values.foldl
        (fun s nb => s + (ofInt nb.toInt - m) * (ofInt nb.toInt - m)) 0.0 / ofInt values.length) ∧
      IsNonneg (values.foldl
        (fun s nb => s + (ofInt nb.toInt - m) * (ofInt nb.toInt - m)) 0.0 /
          ofInt values.length) := by
  have hrep := representable_two_pow 194
  have hbound := two_pow_lt (p := 194) (by omega)
  have hle : (2 : ℚ) ^ 97 * 2 ^ 97 ≤ 2 ^ 194 := by norm_num
  have hsquare : ∀ nb ∈ values,
      Within (2 ^ 194) ((ofInt nb.toInt - m) * (ofInt nb.toInt - m)) :=
    fun nb _ => (within_sub hm nb).mul (within_sub hm nb) hrep hbound hle
  have hnonneg : ∀ nb ∈ values, IsNonneg ((ofInt nb.toInt - m) * (ofInt nb.toInt - m)) :=
    fun nb _ => isNonneg_mul_self (within_sub hm nb) hrep hbound hle
  have hstart : Within ((0 : ℕ) * 2 ^ 194) 0.0 := by simpa using within_zero
  have hsum := within_foldl (by omega) hsquare (k := 0) (by omega) hstart
  have hsum' := isNonneg_foldl (by omega) hsquare hnonneg (k := 0) (by omega) hstart isNonneg_zero
  rw [Nat.zero_add] at hsum
  refine ⟨(within_div_length hpos hlt (by omega) hsum).mono (mul_two_pow_le hlt), ?_⟩
  -- the divisor is a positive number
  have hlength : (values.length : ℤ).natAbs < 2 ^ 64 := by
    rw [Int.natAbs_natCast]
    omega
  exact IsNonneg.div hsum (atLeast_one_ofInt (by omega) hlength) one_pos
    (representable_mul_two_pow (by omega)) (mul_two_pow_lt (by omega) (by omega)) (one_mul _).ge
    hsum' (isNonneg_ofInt (by omega) hlength)

/-- So their standard deviation is a number. -/
theorem exists_standardDeviation (form : OneDecForm) (hpos : 0 < values.length)
    (hlt : values.length < 2 ^ 31) :
    ∃ y, standardDeviation form (values.map some) = .ok y := by
  obtain ⟨m, hmean, hm⟩ := exists_mean form hpos hlt
  obtain ⟨haverage, hnonneg⟩ := within_variance hpos hlt hm
  have hroot := haverage.sqrt hnonneg (representable_two_pow 113) (by positivity)
    (two_pow_lt (by omega)) (by norm_num)
  obtain ⟨y, hy, -⟩ := exists_valueOf form hroot le_rfl
  refine ⟨y, ?_⟩
  rw [standardDeviation, hmean]
  change (do
    let sum ← (values.map some).foldlM (fun s nb => do
      let doubleNb ← doubleValue nb
      return s + (doubleNb - m) * (doubleNb - m)) 0.0
    valueOf form (sum / ofInt (values.map some).length).sqrt) = _
  rw [foldlM_doubleValue (fun s x => s + (x - m) * (x - m)), List.length_map]
  exact hy

/-- Values that are not `null` are unboxed. -/
theorem mapM_unbox {unbox : Option Int64 → Except JavaException Int64}
    (h : ∀ nb, unbox (some nb) = .ok nb) (values : List Int64) :
    (values.map some).mapM unbox = .ok values := by
  induction values with
  | nil => rfl
  | cons nb values ih =>
    rw [List.map_cons, List.mapM_cons, h, ih]
    rfl

theorem exists_percentile (values : List Int64) (p : Float) :
    ∃ y, percentile (values.map some) p = .ok y := by
  rw [percentile, mapM_unbox fun _ => rfl]
  exact ⟨_, rfl⟩

/-- There is no mean of nothing. -/
theorem mean_nil : mean form [] = .error .numberFormat := by
  have hnan : ((0.0 : Float) / ofInt 0).isNaN = true := by decide
  change valueOf form ((0.0 : Float) / ofInt 0) = _
  rw [valueOf, form.valueOfFormat_nan _ hnan]

end StatUtils

theorem exists_eq_map_some {α : Type} {l : List (Option α)} (h : ∀ x ∈ l, ∃ y, x = some y) :
    ∃ values : List α, l = values.map some := by
  induction l with
  | nil => exact ⟨[], rfl⟩
  | cons x l ih =>
    obtain ⟨y, rfl⟩ := h x List.mem_cons_self
    obtain ⟨values, rfl⟩ := ih fun z hz => h z (List.mem_cons_of_mem _ hz)
    exact ⟨y :: values, rfl⟩

namespace ReaderNode

variable {form : OneDecForm} {header : String → String} {node : ReaderNode} {directory : Directory}

/-- What has been read is not `null`. -/
theorem exists_receivedLatencies (node : ReaderNode) :
    ∃ values : List Int64, node.receivedLatencies = values.map some ∧
      values.length = node.totalRead := by
  have hfilled : ∀ cell ∈ node.latencies.take node.totalRead, ∃ reading, cell = some reading := by
    intro cell hcell
    obtain ⟨i, hi, rfl⟩ := List.mem_take_iff_getElem.mp hcell
    obtain ⟨reading, hreading⟩ := node.filled i (by omega)
    exact ⟨reading, (List.getElem_eq_iff _).mpr hreading⟩
  obtain ⟨readings, hreadings⟩ := exists_eq_map_some hfilled
  refine ⟨readings.map Reading.latency, ?_, ?_⟩
  · rw [receivedLatencies, hreadings, List.map_map, List.map_map]
    rfl
  · have hlength := congrArg List.length hreadings
    rw [List.length_take, node.length_latencies, Nat.min_eq_left node.totalRead_le,
      List.length_map] at hlength
    rw [List.length_map, hlength]

/-- All four files are written. -/
def Reports (form : OneDecForm) (header : String → String) (node : ReaderNode)
    (directory : Directory) : Prop :=
  (exec (postProcessResults form header node) directory).1 = none ∧
    let results := (exec (postProcessResults form header node) directory).2
    results "raw-latency-data" = some (header "raw-latency-data" :: node.latencyLines) ∧
      node.latencyLines.length = node.totalRead ∧
    results "raw-timestamp-data" = some (header "raw-timestamp-data" :: node.timeLines) ∧
      node.timeLines.length = node.totalRead ∧
    (∃ mean stdev p95 p99 p9999, results "summary" = some [header "summary", "mean=" ++ mean,
      "stdev=" ++ stdev, "95thpercentile=" ++ p95, "99thpercentile=" ++ p99,
      "9999thpercentile=" ++ p9999]) ∧
    results "timestamps" = some (header "timestamps" :: node.timestampLines)

variable (form header node directory) in
/-- The directory after `postProcessResults`, up to the summary. -/
theorem exec_postProcessResults :
    ∃ results : Directory, exec (postProcessResults form header node) directory =
        exec ((summary form node.receivedLatencies).map (.println "summary") ++
          writeFile header "timestamps" node.timestampLines) results ∧
      results "raw-latency-data" = some (header "raw-latency-data" :: node.latencyLines) ∧
      results "raw-timestamp-data" = some (header "raw-timestamp-data" :: node.timeLines) ∧
      results "summary" = some [header "summary"] ∧
      results "timestamps" = directory "timestamps" := by
  rw [postProcessResults, exec_writeFile, exec_writeFile, exec]
  refine ⟨_, rfl, ?_⟩
  simp

/-- The file of the latencies does not depend on the rest. -/
theorem exec_postProcessResults_rawLatencyData (node : ReaderNode) (form : OneDecForm)
    (header : String → String) (directory : Directory) :
    (exec (node.postProcessResults form header) directory).2 "raw-latency-data" =
      some (header "raw-latency-data" :: node.latencyLines) := by
  obtain ⟨results, hexec, hlatencies, -⟩ := exec_postProcessResults form header node directory
  rw [hexec, exec_apply_of_ne, hlatencies]
  intro statement hstatement
  have hsummary : "summary" ≠ "raw-latency-data" := by decide
  have htimestamps : "timestamps" ≠ "raw-latency-data" := by decide
  rcases List.mem_append.mp hstatement with hline | hline
  · rw [name_of_mem_summary statement hline]
    exact hsummary
  · rcases List.mem_cons.mp hline with rfl | hline
    · exact htimestamps
    · obtain ⟨line, -, rfl⟩ := List.mem_map.mp hline
      exact htimestamps

/-- The summary, if none of its lines throws. -/
theorem exec_postProcessResults_summary {lines : List String}
    (h : summary form node.receivedLatencies = lines.map .ok) :
    (exec (postProcessResults form header node) directory).2 "summary" =
      some (header "summary" :: lines) := by
  obtain ⟨results, hexec, -, -, hsummary, -⟩ :=
    exec_postProcessResults form header node directory
  have hlines : (lines.map Except.ok).map (Statement.println "summary") =
      lines.map fun line => .println "summary" (.ok line) := by
    rw [List.map_map]
    rfl
  rw [hexec, h, hlines, exec_println hsummary, ← List.append_nil (writeFile _ _ _), exec_writeFile]
  simp [exec]

/-- The first line of the summary throws if nothing has been read. -/
theorem exec_of_totalRead_eq_zero (h : node.totalRead = 0) :
    (exec (postProcessResults form header node) directory).1 = some .numberFormat ∧
      (exec (postProcessResults form header node) directory).2 "summary" =
        some [header "summary"] ∧
      (exec (postProcessResults form header node) directory).2 "timestamps" =
        directory "timestamps" := by
  obtain ⟨results, hexec, -, -, hsummary, htimestamps⟩ :=
    exec_postProcessResults form header node directory
  have hnothing : node.receivedLatencies = [] := by
    rw [receivedLatencies, h, List.take_zero, List.map_nil]
  rw [hnothing, summary, StatUtils.mean_nil] at hexec
  rw [hexec]
  exact ⟨rfl, hsummary, htimestamps⟩

/-- If something has been read then all files are written. -/
theorem reports_of_pos (form : OneDecForm) (header : String → String) {node : ReaderNode}
    (hpos : 1 ≤ node.totalRead) (directory : Directory) : Reports form header node directory := by
  obtain ⟨values, hvalues, hlength⟩ := node.exists_receivedLatencies
  have hlt := node.totalRead_le.trans_lt node.numberOfReads_lt
  have hsome : 0 < values.length ∧ values.length < 2 ^ 31 := by omega
  obtain ⟨mean, hmean, -⟩ := StatUtils.exists_mean form hsome.1 hsome.2
  obtain ⟨stdev, hstdev⟩ := StatUtils.exists_standardDeviation form hsome.1 hsome.2
  obtain ⟨p95, hp95⟩ := StatUtils.exists_percentile values 0.95
  obtain ⟨p99, hp99⟩ := StatUtils.exists_percentile values 0.99
  obtain ⟨p9999, hp9999⟩ := StatUtils.exists_percentile values 0.9999
  obtain ⟨results, hexec, hlatencies, htimestamps, hsummary, -⟩ :=
    exec_postProcessResults form header node directory
  -- no line of the summary throws
  have hlines : (summary form node.receivedLatencies).map (Statement.println "summary") =
      ["mean=" ++ form.toString mean, "stdev=" ++ form.toString stdev,
        "95thpercentile=" ++ p95.toInt.repr, "99thpercentile=" ++ p99.toInt.repr,
        "9999thpercentile=" ++ p9999.toInt.repr].map
        fun line => Statement.println "summary" (.ok line) := by
    rw [summary, hvalues, hmean, hstdev, hp95, hp99, hp9999]
    rfl
  rw [hlines, exec_println hsummary, ← List.append_nil (writeFile _ _ _), exec_writeFile] at hexec
  have hlatency : node.latencyLines.length = node.totalRead := by
    rw [latencyLines, hvalues, List.length_map, List.length_map, hlength]
  have htime : node.timeLines.length = node.totalRead := by
    rw [timeLines, List.length_map, List.length_take, node.length_timestamps,
      Nat.min_eq_left node.totalRead_le]
  rw [Reports, hexec]
  refine ⟨rfl, ?_, hlatency, ?_, htime, ⟨form.toString mean, form.toString stdev,
    p95.toInt.repr, p99.toInt.repr, p9999.toInt.repr, ?_⟩, ?_⟩
  · simp [exec, hlatencies]
  · simp [exec, htimestamps]
  · simp [exec]
  · simp [exec]

/-- All files are written exactly if something has been read. -/
theorem reports_iff (form : OneDecForm) (header : String → String) (node : ReaderNode)
    (directory : Directory) :
    Reports form header node directory ↔ 1 ≤ node.totalRead := by
  constructor
  · rintro ⟨hcompletes, -⟩
    by_contra hzero
    rw [(exec_of_totalRead_eq_zero (by omega)).1] at hcompletes
    cases hcompletes
  · intro hpos
    exact reports_of_pos form header hpos directory

/-- What `Double.toString` returns for a number with one decimal that is below `10 ^ 7`. -/
def oneDecimal (x : Float) : String :=
  let tenths := (x * 10.0).toModel.toInt32.toInt
  (if tenths < 0 then "-" else "") ++ (tenths.natAbs / 10).repr ++ "." ++
    (tenths.natAbs % 10).repr

/-- Numbers are read back as they are, which is right for those with one decimal. -/
def exactForm : OneDecForm where
  valueOfFormat x := if x.isFinite then some x else none
  toString := oneDecimal
  valueOfFormat_nan x hnan := by rw [isFinite_of_isNaN hnan]; rfl
  valueOfFormat_within x b hx := by
    have hnonneg := AtMost.nonneg hx
    exact ⟨x, if_pos hx.isFinite, hx.mono (by linarith)⟩

theorem percentile_pair {p : Float} (h : (ofInt 2 * p).toModel.toInt32 = 1) :
    StatUtils.percentile [some 80, some 70] p = .ok 80 := by
  have hsorted : [(80 : Int64), 70].mergeSort (fun a b => decide (a ≤ b)) = [70, 80] := by
    simp [List.mergeSort, List.MergeSort.Internal.splitInTwo]
  change Except.ok (if (ofInt 2 * p).toModel.toInt32.toInt < 2 then
    ([(80 : Int64), 70].mergeSort fun a b => decide (a ≤ b)).getD
      (ofInt 2 * p).toModel.toInt32.toInt.toNat 0 else 0) = _
  rw [h, hsorted]
  rfl

/-- The lines of the summary for latencies of 80 and 70 milliseconds. -/
theorem summary_pair : summary exactForm [some 80, some 70] =
    ["mean=75.0", "stdev=5.0", "95thpercentile=80", "99thpercentile=80",
      "9999thpercentile=80"].map .ok := by
  have hmean : StatUtils.mean exactForm [some 80, some 70] = .ok 75.0 := by decide +kernel
  have hstdev : StatUtils.standardDeviation exactForm [some 80, some 70] = .ok 5.0 := by
    decide +kernel
  have hmeanText : exactForm.toString 75.0 = "75.0" := by decide +kernel
  have hstdevText : exactForm.toString 5.0 = "5.0" := by decide +kernel
  rw [summary, hmean, hstdev, percentile_pair (by decide +kernel),
    percentile_pair (by decide +kernel), percentile_pair (by decide +kernel)]
  simp only [Except.map, hmeanText, hstdevText]
  decide

/-- The files of a run that has read them. -/
theorem reports_allArrived :
    ∃ reader node result, timedSetup allArrived [()] 0 (.init 2 (by decide)) =
        some (reader, node) ∧
      timedRun allArrived 3 reader node = some result ∧
      Reports exactForm (fun _ => "HOST") result.node (fun _ => none) ∧
      (exec (postProcessResults exactForm (fun _ => "HOST") result.node) fun _ => none).2
        "summary" = some ["HOST", "mean=75.0", "stdev=5.0", "95thpercentile=80",
          "99thpercentile=80", "9999thpercentile=80"] := by
  refine ⟨_, _, _, rfl, rfl, (reports_iff exactForm (fun _ => "HOST") _ fun _ => none).mpr
    (by decide), ?_⟩
  exact exec_postProcessResults_summary summary_pair

/-- The only event is read by the setup. -/
def oneArrival : Arrivals :=
  { allArrived with
    events := [10]
    arrived := fun _ => 1
    monotone := monotone_const
    arrived_le := fun _ => le_rfl
    eventually := ⟨0, rfl⟩ }

/-- A run that gives up before its first successful read: the summary has no line, and the
timestamps are not written. -/
theorem not_reports_oneArrival :
    ∃ reader node result, timedSetup oneArrival [()] 0 (.init 1 (by decide)) =
        some (reader, node) ∧
      timedRun oneArrival 30 reader node = some result ∧ result.threw = true ∧
      ¬Reports exactForm (fun _ => "HOST") result.node (fun _ => none) ∧
      (exec (postProcessResults exactForm (fun _ => "HOST") result.node) fun _ => none).1 =
        some .numberFormat ∧
      (exec (postProcessResults exactForm (fun _ => "HOST") result.node) fun _ => none).2
        "summary" = some ["HOST"] ∧
      (exec (postProcessResults exactForm (fun _ => "HOST") result.node) fun _ => none).2
        "timestamps" = none := by
  refine ⟨_, _, _, rfl, rfl, rfl, ?_, exec_of_totalRead_eq_zero rfl⟩
  rintro ⟨hcompletes, -⟩
  rw [(exec_of_totalRead_eq_zero rfl).1] at hcompletes
  cases hcompletes

end ReaderNode

end LatencyNodes
