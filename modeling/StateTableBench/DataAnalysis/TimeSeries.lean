import StateTableBench.Collections.FiniteMap
import StateTableBench.Collections.LastValue
import StateTableBench.LatencyNodes.ReaderResults
import StateTableBench.Text.Numerals
import StateTableBench.Transition.Run

/-!
# Time series of latencies

The scripts for the analysis read the files that the readers of an experiment have written. There
are two functions that make a time series of each node, with times relative to a common origin that
is stored under the key `start` (`experimentreader.py`). `loadTimeSeriesLatencies` uses the times of
the reads, and `calculateTimeSeriesLatencies` spreads the reads evenly over the benchmark.

`sameOrigin_iff`: the first function stores its origin in seconds, and the second one in
milliseconds.

`order_independent_iff`: the origin is that of the node which is listed last.
-/

open FiniteMap LastValue Binary64 Text.Numerals LatencyNodes

namespace ExperimentReader

/-- The exceptions of Python that may be raised. -/
inductive PythonException
  | valueError
  | overflowError
  | zeroDivisionError
  | keyError
  | indexError
deriving DecidableEq

/-- A value of the dictionary. -/
inductive Value
  | series (times data : List Float)
  | start (x : Float)

variable {D : Type → Type → Type} [FiniteMap D]

/-! ## Files -/

/-- `int(x.strip('\n'))/1000.0` -/
def dividedInt (x : String) : Except PythonException Float :=
  match int x with
  | none => .error .valueError
  | some z => if (ofInt z).isFinite then .ok (ofInt z / 1000.0) else .error .overflowError

def processDataFile (content : List String) : Except PythonException (List Float) :=
  match (content.drop 1).mapM dividedInt with
  -- only this exception is caught
  | .error .valueError => .ok []
  | result => result

/-- `line.strip("\n").split("=")` -/
def parts (line : String) : List String := (line.toList.splitOn '=').map String.ofList

def processKeyFile (content : List String) : D String String :=
  content.foldl (fun data line =>
    match parts line with
    | [key, value] => put data key value
    | _ => data) empty

/-- `float(timestamps[key])` -/
def floatAt (timestamps : D String String) (key : String) : Except PythonException Float :=
  match get? timestamps key with
  | none => .error .keyError
  | some text =>
    match float text with
    | none => .error .valueError
    | some x => .ok x

/-! ## The loops -/

/-- The body of the loop of `loadTimeSeriesLatencies` for a directory: the value of `start` and the
entry of the dictionary, or `none` if the directory is skipped. -/
def loadNode (directory : Directory) : Except PythonException (Option (Float × Value)) :=
  match directory "raw-latency-data" with
  | none => .ok none
  | some latencyLines =>
    match directory "raw-timestamp-data" with
    | none => .ok none
    | some timestampLines => do
      let data ← processDataFile latencyLines
      let timedata ← processDataFile timestampLines
      match timedata with
      | [] => .error .indexError
      | start :: _ => return some (start, .series (timedata.map fun y => y - start) data)

variable (D) in
/-- The same of `calculateTimeSeriesLatencies`. -/
def calculateNode (directory : Directory) : Except PythonException (Option (Float × Value)) :=
  match directory "raw-latency-data" with
  | none => .ok none
  | some latencyLines => do
    let data ← processDataFile latencyLines
    match directory "timestamps" with
    | none => return none
    | some keyLines => do
      let timestamps : D String String := processKeyFile keyLines
      -- no division by 1000 here
      let start ← floatAt timestamps "startbenchmark"
      let «end» ← floatAt timestamps "endbenchmark"
      if data.length = 0 then .error .zeroDivisionError
      else
        let delta := («end» - start) / ofInt data.length
        let times := (List.range data.length).map fun (i : ℕ) => delta * ofInt i / ofInt 1000
        return some (start, .series times data)

section Loop

variable (D) (node : Directory → Except PythonException (Option (Float × Value)))
  (entries : String → Option Directory)

/-- What an entry of the directory contributes. Only directories do. -/
def entry (f : String) : Except PythonException (Option (Float × Value)) :=
  match entries f with
  | none => .ok none
  | some directory => node directory

/-- The variables of a loop. -/
structure Variables where
  latencies : D String Value
  start : Float

variable {D} in
/-- What an entry changes. -/
def Variables.assign (s : Variables D) (f : String) : Option (Float × Value) → Variables D
  | none => s
  | some (start, value) => ⟨put s.latencies f value, start⟩

/-- The loop over the entries of a directory, in the order of `listdir`. -/
def loop (listdir : List String) (s : Variables D) : Except PythonException (Variables D) :=
  listdir.foldlM (fun s f => do
    let r ← entry node entries f
    return s.assign f r) s

/-- Both functions, up to their loops. -/
def timeSeries (listdir : List String) : Except PythonException (D String Value) := do
  let s ← loop D node entries listdir ⟨empty, ofInt 0⟩
  return put s.latencies "start" (.start s.start)

def loadTimeSeriesLatencies (listdir : List String) : Except PythonException (D String Value) :=
  timeSeries D loadNode entries listdir

def calculateTimeSeriesLatencies (listdir : List String) :
    Except PythonException (D String Value) :=
  timeSeries D (calculateNode D) entries listdir

end Loop

/-! ## What the loops leave -/

section Contributions

variable {node : Directory → Except PythonException (Option (Float × Value))}
  {entries : String → Option Directory} {listdir : List String}
  {result : String → Option (Float × Value)}

theorem loop_cons {f : String} {r : Option (Float × Value)} (h : entry node entries f = .ok r)
    (listdir : List String) (s : Variables D) :
    loop D node entries (f :: listdir) s = loop D node entries listdir (s.assign f r) := by
  rw [loop, List.foldlM_cons, h]
  rfl

theorem get?_assign (s : Variables D) (f : String) (r : Option (Float × Value)) (key : String) :
    get? (s.assign f r).latencies key =
      if key = f then (r.map Prod.snd).or (get? s.latencies key) else get? s.latencies key := by
  cases r with
  | none => simp [Variables.assign]
  | some r =>
    by_cases hkey : key = f
    · simp [Variables.assign, hkey]
    · simp [Variables.assign, get?_put, hkey]

/-- The entries of the dictionary do not depend on the order, and `start` is assigned last by the
last entry of the directory that is not skipped. -/
theorem exists_loop (h : ∀ f ∈ listdir, entry node entries f = .ok (result f)) (s : Variables D) :
    ∃ s', loop D node entries listdir s = .ok s' ∧
      s'.start = lastValue (fun f => (result f).map Prod.fst) s.start listdir ∧
      ∀ key, get? s'.latencies key =
        if key ∈ listdir then ((result key).map Prod.snd).or (get? s.latencies key)
        else get? s.latencies key := by
  -- the loop goes on with what the first entry has changed
  induction listdir generalizing s with
  | nil => exact ⟨s, rfl, rfl, fun key => rfl⟩
  | cons f listdir ih =>
    obtain ⟨s', hloop, hstart, hget⟩ :=
      ih (fun g hg => h g (List.mem_cons_of_mem f hg)) (s.assign f (result f))
    refine ⟨s', by rw [loop_cons (h f List.mem_cons_self), hloop], ?_, fun key => ?_⟩
    · rw [hstart, lastValue, lastValue, List.foldl_cons]
      cases result f <;> rfl
    · rw [hget, get?_assign]
      by_cases hkey : key = f
      · subst hkey
        cases result key <;> simp
      · simp [hkey]

theorem exists_timeSeries (h : ∀ f ∈ listdir, entry node entries f = .ok (result f)) :
    ∃ d, timeSeries D node entries listdir = .ok d ∧
      get? d "start" = some (.start
        (lastValue (fun f => (result f).map Prod.fst) (ofInt 0) listdir)) ∧
      ∀ key, key ≠ "start" →
        get? d key = if key ∈ listdir then (result key).map Prod.snd else none := by
  obtain ⟨s, hloop, hstart, hget⟩ := exists_loop h (⟨empty, ofInt 0⟩ : Variables D)
  refine ⟨put s.latencies "start" (.start s.start), ?_, ?_, fun key hkey => ?_⟩
  · rw [timeSeries, hloop]
    rfl
  · rw [get?_put_self, hstart]
  · rw [get?_put_of_ne _ _ _ _ hkey, hget, get?_empty, Option.or_none]

/-- The same dictionary is returned. -/
def SameResult (r₁ r₂ : Except PythonException (D String Value)) : Prop :=
  ∃ d₁ d₂, r₁ = .ok d₁ ∧ r₂ = .ok d₂ ∧ ∀ key, get? d₁ key = get? d₂ key

/-- The order has no influence exactly if all entries assign the same to `start`. -/
theorem timeSeries_perm_iff (h : ∀ f ∈ listdir, entry node entries f = .ok (result f)) :
    (∀ l₁ l₂, l₁.Perm listdir → l₂.Perm listdir →
        SameResult (timeSeries D node entries l₁) (timeSeries D node entries l₂)) ↔
      ∀ f ∈ listdir, ∀ g ∈ listdir, ∀ x y, (result f).map Prod.fst = some x →
        (result g).map Prod.fst = some y → x = y := by
  have hperm : ∀ l : List String, l.Perm listdir → ∀ f ∈ l, entry node entries f = .ok (result f) :=
    fun l hl f hf => h f (hl.mem_iff.mp hf)
  rw [← lastValue_perm_iff _ (ofInt 0)]
  constructor
  · -- what is stored as the origin is the last value of the loop variable
    intro hall l₁ l₂ hl₁ hl₂
    obtain ⟨d₁, d₂, hd₁, hd₂, hsame⟩ := hall l₁ l₂ hl₁ hl₂
    obtain ⟨d₁', hd₁', hstart₁, -⟩ := exists_timeSeries (D := D) (hperm l₁ hl₁)
    obtain ⟨d₂', hd₂', hstart₂, -⟩ := exists_timeSeries (D := D) (hperm l₂ hl₂)
    obtain rfl := Except.ok.inj (hd₁.symm.trans hd₁')
    obtain rfl := Except.ok.inj (hd₂.symm.trans hd₂')
    have hstart := hsame "start"
    rw [hstart₁, hstart₂] at hstart
    exact Value.start.inj (Option.some.inj hstart)
  · intro hlast l₁ l₂ hl₁ hl₂
    obtain ⟨d₁, hd₁, hstart₁, hget₁⟩ := exists_timeSeries (D := D) (hperm l₁ hl₁)
    obtain ⟨d₂, hd₂, hstart₂, hget₂⟩ := exists_timeSeries (D := D) (hperm l₂ hl₂)
    refine ⟨d₁, d₂, hd₁, hd₂, fun key => ?_⟩
    by_cases hkey : key = "start"
    · rw [hkey, hstart₁, hstart₂, hlast l₁ l₂ hl₁ hl₂]
    · simp only [hget₁ key hkey, hget₂ key hkey, hl₁.mem_iff, hl₂.mem_iff]

end Contributions

/-! ## What is read of the files -/

/-- A file with at least one line of data, all of which are numbers. -/
def WellFormedData (content : List String) : Prop :=
  ∃ header first lines, content = header :: first :: lines ∧
    ∀ x ∈ first :: lines, ∃ z, int x = some z ∧ (ofInt z).isFinite = true

/-- The value in the last line that has the key. -/
def keyText (content : List String) (key : String) : Option String :=
  lastValue (fun line =>
    match parts line with
    | [key', value] => if key' = key then some (some value) else none
    | _ => none) none content

/-- A file with the two keys that are looked up. -/
def WellFormedKeys (content : List String) : Prop :=
  ∀ key ∈ ["startbenchmark", "endbenchmark"], ∃ text x,
    keyText content key = some text ∧ float text = some x

theorem get?_processKeyFile (content : List String) (key : String) :
    get? (processKeyFile content : D String String) key = keyText content key := by
  -- a line with the key replaces the value of earlier ones, whatever has been read before
  have hloop : ∀ data : D String String, get? (content.foldl (fun data line =>
      match parts line with
      | [key, value] => put data key value
      | _ => data) data) key = lastValue (fun line =>
      match parts line with
      | [key', value] => if key' = key then some (some value) else none
      | _ => none) (get? data key) content := by
    induction content with
    | nil => exact fun data => rfl
    | cons line content ih =>
      intro data
      rw [List.foldl_cons, ih, lastValue, lastValue, List.foldl_cons]
      congr 1
      split
      · next key' value _ =>
        rw [get?_put]
        by_cases hkey : key' = key
        · rw [if_pos hkey, if_pos hkey.symm]
          rfl
        · rw [if_neg hkey, if_neg (Ne.symm hkey)]
          rfl
      · rfl
  rw [processKeyFile, hloop, get?_empty]
  rfl

theorem floatAt_processKeyFile {content : List String} {key text : String} {x : Float}
    (htext : keyText content key = some text) (hx : float text = some x) :
    floatAt (processKeyFile content : D String String) key = .ok x := by
  rw [floatAt, get?_processKeyFile, htext]
  simp only [hx]

theorem dividedInt_eq {x : String} {z : ℤ} (hz : int x = some z)
    (hfinite : (ofInt z).isFinite = true) : dividedInt x = .ok (ofInt z / 1000.0) := by
  simp only [dividedInt, hz, hfinite, if_true]

theorem exists_mapM_dividedInt {lines : List String}
    (h : ∀ x ∈ lines, ∃ z, int x = some z ∧ (ofInt z).isFinite = true) :
    ∃ xs, lines.mapM dividedInt = .ok xs := by
  induction lines with
  | nil => exact ⟨[], rfl⟩
  | cons x lines ih =>
    obtain ⟨z, hz, hfinite⟩ := h x List.mem_cons_self
    obtain ⟨xs, hxs⟩ := ih fun y hy => h y (List.mem_cons_of_mem x hy)
    exact ⟨ofInt z / 1000.0 :: xs, by rw [List.mapM_cons, dividedInt_eq hz hfinite, hxs]; rfl⟩

/-- The data of a file, of which the first number is known. -/
theorem exists_processDataFile {content : List String} (h : WellFormedData content) :
    ∃ first z xs, content[1]? = some first ∧ int first = some z ∧
      processDataFile content = .ok (ofInt z / 1000.0 :: xs) := by
  obtain ⟨header, first, lines, rfl, hlines⟩ := h
  obtain ⟨z, hz, hfinite⟩ := hlines first List.mem_cons_self
  obtain ⟨xs, hxs⟩ := exists_mapM_dividedInt fun x hx => hlines x (List.mem_cons_of_mem first hx)
  refine ⟨first, z, xs, rfl, hz, ?_⟩
  rw [processDataFile, List.drop_succ_cons, List.drop_zero, List.mapM_cons,
    dividedInt_eq hz hfinite, hxs]
  rfl

/-- The files of a node that are there are well formed. -/
structure WellFormed (directory : Directory) : Prop where
  latencies : ∀ content, directory "raw-latency-data" = some content → WellFormedData content
  times : ∀ content, directory "raw-timestamp-data" = some content → WellFormedData content
  keys : ∀ content, directory "timestamps" = some content → WellFormedKeys content

/-- The first timestamp in seconds of a directory that `loadTimeSeriesLatencies` does not skip. -/
def firstTimestamp (directory : Directory) : Option Float := do
  let _ ← directory "raw-latency-data"
  let content ← directory "raw-timestamp-data"
  let first ← content[1]?
  let z ← int first
  return ofInt z / 1000.0

/-- The start of the benchmark in a directory that `calculateTimeSeriesLatencies` does not skip. -/
def startBenchmark (directory : Directory) : Option Float := do
  let _ ← directory "raw-latency-data"
  let content ← directory "timestamps"
  let text ← keyText content "startbenchmark"
  float text

section Nodes

variable {directory : Directory} {entries : String → Option Directory} {listdir : List String}

theorem exists_loadNode (h : WellFormed directory) :
    ∃ r, loadNode directory = .ok r ∧ r.map Prod.fst = firstTimestamp directory := by
  unfold loadNode firstTimestamp
  cases hlatencies : directory "raw-latency-data" with
  | none => exact ⟨none, rfl, rfl⟩
  | some latencyLines =>
    cases htimes : directory "raw-timestamp-data" with
    | none => exact ⟨none, rfl, rfl⟩
    | some timestampLines =>
      obtain ⟨_, _, data, -, -, hdata⟩ := exists_processDataFile (h.latencies _ hlatencies)
      obtain ⟨first, z, times, hfirst, hz, htimedata⟩ := exists_processDataFile (h.times _ htimes)
      dsimp only
      rw [hdata, htimedata]
      refine ⟨_, rfl, ?_⟩
      simp [hfirst, hz]

theorem exists_calculateNode (h : WellFormed directory) :
    ∃ r, calculateNode D directory = .ok r ∧ r.map Prod.fst = startBenchmark directory := by
  unfold calculateNode startBenchmark
  cases hlatencies : directory "raw-latency-data" with
  | none => exact ⟨none, rfl, rfl⟩
  | some latencyLines =>
    obtain ⟨_, _, data, -, -, hdata⟩ := exists_processDataFile (h.latencies _ hlatencies)
    dsimp only
    rw [hdata]
    cases hkeys : directory "timestamps" with
    | none => exact ⟨none, rfl, rfl⟩
    | some keyLines =>
      obtain ⟨text, x, htext, hx⟩ := h.keys _ hkeys "startbenchmark" (by simp)
      obtain ⟨text', x', htext', hx'⟩ := h.keys _ hkeys "endbenchmark" (by simp)
      refine ⟨some (x, _), Run.bind_eq_ok_iff.mpr ⟨_, rfl, Run.bind_eq_ok_iff.mpr
        ⟨x, ?_, Run.bind_eq_ok_iff.mpr ⟨x', ?_, rfl⟩⟩⟩, ?_⟩
      · exact floatAt_processKeyFile htext hx
      · exact floatAt_processKeyFile htext' hx'
      · simp [htext, hx]

/-- What the entries contribute if all directories are well formed. -/
theorem exists_entries {node : Directory → Except PythonException (Option (Float × Value))}
    {start : Directory → Option Float}
    (hnode : ∀ directory, WellFormed directory →
      ∃ r, node directory = .ok r ∧ r.map Prod.fst = start directory)
    (h : ∀ f ∈ listdir, ∀ directory, entries f = some directory → WellFormed directory) :
    ∃ result : String → Option (Float × Value), ∀ f ∈ listdir,
      entry node entries f = .ok (result f) ∧ (result f).map Prod.fst = (entries f).bind start := by
  have hentry : ∀ f, f ∈ listdir → ∃ r : Option (Float × Value),
      entry node entries f = .ok r ∧ r.map Prod.fst = (entries f).bind start := by
    intro f hf
    unfold entry
    cases hdirectory : entries f with
    | none => exact ⟨none, rfl, rfl⟩
    | some directory => exact hnode directory (h f hf directory hdirectory)
  -- the contribution of an entry depends on its name only
  choose! result hresult using hentry
  exact ⟨result, hresult⟩

end Nodes

/-! ## The files of a reader -/

section WrittenAt

variable {t : Int64} {directory : Directory}

/-- A directory with the files of a reader that has read something, for the first time at `t`, which
is also the time when its benchmark has started. -/
def WrittenAt (t : Int64) (directory : Directory) : Prop :=
  ∃ (form : OneDecForm) (header : String → String) (node : ReaderNode) (before : Directory),
    1 ≤ node.totalRead ∧ node.timestamps.head? = some t ∧ node.startBenchmark = t ∧
    ∀ name ∈ ["raw-latency-data", "raw-timestamp-data", "timestamps"],
      directory name = (exec (node.postProcessResults form header) before).2 name

theorem wellFormedData_repr (header : String) {values : List Int64} (hpos : values ≠ []) :
    WellFormedData (header :: values.map fun value => value.toInt.repr) := by
  obtain ⟨first, values, rfl⟩ := List.exists_cons_of_ne_nil hpos
  refine ⟨header, first.toInt.repr, values.map fun value => value.toInt.repr, rfl, ?_⟩
  intro x hx
  rw [← List.map_cons (f := fun value : Int64 => value.toInt.repr)] at hx
  obtain ⟨value, -, rfl⟩ := List.mem_map.mp hx
  exact ⟨value.toInt, int_repr _, (StatUtils.within_doubleValue value).isFinite⟩

theorem parts_line {key : String} (hkey : '=' ∉ key.toList) (z : ℤ) :
    parts (key ++ "=" ++ z.repr) = [key, z.repr] := by
  have hz := Text.not_mem_int_repr (c := '=') rfl (by decide) z
  have htext : (key ++ "=" ++ z.repr).toList = key.toList ++ '=' :: z.repr.toList := by simp
  rw [parts, htext, List.splitOn_append_cons_self_of_not_mem hkey,
    List.splitOn_eq_singleton hz]
  simp

/-- A line at the end of a file. -/
theorem keyText_concat (content : List String) {key : String} (hkey : '=' ∉ key.toList) (z : ℤ)
    (key' : String) : keyText (content ++ [key ++ "=" ++ z.repr]) key' =
      if key = key' then some z.repr else keyText content key' := by
  rw [keyText, lastValue_concat, parts_line hkey]
  simp only
  split <;> rfl

/-- The two keys in the file `timestamps`. -/
theorem keyText_timestampLines (header : String) (node : ReaderNode) :
    keyText (header :: node.timestampLines) "startbenchmark" =
        some node.startBenchmark.toInt.repr ∧
      keyText (header :: node.timestampLines) "endbenchmark" =
        some node.endBenchmark.toInt.repr := by
  have hlines : header :: node.timestampLines =
      [header, "startwarmup=" ++ node.startWarmupTime.toInt.repr,
        "endwarmup=" ++ node.endWarmupTime.toInt.repr] ++
        ["startbenchmark" ++ "=" ++ node.startBenchmark.toInt.repr] ++
        ["endbenchmark" ++ "=" ++ node.endBenchmark.toInt.repr] := rfl
  rw [hlines, keyText_concat _ (by decide), keyText_concat _ (by decide),
    keyText_concat _ (by decide)]
  exact ⟨rfl, rfl⟩

/-- The three files that are read. -/
theorem WrittenAt.exists_files (h : WrittenAt t directory) :
    ∃ (header : String → String) (node : ReaderNode) (values times : List Int64),
      values ≠ [] ∧ node.startBenchmark = t ∧
      directory "raw-latency-data" = some (header "raw-latency-data" ::
        values.map fun value => value.toInt.repr) ∧
      directory "raw-timestamp-data" = some (header "raw-timestamp-data" ::
        (t :: times).map fun time => time.toInt.repr) ∧
      directory "timestamps" = some (header "timestamps" :: node.timestampLines) := by
  obtain ⟨form, header, node, before, hpos, hfirst, hstart, hfiles⟩ := h
  obtain ⟨-, hlatencies, -, htimes, -, -, hkeys⟩ :=
    ReaderNode.reports_of_pos form header hpos before
  obtain ⟨values, hvalues, hlength⟩ := node.exists_receivedLatencies
  obtain ⟨times, htimestamps⟩ := List.head?_eq_some_iff.mp hfirst
  refine ⟨header, node, values, times.take (node.totalRead - 1), ?_, hstart, ?_, ?_, ?_⟩
  · rintro rfl
    rw [List.length_nil] at hlength
    omega
  · rw [hfiles _ (by simp), hlatencies, ReaderNode.latencyLines, hvalues, List.map_map]
    rfl
  · obtain ⟨n, hn⟩ : ∃ n, node.totalRead = n + 1 := ⟨node.totalRead - 1, by omega⟩
    rw [hfiles _ (by simp), htimes, ReaderNode.timeLines, htimestamps, hn, List.take_succ_cons,
      Nat.add_sub_cancel]
  · rw [hfiles _ (by simp), hkeys]

theorem natAbs_toInt_lt (value : Int64) : value.toInt.natAbs < 2 ^ 64 := by
  have hle := value.le_toInt
  have hlt := value.toInt_lt
  omega

theorem WrittenAt.wellFormed (h : WrittenAt t directory) : WellFormed directory := by
  obtain ⟨header, node, values, times, hne, -, hlatencies, htimes, hkeys⟩ := h.exists_files
  obtain ⟨hstart, hend⟩ := keyText_timestampLines (header "timestamps") node
  refine ⟨fun content hcontent => ?_, fun content hcontent => ?_, fun content hcontent => ?_⟩
  · obtain rfl := Option.some.inj (hlatencies.symm.trans hcontent)
    exact wellFormedData_repr _ hne
  · obtain rfl := Option.some.inj (htimes.symm.trans hcontent)
    exact wellFormedData_repr _ (List.cons_ne_nil _ _)
  · obtain rfl := Option.some.inj (hkeys.symm.trans hcontent)
    intro key hkey
    simp only [List.mem_cons, List.not_mem_nil, or_false] at hkey
    rcases hkey with rfl | rfl
    · exact ⟨_, _, hstart, float_repr (natAbs_toInt_lt _)⟩
    · exact ⟨_, _, hend, float_repr (natAbs_toInt_lt _)⟩

/-- The first function divides the time by 1000. -/
theorem WrittenAt.firstTimestamp (h : WrittenAt t directory) :
    firstTimestamp directory = some (ofInt t.toInt / 1000.0) := by
  obtain ⟨header, node, values, times, -, -, hlatencies, htimes, -⟩ := h.exists_files
  rw [ExperimentReader.firstTimestamp, hlatencies, htimes]
  simp [int_repr]

/-- The second one does not. -/
theorem WrittenAt.startBenchmark (h : WrittenAt t directory) :
    startBenchmark directory = some (ofInt t.toInt) := by
  obtain ⟨header, node, values, times, -, rfl, hlatencies, -, hkeys⟩ := h.exists_files
  rw [ExperimentReader.startBenchmark, hlatencies, hkeys]
  simp [(keyText_timestampLines (header "timestamps") node).1,
    float_repr (natAbs_toInt_lt node.startBenchmark)]

variable {entries : String → Option Directory} {listdir : List String}

variable (D) in
/-- Both functions return, and with the same origin. -/
def SameOrigin (entries : String → Option Directory) (listdir : List String) : Prop :=
  ∃ loaded calculated origin, loadTimeSeriesLatencies D entries listdir = .ok loaded ∧
    calculateTimeSeriesLatencies D entries listdir = .ok calculated ∧
    get? loaded "start" = some (.start origin) ∧ get? calculated "start" = some (.start origin)

/-- The origin of a function in such directories. -/
theorem exists_origin {node : Directory → Except PythonException (Option (Float × Value))}
    {start : Directory → Option Float} {w : Float}
    (hnode : ∀ directory, WellFormed directory →
      ∃ r, node directory = .ok r ∧ r.map Prod.fst = start directory)
    (hstart : ∀ directory, WrittenAt t directory → start directory = some w)
    (h : ∀ f ∈ listdir, ∀ directory, entries f = some directory → WrittenAt t directory) :
    ∃ d, timeSeries D node entries listdir = .ok d ∧ get? d "start" = some (.start
      (if ∀ f ∈ listdir, entries f = none then ofInt 0 else w)) := by
  obtain ⟨result, hresult⟩ := exists_entries hnode fun f hf directory hdirectory =>
    (h f hf directory hdirectory).wellFormed
  obtain ⟨d, hd, horigin, -⟩ := exists_timeSeries (D := D) fun f hf => (hresult f hf).1
  refine ⟨d, hd, ?_⟩
  rw [horigin]
  congr 2
  split
  · next hnone =>
    exact lastValue_of_none fun f hf => by rw [(hresult f hf).2, hnone f hf]; rfl
  · next hsome =>
    push Not at hsome
    obtain ⟨f, hf, hne⟩ := hsome
    obtain ⟨directory, hdirectory⟩ := Option.ne_none_iff_exists'.mp hne
    refine lastValue_of_const hf ?_ fun g hg w' hw' => ?_
    · rw [(hresult f hf).2, hdirectory]
      exact hstart directory (h f hf directory hdirectory)
    · rw [(hresult g hg).2] at hw'
      obtain ⟨directory', hdirectory', hw'⟩ := Option.bind_eq_some_iff.mp hw'
      rw [hstart directory' (h g hg directory' hdirectory')] at hw'
      exact (Option.some.inj hw').symm

theorem atLeast_thousand : AtLeast 2 (1000.0 : Float).toModel.unpack := by
  have hunpack : (1000.0 : Float).toModel.unpack =
      .finite .positive (125 * 2 ^ 46) (-43) (by norm_num) := by rfl
  rw [hunpack]
  norm_num [AtLeast]

/-- The two origins are compared. -/
theorem sameOrigin_iff_eq
    (h : ∀ f ∈ listdir, ∀ directory, entries f = some directory → WrittenAt t directory) :
    SameOrigin D entries listdir ↔
      (if ∀ f ∈ listdir, entries f = none then ofInt 0 else ofInt t.toInt / 1000.0) =
        if ∀ f ∈ listdir, entries f = none then ofInt 0 else ofInt t.toInt := by
  obtain ⟨loaded, hloaded, hstart⟩ := exists_origin (D := D) (fun _ => exists_loadNode)
    (fun _ => WrittenAt.firstTimestamp) h
  obtain ⟨calculated, hcalculated, hstart'⟩ := exists_origin (D := D)
    (fun _ => exists_calculateNode (D := D)) (fun _ => WrittenAt.startBenchmark) h
  constructor
  · rintro ⟨d, d', origin, hd, hd', horigin, horigin'⟩
    obtain rfl := Except.ok.inj (hd.symm.trans hloaded)
    obtain rfl := Except.ok.inj (hd'.symm.trans hcalculated)
    exact (Value.start.inj (Option.some.inj (hstart.symm.trans horigin))).trans
      (Value.start.inj (Option.some.inj (horigin'.symm.trans hstart')))
  · intro heq
    exact ⟨loaded, calculated, _, hloaded, hcalculated, hstart, by rw [hstart', heq]⟩

variable (D) in
/-- The two functions agree on the origin only if there is no node, or at the beginning of the
epoch. -/
theorem sameOrigin_iff (entries : String → Option Directory) (listdir : List String) (t : Int64)
    (h : ∀ f ∈ listdir, ∀ directory, entries f = some directory → WrittenAt t directory) :
    SameOrigin D entries listdir ↔ (∀ f ∈ listdir, entries f = none) ∨ t = 0 := by
  rw [sameOrigin_iff_eq h]
  by_cases hnone : ∀ f ∈ listdir, entries f = none
  · rw [if_pos hnone, if_pos hnone]
    exact iff_of_true rfl (.inl hnone)
  · rw [if_neg hnone, if_neg hnone]
    constructor
    · intro heq
      right
      -- a number other than zero is not its own thousandth part
      by_contra ht
      have hne : t.toInt ≠ 0 := fun hzero => ht (Int64.toInt_inj.mp hzero)
      exact ofInt_div_ne_self hne (natAbs_toInt_lt t) atLeast_thousand heq
    · rintro (hnone' | rfl)
      · exact absurd hnone' hnone
      · decide

/-- A reader with one read at the time `t`. -/
def oneRead (t : Int64) : ReaderNode :=
  { (ReaderNode.init 1 (by decide)).store (by decide) ⟨0, 5⟩ t with
    startBenchmark := t
    endBenchmark := t + 100 }

/-- Its files. -/
def oneReadDirectory (t : Int64) : Directory :=
  (exec ((oneRead t).postProcessResults ReaderNode.exactForm fun _ => "HOST") fun _ => none).2

theorem writtenAt_oneRead (t : Int64) : WrittenAt t (oneReadDirectory t) :=
  ⟨ReaderNode.exactForm, fun _ => "HOST", oneRead t, fun _ => none, le_rfl, rfl, rfl,
    fun _ _ => rfl⟩

theorem sameOrigin_epoch :
    SameOrigin AssocMap (fun _ => some (oneReadDirectory 0)) ["node1", "node2"] :=
  (sameOrigin_iff AssocMap (fun _ => some (oneReadDirectory 0)) ["node1", "node2"] 0
    fun _ _ _ hdirectory => Option.some.inj hdirectory ▸ writtenAt_oneRead 0).mpr (.inr rfl)

/-- A benchmark in the year 2015. -/
theorem not_sameOrigin_2015 :
    (∀ f ∈ ["node1"], ∀ directory, some (oneReadDirectory 1441000000000) = some directory →
      WrittenAt 1441000000000 directory) ∧
    ¬SameOrigin AssocMap (fun _ => some (oneReadDirectory 1441000000000)) ["node1"] := by
  have hwritten : ∀ f ∈ ["node1"], ∀ directory,
      some (oneReadDirectory 1441000000000) = some directory →
        WrittenAt 1441000000000 directory :=
    fun _ _ _ hdirectory => Option.some.inj hdirectory ▸ writtenAt_oneRead 1441000000000
  refine ⟨hwritten, ?_⟩
  rw [sameOrigin_iff_eq hwritten, if_neg (by simp), if_neg (by simp)]
  decide

end WrittenAt

/-! ## The order of the entries -/

section Order

variable {entries : String → Option Directory} {listdir : List String}

/-- All nodes that are not skipped start at the same time. -/
def SameStart (start : Directory → Option Float) (entries : String → Option Directory)
    (listdir : List String) : Prop :=
  ∀ f ∈ listdir, ∀ g ∈ listdir, ∀ x y, (entries f).bind start = some x →
    (entries g).bind start = some y → x = y

theorem timeSeries_perm_iff_sameStart
    {node : Directory → Except PythonException (Option (Float × Value))}
    {start : Directory → Option Float}
    (hnode : ∀ directory, WellFormed directory →
      ∃ r, node directory = .ok r ∧ r.map Prod.fst = start directory)
    (h : ∀ f ∈ listdir, ∀ directory, entries f = some directory → WellFormed directory) :
    (∀ l₁ l₂, l₁.Perm listdir → l₂.Perm listdir →
        SameResult (timeSeries D node entries l₁) (timeSeries D node entries l₂)) ↔
      SameStart start entries listdir := by
  obtain ⟨result, hresult⟩ := exists_entries hnode h
  rw [timeSeries_perm_iff fun f hf => (hresult f hf).1]
  constructor
  · intro hsame f hf g hg x y hx hy
    exact hsame f hf g hg x y ((hresult f hf).2.trans hx) ((hresult g hg).2.trans hy)
  · intro hsame f hf g hg x y hx hy
    exact hsame f hf g hg x y ((hresult f hf).2.symm.trans hx) ((hresult g hg).2.symm.trans hy)

variable (D) in
/-- Both functions return the same dictionary for every order of the entries. -/
def OrderIndependent (entries : String → Option Directory) (listdir : List String) : Prop :=
  ∀ l₁ l₂, l₁.Perm listdir → l₂.Perm listdir →
    SameResult (loadTimeSeriesLatencies D entries l₁) (loadTimeSeriesLatencies D entries l₂) ∧
    SameResult (calculateTimeSeriesLatencies D entries l₁)
      (calculateTimeSeriesLatencies D entries l₂)

variable (D) in
/-- The order has no influence exactly if the nodes start at the same time, for each function in the
file that it reads it from. -/
theorem order_independent_iff (entries : String → Option Directory) (listdir : List String)
    (h : ∀ f ∈ listdir, ∀ directory, entries f = some directory → WellFormed directory) :
    OrderIndependent D entries listdir ↔
      SameStart firstTimestamp entries listdir ∧ SameStart startBenchmark entries listdir := by
  rw [← timeSeries_perm_iff_sameStart (D := D) (fun _ => exists_loadNode) h,
    ← timeSeries_perm_iff_sameStart (D := D) (fun _ => exists_calculateNode (D := D)) h]
  constructor
  · intro hboth
    exact ⟨fun l₁ l₂ hl₁ hl₂ => (hboth l₁ l₂ hl₁ hl₂).1,
      fun l₁ l₂ hl₁ hl₂ => (hboth l₁ l₂ hl₁ hl₂).2⟩
  · rintro ⟨hload, hcalculate⟩ l₁ l₂ hl₁ hl₂
    exact ⟨hload l₁ l₂ hl₁ hl₂, hcalculate l₁ l₂ hl₁ hl₂⟩

/-- Two nodes with the same start. -/
theorem orderIndependent_sameStart :
    OrderIndependent AssocMap (fun _ => some (oneReadDirectory 1441000000000))
      ["node1", "node2"] :=
  (order_independent_iff AssocMap (fun _ => some (oneReadDirectory 1441000000000))
    ["node1", "node2"] fun _ _ _ hdirectory =>
      Option.some.inj hdirectory ▸ (writtenAt_oneRead 1441000000000).wellFormed).mpr
    ⟨fun _ _ _ _ _ _ hx hy => Option.some.inj (hx.symm.trans hy),
      fun _ _ _ _ _ _ hx hy => Option.some.inj (hx.symm.trans hy)⟩

/-- Two nodes of which one starts after a second. -/
def delayed (f : String) : Option Directory :=
  some (oneReadDirectory (if f = "node1" then 1441000000000 else 1441000001000))

theorem not_orderIndependent_delayed :
    (∀ f ∈ ["node1", "node2"], ∀ directory, delayed f = some directory → WellFormed directory) ∧
    ¬OrderIndependent AssocMap delayed ["node1", "node2"] := by
  have hwell : ∀ f ∈ ["node1", "node2"], ∀ directory, delayed f = some directory →
      WellFormed directory :=
    fun _ _ _ hdirectory => Option.some.inj hdirectory ▸ (writtenAt_oneRead _).wellFormed
  refine ⟨hwell, fun hindependent => ?_⟩
  have hsame := (timeSeries_perm_iff_sameStart (D := AssocMap) (fun _ => exists_loadNode)
    hwell).mp fun l₁ l₂ hl₁ hl₂ => (hindependent l₁ l₂ hl₁ hl₂).1
  -- the origins of the two orders would be the same
  have hequal := hsame "node1" (by simp) "node2" (by simp) _ _
    (writtenAt_oneRead 1441000000000).firstTimestamp
    (writtenAt_oneRead 1441000001000).firstTimestamp
  exact absurd hequal (by decide)

end Order

end ExperimentReader
