import StateTableBench.Collections.Grouping
import StateTableBench.DataAnalysis.TimeSeries

/-!
# Reading the logs of JMX

Each line of a log has the dotted name of a value, the value and a time in milliseconds
(`jmxlogreader.py`). `readKeyLog` makes a list of samples for each key, which is the end of the
name.

* `readKeyLog_eq_ok` — a log of well-formed lines is read without an exception;
* `Grouping.Groups.perm_flatMap_entries` applies to what is read: no sample is lost or doubled.
-/

open FiniteMap Grouping Text.Numerals

open ExperimentReader (PythonException)

namespace JmxLogReader

/-- A number of Python. -/
inductive Number
  | long (z : ℤ)
  | float (x : Float)

/-- A time and a value. -/
abbrev Sample := Number × Number

variable {D : Type → Type → Type} [FiniteMap D]

/-! ## Lines -/

/-- `list[start:]` -/
def sliceFrom {α : Type} (list : List α) (start : ℤ) : List α :=
  -- a negative index counts from the end, and stops at the beginning
  list.drop (if start < 0 then list.length + start else start).toNat

/-- `line.strip("\n").split("\t")` -/
def lineParts (line : String) : List String :=
  let isNewline := fun c : Char => decide (c = '\n')
  (((line.toList.dropWhile isNewline).rdropWhile isNewline).splitOn '\t').map String.ofList

/-- `'.'.join(name.split(".")[-name_length:])` -/
def keyOf (nameLength : ℤ) (name : String) : String :=
  ".".intercalate (sliceFrom ((name.toList.splitOn '.').map String.ofList) (-nameLength))

/-- The text of a `long` may have blanks after its sign, and an `L` at its end. -/
def long (text : String) : Option ℤ :=
  let text := strip text.toList
  let number := if text.getLast? = some 'L' ∨ text.getLast? = some 'l' then text.dropLast else text
  signed (fun unsigned => (digits (unsigned.dropWhile isspace)).map Int.ofNat) number

/-- `(long(parts[2]), float(parts[1]))` -/
def sampleOf (parts : List String) : Except PythonException Sample :=
  match parts[2]? with
  | none => .error .indexError
  | some time =>
    match long time, float (parts.getD 1 "") with
    | some t, some x => .ok (.long t, .float x)
    | _, _ => .error .valueError

/-! ## The loop -/

/-- The body of the loop of `readKeyLog`. -/
def readLine (keys : List String) (nameLength : ℤ) (data : D String (List Sample))
    (line : String) : Except PythonException (D String (List Sample)) :=
  let parts := lineParts line
  let key := keyOf nameLength (parts.headD "")
  if keys.length = 0 ∨ key ∈ keys then do
    let data := if (get? data key).isNone then put data key [] else data
    let sample ← sampleOf parts
    return put data key ((get? data key).getD [] ++ [sample])
  else .ok data

variable (D) in
/-- `readKeyLog`, for the lines of the file. -/
def readKeyLog (content keys : List String) (nameLength : ℤ) :
    Except PythonException (D String (List Sample)) :=
  content.foldlM (readLine keys nameLength) empty

/-! ## Well-formed logs -/

/-- A line with a name, a value and a time. -/
def WellFormed (line : String) : Prop :=
  ∃ name value time rest x t, lineParts line = name :: value :: time :: rest ∧
    float value = some x ∧ long time = some t

/-- The key and the sample of a line. -/
def entryOf (nameLength : ℤ) (line : String) : Option (String × Sample) :=
  (sampleOf (lineParts line)).toOption.map fun sample =>
    (keyOf nameLength ((lineParts line).headD ""), sample)

theorem WellFormed.exists_entryOf {line : String} (h : WellFormed line) (nameLength : ℤ) :
    ∃ entry, entryOf nameLength line = some entry := by
  obtain ⟨name, value, time, rest, x, t, hparts, hvalue, htime⟩ := h
  have hsample : sampleOf (lineParts line) = .ok (.long t, .float x) := by
    rw [sampleOf, hparts]
    simp [hvalue, htime]
  rw [entryOf, hsample]
  exact ⟨_, rfl⟩

/-- The key consists of the last parts of the name, as many of them as there are. -/
theorem exists_keyOf {nameLength : ℤ} (hpos : 1 ≤ nameLength) (name : String) :
    ∃ suffix, suffix <:+ (name.toList.splitOn '.').map String.ofList ∧
      suffix.length = min nameLength.toNat (name.toList.splitOn '.').length ∧
      keyOf nameLength name = ".".intercalate suffix := by
  refine ⟨_, List.drop_suffix _ _, ?_, rfl⟩
  rw [if_pos (by omega), List.length_drop, List.length_map]
  omega

/-- Making an empty list does not change what the list of a key is. -/
theorem getD_get?_newList (data : D String (List Sample)) (key : String) :
    (get? (if (get? data key).isNone then put data key [] else data) key).getD [] =
      (get? data key).getD [] := by
  split
  · next hnone =>
    rw [get?_put_self, Option.isNone_iff_eq_none.mp hnone]
    rfl
  · rfl

/-- A line without a filter extends the list of its key. -/
theorem readLine_nil_eq_ok {nameLength : ℤ} {line : String} {entry : String × Sample}
    (h : entryOf nameLength line = some entry) (data : D String (List Sample)) :
    ∃ data', readLine [] nameLength data line = .ok data' ∧
      ∀ key, get? data' key = if key = entry.1 then
          some ((get? data entry.1).getD [] ++ [entry.2]) else get? data key := by
  obtain ⟨sample, hsample, rfl⟩ := Option.map_eq_some_iff.mp h
  have hok : sampleOf (lineParts line) = .ok sample := by
    cases hparts : sampleOf (lineParts line) with
    | error e =>
      rw [hparts] at hsample
      cases hsample
    | ok sample' =>
      rw [hparts] at hsample
      exact congrArg Except.ok (Option.some.inj hsample)
  generalize hkey : keyOf nameLength ((lineParts line).headD "") = key
  rw [readLine, if_pos (.inl rfl)]
  simp only [hok, hkey]
  refine ⟨_, rfl, fun key' => ?_⟩
  rw [get?_put, getD_get?_newList]
  by_cases hk : key' = key
  · rw [if_pos hk, if_pos hk]
  · rw [if_neg hk, if_neg hk]
    split
    · exact get?_put_of_ne data key key' [] hk
    · rfl

/-- The lines of a log extend the groups that have been read before. -/
theorem foldlM_readLine_eq_ok {nameLength : ℤ} {content : List String}
    {entries before : List (String × Sample)}
    (hentries : content.map (entryOf nameLength) = entries.map some) {data : D String (List Sample)}
    (hdata : Groups data before) :
    ∃ data', content.foldlM (readLine [] nameLength) data = .ok data' ∧
      Groups data' (before ++ entries) := by
  induction content generalizing entries before data with
  | nil =>
    obtain rfl : entries = [] := by simpa using hentries.symm
    exact ⟨data, rfl, by rwa [List.append_nil]⟩
  | cons line content ih =>
    cases entries with
    | nil => cases hentries
    | cons entry entries =>
      rw [List.map_cons, List.map_cons] at hentries
      obtain ⟨hentry, hrest⟩ := List.cons.inj hentries
      obtain ⟨data₁, hfirst, hget⟩ := readLine_nil_eq_ok hentry data
      obtain ⟨data', hread, hgroups⟩ := ih hrest (hdata.append hget)
      refine ⟨data', ?_, ?_⟩
      · rw [List.foldlM_cons, hfirst]
        exact hread
      · rwa [List.append_assoc] at hgroups

/-- What is read of a log without a filter: the samples of its lines, grouped by their keys. -/
def ReadsGroups (D : Type → Type → Type) [FiniteMap D] (content : List String) (nameLength : ℤ) :
    Prop :=
  ∃ (data : D String (List Sample)) (entries : List (String × Sample)),
    readKeyLog D content [] nameLength = .ok data ∧
    content.map (entryOf nameLength) = entries.map some ∧ Groups data entries ∧
    ((FiniteMap.entries data).flatMap Prod.snd).Perm (entries.map Prod.snd)

variable (D) in
/-- A log of well-formed lines is read, and none of its samples is lost or doubled. -/
theorem readsGroups {content : List String} (h : ∀ line ∈ content, WellFormed line)
    (nameLength : ℤ) : ReadsGroups D content nameLength := by
  obtain ⟨entries, hentries⟩ : ∃ entries : List (String × Sample),
      content.map (entryOf nameLength) = entries.map some := by
    apply LatencyNodes.exists_eq_map_some
    intro entry hentry
    obtain ⟨line, hline, rfl⟩ := List.mem_map.mp hentry
    exact (h line hline).exists_entryOf nameLength
  obtain ⟨data, hread, hgroups⟩ := foldlM_readLine_eq_ok hentries (groups_empty (M := D))
  rw [List.nil_append] at hgroups
  exact ⟨data, entries, hread, hentries, hgroups, hgroups.perm_flatMap_entries⟩

end JmxLogReader
