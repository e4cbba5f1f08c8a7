import StateTableBench.DataAnalysis.NmonLog

/-!
# The sections of a log of nmon

The first line of a section has the names of its columns, and the other lines have a value for each
of them, which may be empty. Columns without a name are skipped.

`transposed`: `readNmonLog` returns the columns of each section.

`accepts_iff`: not every log is accepted, since there are keys for 25 processors only, and the keys
of the network are needed when disks are selected.
-/

open FiniteMap Text.Numerals

open ExperimentReader (PythonException)

namespace NmonLogReader

variable {D : Type → Type → Type} [FiniteMap D]

/-! ## One line -/

section Lines

variable {section_ section' : D String (List Cell)} {keys fields : List String} {key : String}

/-- The number in a field, or `None`. -/
def number (value : String) : Option Float := if value = "" then none else float value

/-- A field is empty or a number. -/
def IsNumber (value : String) : Prop := value ≠ "" → (float value).isSome = true

/-- A field becomes a cell exactly if it is a number. -/
theorem toCell_eq_ok_iff {value : String} {cell : Cell} :
    toCell value = .ok cell ↔ IsNumber value ∧ cell = .value (number value) := by
  unfold toCell IsNumber number
  by_cases h : value = ""
  · rw [if_pos h, if_pos h, Except.ok.injEq, eq_comm]
    exact (and_iff_right fun hne => absurd h hne).symm
  · rw [if_neg h, if_neg h]
    cases float value <;> simp [h, eq_comm]

/-- A cell is appended to the list of its key, which has to exist. -/
theorem appendTo_eq_ok_iff {cell : Except PythonException Cell} :
    appendTo section_ key cell = .ok section' ↔ ∃ list c, get? section_ key = some list ∧
      cell = .ok c ∧ section' = put section_ key (list ++ [c]) := by
  unfold appendTo
  cases get? section_ key with
  | none => simp
  | some list =>
    cases cell with
    | error e => exact iff_of_false nofun (by rintro ⟨_, _, -, h, -⟩; cases h)
    | ok c =>
      constructor
      · intro h
        cases h
        exact ⟨list, c, rfl, rfl, rfl⟩
      · rintro ⟨_, _, hlist, hc, rfl⟩
        cases hlist
        cases hc
        rfl

/-- A value and the name of its column. -/
def addColumn (section_ : D String (List Cell)) (column : String × String) :
    Except PythonException (D String (List Cell)) :=
  if column.1 = "" then .ok section_ else appendTo section_ column.1 (toCell column.2)

/-- The loop goes through the names and the values together. -/
theorem foldlM_addValue (keys fields : List String) (j : ℕ) (section_ : D String (List Cell))
    (hlength : fields.length ≤ (keys.drop j).length) :
    (fields.zipIdx j).foldlM (addValue keys) section_ =
      ((keys.drop j).zip fields).foldlM addColumn section_ := by
  -- the index of a value is that of its name, as long as there are names left
  induction fields generalizing j section_ with
  | nil => simp
  | cons value fields ih =>
    have hj : j < keys.length := by
      rw [List.length_drop, List.length_cons] at hlength
      omega
    have hstep : addValue keys section_ (value, j) = addColumn section_ (keys[j], value) := by
      simp [addValue, addColumn, hj]
    have hrest : fields.length ≤ (keys.drop (j + 1)).length := by
      rw [List.length_drop, List.length_cons] at *
      omega
    rw [List.zipIdx_cons, List.foldlM_cons, List.drop_eq_getElem_cons hj, List.zip_cons_cons,
      List.foldlM_cons, hstep]
    exact congrArg _ (funext fun s => ih (j + 1) s hrest)

/-- The values that are appended to a column. -/
def valuesOf (key : String) (columns : List (String × String)) : List Cell :=
  (columns.filter (·.1 = key)).map fun column => .value (number column.2)

/-- A line has no values for a name that no column has. -/
theorem valuesOf_of_notMem {header : List String} (h : key ∉ header) :
    valuesOf key (header.zip fields) = [] := by
  rw [valuesOf, List.map_eq_nil_iff, List.filter_eq_nil_iff]
  intro column hmem heq
  exact h (of_decide_eq_true heq ▸ (List.of_mem_zip hmem).1)

/-- Each column gets its own values. -/
theorem get?_foldlM_addColumn {columns : List (String × String)}
    (h : columns.foldlM addColumn section_ = .ok section') (hkey : key ≠ "") :
    get? section' key = (get? section_ key).map (· ++ valuesOf key columns) := by
  induction columns generalizing section_ with
  | nil =>
    cases h
    simp [valuesOf]
  | cons column columns ih =>
    obtain ⟨section₁, hcolumn, hrest⟩ := Run.bind_eq_ok_iff.mp h
    rw [ih hrest]
    unfold addColumn at hcolumn
    split at hcolumn
    · next hempty =>
      cases hcolumn
      rw [valuesOf, valuesOf, List.filter_cons_of_neg (by simpa [hempty] using hkey.symm)]
    · obtain ⟨list, cell, hlist, hcell, rfl⟩ := appendTo_eq_ok_iff.mp hcolumn
      obtain ⟨-, rfl⟩ := toCell_eq_ok_iff.mp hcell
      -- the value is appended to its own list and to no other
      by_cases heq : column.1 = key
      · subst heq
        rw [get?_put_self, hlist, valuesOf, valuesOf, List.filter_cons_of_pos (by simp)]
        simp
      · rw [get?_put_of_ne _ _ _ _ (Ne.symm heq), valuesOf, valuesOf,
          List.filter_cons_of_neg (by simpa using heq)]

/-- A line is accepted if its values are numbers. -/
theorem exists_foldlM_addColumn_iff {columns : List (String × String)}
    (hkeys : ∀ column ∈ columns, column.1 ≠ "" → (get? section_ column.1).isSome = true) :
    (∃ section', columns.foldlM addColumn section_ = .ok section') ↔
      ∀ column ∈ columns, column.1 ≠ "" → IsNumber column.2 := by
  induction columns generalizing section_ with
  | nil => exact iff_of_true ⟨section_, rfl⟩ nofun
  | cons column columns ih =>
    have hfirst : (∃ section₁, addColumn section_ column = .ok section₁) ↔
        (column.1 ≠ "" → IsNumber column.2) := by
      unfold addColumn
      split
      · next hempty => exact iff_of_true ⟨section_, rfl⟩ fun h => absurd hempty h
      · next hname =>
        obtain ⟨list, hlist⟩ :=
          Option.isSome_iff_exists.mp (hkeys column List.mem_cons_self hname)
        simp [appendTo_eq_ok_iff, toCell_eq_ok_iff, hlist, hname]
    -- no list is removed, so the names that follow are found too
    have hkept : ∀ section₁, addColumn section_ column = .ok section₁ → ∀ column' ∈ columns,
        column'.1 ≠ "" → (get? section₁ column'.1).isSome = true := by
      intro section₁ h₁ column' hmem hname
      have hone : [column].foldlM addColumn section_ = .ok section₁ :=
        Run.bind_eq_ok_iff.mpr ⟨section₁, h₁, rfl⟩
      rw [get?_foldlM_addColumn hone hname, Option.isSome_map]
      exact hkeys column' (List.mem_cons_of_mem _ hmem) hname
    rw [List.forall_mem_cons, ← hfirst]
    constructor
    · rintro ⟨section', h⟩
      obtain ⟨section₁, h₁, hrest⟩ := Run.bind_eq_ok_iff.mp h
      exact ⟨⟨section₁, h₁⟩, (ih (hkept section₁ h₁)).mp ⟨section', hrest⟩⟩
    · rintro ⟨⟨section₁, h₁⟩, hrest⟩
      obtain ⟨section', h'⟩ := (ih (hkept section₁ h₁)).mpr hrest
      exact ⟨section', Run.bind_eq_ok_iff.mpr ⟨section₁, h₁, h'⟩⟩

end Lines

/-! ## All lines of a section -/

section Rows

variable {section_ section' : D String (List Cell)} {header fields : List String} {key : String}
variable {rest : List (List String)}

/-- The cells that a data line appends to the list under a key. -/
def cellsOf (header : List String) (key : String) (fields : List String) : List Cell :=
  (if key = "raw" then [.row fields] else []) ++ valuesOf key (header.zip fields)

/-- There is a list for each name and for the fields of the lines. -/
def HasColumns (header : List String) (section_ : D String (List Cell)) : Prop :=
  (get? section_ "raw").isSome = true ∧
    ∀ key ∈ header, key ≠ "" → (get? section_ key).isSome = true

/-- The values in the named columns of a line are numbers. -/
def Numeric (header fields : List String) : Prop :=
  ∀ column ∈ header.zip fields, column.1 ≠ "" → IsNumber column.2

/-- When a data line is read, and into what. -/
theorem processSection_eq_ok_iff (hlength : fields.length = header.length) {keys : List String} :
    processSection (some section_) fields header = .ok (section', keys) ↔
      keys = header ∧ ∃ list, get? section_ "raw" = some list ∧
        (header.zip fields).foldlM addColumn (put section_ "raw" (list ++ [.row fields])) =
          .ok section' := by
  rw [processSection]
  constructor
  · intro h
    obtain ⟨section₁, hraw, hrest⟩ := Run.bind_eq_ok_iff.mp h
    obtain ⟨section₂, hfold, hreturn⟩ := Run.bind_eq_ok_iff.mp hrest
    cases hreturn
    obtain ⟨list, cell, hlist, hcell, rfl⟩ := appendTo_eq_ok_iff.mp hraw
    cases hcell
    rw [foldlM_addValue header fields 0 _ hlength.le, List.drop_zero] at hfold
    exact ⟨rfl, list, hlist, hfold⟩
  · rintro ⟨rfl, list, hlist, hfold⟩
    refine Run.bind_eq_ok_iff.mpr ⟨_, appendTo_eq_ok_iff.mpr ⟨list, _, hlist, rfl, rfl⟩,
      Run.bind_eq_ok_iff.mpr ⟨section', ?_, rfl⟩⟩
    rw [foldlM_addValue keys fields 0 _ hlength.le, List.drop_zero]
    exact hfold

/-- A data line adds its cell to each column. -/
theorem get?_processSection (hlength : fields.length = header.length) {keys : List String}
    (h : processSection (some section_) fields header = .ok (section', keys)) (hkey : key ≠ "") :
    get? section' key = (get? section_ key).map (· ++ cellsOf header key fields) := by
  obtain ⟨-, list, hlist, hfold⟩ := (processSection_eq_ok_iff hlength).mp h
  rw [get?_foldlM_addColumn hfold hkey, cellsOf]
  -- the fields of the line are appended to `raw` before the values are
  by_cases hraw : key = "raw"
  · subst hraw
    simp [hlist]
  · rw [get?_put_of_ne _ _ _ _ hraw, if_neg hraw, List.nil_append]

/-- A data line is accepted exactly if its values are numbers. -/
theorem exists_processSection_iff (hlength : fields.length = header.length)
    (hcolumns : HasColumns header section_) :
    (∃ result, processSection (some section_) fields header = .ok result) ↔
      Numeric header fields := by
  obtain ⟨list, hlist⟩ := Option.isSome_iff_exists.mp hcolumns.1
  have hkeys : ∀ column ∈ header.zip fields, column.1 ≠ "" →
      (get? (put section_ "raw" (list ++ [.row fields])) column.1).isSome = true := by
    intro column hmem hname
    rw [get?_put]
    split
    · rfl
    · exact hcolumns.2 column.1 (List.of_mem_zip hmem).1 hname
  rw [Numeric, ← exists_foldlM_addColumn_iff hkeys]
  constructor
  · rintro ⟨⟨section', keys⟩, h⟩
    obtain ⟨-, list', hlist', hfold⟩ := (processSection_eq_ok_iff hlength).mp h
    obtain rfl := Option.some.inj (hlist.symm.trans hlist')
    exact ⟨section', hfold⟩
  · rintro ⟨section', hfold⟩
    exact ⟨_, (processSection_eq_ok_iff hlength).mpr ⟨rfl, list, hlist, hfold⟩⟩

/-- A data line adds no column. -/
theorem HasColumns.processSection (hcolumns : HasColumns header section_)
    (hlength : fields.length = header.length) {keys : List String}
    (h : processSection (some section_) fields header = .ok (section', keys)) :
    HasColumns header section' := by
  refine ⟨?_, fun key hmem hkey => ?_⟩
  · rw [get?_processSection hlength h (by decide), Option.isSome_map]
    exact hcolumns.1
  · rw [get?_processSection hlength h hkey, Option.isSome_map]
    exact hcolumns.2 key hmem hkey

/-- The data lines append their cells one after the other. -/
theorem get?_foldlM_advance {v : Option (D String (List Cell)) × Option (List String)}
    (hlength : ∀ fields ∈ rest, fields.length = header.length)
    (h : rest.foldlM advance (some section_, some header) = .ok v) :
    ∃ section', v = (some section', some header) ∧ ∀ key, key ≠ "" →
      get? section' key = (get? section_ key).map (· ++ rest.flatMap (cellsOf header key)) := by
  induction rest generalizing section_ with
  | nil =>
    cases h
    exact ⟨section_, rfl, fun key _ => by simp⟩
  | cons fields rest ih =>
    obtain ⟨v₁, hadvance, hrest⟩ := Run.bind_eq_ok_iff.mp h
    obtain ⟨⟨section₁, keys⟩, hprocess, hreturn⟩ := Run.bind_eq_ok_iff.mp hadvance
    cases hreturn
    have hfields := hlength fields List.mem_cons_self
    obtain ⟨rfl, -⟩ := (processSection_eq_ok_iff hfields).mp hprocess
    obtain ⟨section', rfl, hget⟩ :=
      ih (fun fields hmem => hlength fields (List.mem_cons_of_mem _ hmem)) hrest
    refine ⟨section', rfl, fun key hkey => ?_⟩
    -- the cells of this line come before those of the rest
    rw [hget key hkey, get?_processSection hfields hprocess hkey, Option.map_map,
      List.flatMap_cons]
    congr 1
    funext list
    exact List.append_assoc _ _ _

/-- A section is read to its end exactly if every field in a column is a number. -/
theorem exists_foldlM_advance_iff (hlength : ∀ fields ∈ rest, fields.length = header.length)
    (hcolumns : HasColumns header section_) :
    (∃ v, rest.foldlM advance (some section_, some header) = .ok v) ↔
      ∀ fields ∈ rest, Numeric header fields := by
  induction rest generalizing section_ with
  | nil => exact iff_of_true ⟨_, rfl⟩ nofun
  | cons fields rest ih =>
    have hfields := hlength fields List.mem_cons_self
    have hrest := fun fields hmem => hlength fields (List.mem_cons_of_mem _ hmem)
    rw [List.forall_mem_cons, ← exists_processSection_iff hfields hcolumns]
    constructor
    · rintro ⟨v, h⟩
      obtain ⟨v₁, hadvance, htail⟩ := Run.bind_eq_ok_iff.mp h
      obtain ⟨⟨section₁, keys⟩, hprocess, hreturn⟩ := Run.bind_eq_ok_iff.mp hadvance
      cases hreturn
      -- a line that is accepted leaves a list for each name
      obtain ⟨rfl, -⟩ := (processSection_eq_ok_iff hfields).mp hprocess
      exact ⟨⟨_, hprocess⟩,
        (ih hrest (hcolumns.processSection hfields hprocess)).mp ⟨v, htail⟩⟩
    · rintro ⟨⟨⟨section₁, keys⟩, hprocess⟩, hnumeric⟩
      obtain ⟨rfl, -⟩ := (processSection_eq_ok_iff hfields).mp hprocess
      obtain ⟨v, hv⟩ := (ih hrest (hcolumns.processSection hfields hprocess)).mpr hnumeric
      exact ⟨v, Run.bind_eq_ok_iff.mpr
        ⟨_, Run.bind_eq_ok_iff.mpr ⟨_, hprocess, rfl⟩, hv⟩⟩

/-- The first line makes an empty list for each name. -/
theorem get?_newSection (hkey : key ≠ "") :
    get? (newSection header : D String (List Cell)) key =
      if key ∈ header then some [] else if key = "raw" then some [.row header] else none := by
  -- a list is made empty for each name, even if there is one already
  have hfold : ∀ (names : List String) (section_ : D String (List Cell)),
      get? (names.foldl (fun section_ key => if key = "" then section_ else put section_ key [])
        section_) key = if key ∈ names then some [] else get? section_ key := by
    intro names
    induction names with
    | nil => simp
    | cons name names ih =>
      intro section_
      rw [List.foldl_cons, ih]
      by_cases hmem : key ∈ names
      · simp [hmem]
      · by_cases hname : name = ""
        · simp [hmem, hname, hkey]
        · rw [if_neg hmem, if_neg hname, get?_put]
          simp [hmem]
  rw [newSection, hfold, get?_put, get?_empty]

/-- A new section has the columns of its header. -/
theorem hasColumns_newSection (header : List String) :
    HasColumns header (newSection header : D String (List Cell)) := by
  refine ⟨?_, fun key hmem hkey => ?_⟩
  · rw [get?_newSection (by decide)]
    split <;> rfl
  · rw [get?_newSection hkey, if_pos hmem]
    rfl

end Rows

/-! ## Columns -/

section Columns

variable {section_ : D String (List Cell)} {header : List String} {rest : List (List String)}

/-- The names of the columns are distinct, and none is the name of another list. -/
structure ProperHeader (header : List String) : Prop where
  nodup : (header.filter (· ≠ "")).Nodup
  raw : "raw" ∉ header
  keys : "keys" ∉ header

/-- There is a list with the fields of all lines, and for each named column a list with its value in
each data line. -/
structure Transposed (header : List String) (rest : List (List String))
    (section_ : D String (List Cell)) : Prop where
  raw : get? section_ "raw" = some ((header :: rest).map .row)
  columns : ∀ (c : ℕ) (key : String), header[c]? = some key → key ≠ "" → ∃ column,
    get? section_ key = some column ∧
      List.Forall₂ (fun fields cell => ∃ value : String, fields[c]? = some value ∧
        toCell value = .ok cell) rest column

/-- A name occurs in one column. -/
theorem valuesOf_zip {fields : List String} {c : ℕ} {key value : String}
    (hnodup : (header.filter (· ≠ "")).Nodup) (hkey : header[c]? = some key) (hne : key ≠ "")
    (hvalue : fields[c]? = some value) :
    valuesOf key (header.zip fields) = [.value (number value)] := by
  induction c generalizing header fields with
  | zero =>
    obtain ⟨names, rfl⟩ : ∃ names, header = key :: names := by
      cases header with
      | nil => cases hkey
      | cons name names => exact ⟨names, by cases hkey; rfl⟩
    obtain ⟨values, rfl⟩ : ∃ values, fields = value :: values := by
      cases fields with
      | nil => cases hvalue
      | cons value' values => exact ⟨values, by cases hvalue; rfl⟩
    -- the name occurs in the first column, so it does not in the others
    rw [List.filter_cons_of_pos (by simpa using hne), List.nodup_cons] at hnodup
    have hname : key ∉ names := fun hmem =>
      hnodup.1 (List.mem_filter.mpr ⟨hmem, by simpa using hne⟩)
    have hnone : valuesOf key (names.zip values) = [] := valuesOf_of_notMem hname
    rw [valuesOf] at hnone ⊢
    rw [List.zip_cons_cons, List.filter_cons_of_pos (by simp), List.map_cons, hnone]
  | succ c ih =>
    cases header with
    | nil => cases hkey
    | cons name names =>
      cases fields with
      | nil => cases hvalue
      | cons value' values =>
        -- the name occurs in a later column, so the first one has another name
        rw [List.getElem?_cons_succ] at hkey hvalue
        have hmem : key ∈ names.filter (· ≠ "") :=
          List.mem_filter.mpr ⟨List.mem_of_getElem? hkey, by simpa using hne⟩
        have hnames : (names.filter (· ≠ "")).Nodup :=
          hnodup.sublist ((List.sublist_cons_self name names).filter _)
        have hname : name ≠ key := by
          rintro rfl
          rw [List.filter_cons_of_pos (by simpa using hne), List.nodup_cons] at hnodup
          exact hnodup.1 hmem
        rw [valuesOf, List.zip_cons_cons, List.filter_cons_of_neg (by simpa using hname)]
        exact ih hnames hkey hvalue

/-- One cell for each line. -/
theorem forall₂_flatMap {α β : Type} {R : α → β → Prop} {f : α → List β} {l : List α}
    (h : ∀ a ∈ l, ∃ b, f a = [b] ∧ R a b) : List.Forall₂ R l (l.flatMap f) := by
  induction l with
  | nil => exact .nil
  | cons a l ih =>
    obtain ⟨b, hb, hR⟩ := h a List.mem_cons_self
    rw [List.flatMap_cons, hb]
    exact .cons hR (ih fun a hmem => h a (List.mem_cons_of_mem _ hmem))

variable {v : Option (D String (List Cell)) × Option (List String)} {keys : Option (List String)}

/-- A section is accepted exactly if there is a variable for its keys and its values are numbers. -/
theorem exists_foldlM_advance_cons_iff
    (hlength : ∀ fields ∈ rest, fields.length = header.length) :
    (∃ v : Option (D String (List Cell)) × Option (List String),
      (header :: rest).foldlM advance (none, keys) = .ok v) ↔
      keys.isSome = true ∧ ∀ fields ∈ rest, Numeric header fields := by
  cases keys with
  | none => exact iff_of_false (by rintro ⟨v, h⟩; cases h) (by simp)
  | some keys =>
    rw [← exists_foldlM_advance_iff hlength (hasColumns_newSection (D := D) header)]
    exact (and_iff_right rfl).symm

/-- The list under a name has the values of its column. -/
theorem transposed_of_foldlM (hheader : ProperHeader header)
    (hlength : ∀ fields ∈ rest, fields.length = header.length)
    (h : (header :: rest).foldlM advance (none, keys) = .ok v) :
    ∃ section_, v = (some section_, some header) ∧ Transposed header rest section_ := by
  obtain ⟨-, hnumeric⟩ := (exists_foldlM_advance_cons_iff hlength).mp ⟨v, h⟩
  obtain ⟨keys, rfl⟩ : ∃ ks, keys = some ks := by
    cases keys with
    | none => cases h
    | some ks => exact ⟨ks, rfl⟩
  obtain ⟨section_, rfl, hget⟩ := get?_foldlM_advance hlength h
  refine ⟨section_, rfl, ?_, fun c key hkey hne =>
    ⟨rest.flatMap (cellsOf header key), ?_, ?_⟩⟩
  -- no column has the name `raw`, so this list only has the fields
  · have hraw : cellsOf header "raw" = fun fields => [.row fields] := by
      funext fields
      rw [cellsOf, valuesOf_of_notMem hheader.raw]
      rfl
    rw [hget "raw" (by decide), get?_newSection (by decide), if_neg hheader.raw, if_pos rfl, hraw,
      List.map_cons, List.map_eq_flatMap]
    rfl
  · rw [hget key hne, get?_newSection hne, if_pos (List.mem_of_getElem? hkey), Option.map_some,
      List.nil_append]
  -- a data line has one value for the column, and it is a number since the line is accepted
  · refine forall₂_flatMap fun fields hmem => ?_
    have hc : c < fields.length := by
      rw [hlength fields hmem]
      exact (List.getElem?_eq_some_iff.mp hkey).1
    have hvalue : fields[c]? = some fields[c] := List.getElem?_eq_getElem hc
    have hnumber : IsNumber fields[c] := hnumeric fields hmem (key, fields[c])
      (List.mem_of_getElem? (List.getElem?_zip_eq_some.mpr ⟨hkey, hvalue⟩)) hne
    refine ⟨.value (number fields[c]), ?_, fields[c], hvalue, toCell_eq_ok_iff.mpr ⟨hnumber, rfl⟩⟩
    have hne_raw : key ≠ "raw" := by
      rintro rfl
      exact hheader.raw (List.mem_of_getElem? hkey)
    rw [cellsOf, if_neg hne_raw, List.nil_append, valuesOf_zip hheader.nodup hkey hne hvalue]

end Columns

/-! ## The whole log -/

section Logs

variable {epoch : String → Option ℤ} {flags : Flags} {content : List String} {slot : Slot}
variable {header : List String} {rest : List (List String)}

theorem view_init (slot : Slot) : (init : State D).view slot = (none, (init : State D).keys slot) :=
  congrArg (·, (init : State D).keys slot) (get?_empty slot.name)

/-- There are the same sections, with at most a list of names added to each. -/
def KeysAdded (data data' : D String (D String (List Cell))) : Prop :=
  ∀ name, get? data' name = get? data name ∨
    ∃ cells, get? data' name = (get? data name).map fun section_ => put section_ "keys" cells

/-- Setting the keys changes no list. -/
theorem keysAdded_setKeysIf {flag : Bool} {netKeys : List String}
    {data data' : D String (D String (List Cell))} (h : setKeysIf flag netKeys data = .ok data') :
    KeysAdded data data' := by
  intro name
  unfold setKeysIf at h
  split at h
  · split at h
    · cases h
    -- the section of the network is the only one that is changed
    · next section_ hsection =>
      cases h
      rw [get?_put]
      split
      · next heq => exact .inr ⟨_, by rw [heq, hsection, Option.map_some]⟩
      · exact .inl rfl
  · cases h
    exact .inl rfl

/-- Setting the keys adds no section. -/
theorem KeysAdded.isSome {data data' : D String (D String (List Cell))} (h : KeysAdded data data')
    (name : String) : (get? data' name).isSome = (get? data name).isSome := by
  rcases h name with heq | ⟨cells, heq⟩
  · rw [heq]
  · rw [heq, Option.isSome_map]

/-- After the loop there are all sections of the result. -/
theorem readNmonLog_eq_ok_iff {log : Log D} :
    readNmonLog epoch flags content = .ok log ↔ ∃ s data,
      loop epoch flags content = .ok s ∧
      setKeysIf flags.readNetwork s.netKeys s.data = .ok data ∧
      setKeysIf flags.readDisk s.netKeys data = .ok log.sections ∧
      log.time = s.timestamps := by
  constructor
  · intro h
    obtain ⟨s, hs, hrest⟩ := Run.bind_eq_ok_iff.mp h
    obtain ⟨data, hdata, hrest⟩ := Run.bind_eq_ok_iff.mp hrest
    obtain ⟨data', hdata', hreturn⟩ := Run.bind_eq_ok_iff.mp hrest
    cases hreturn
    exact ⟨s, data, hs, hdata, hdata', rfl⟩
  · rintro ⟨s, data, hs, hdata, hdata', htime⟩
    refine Run.bind_eq_ok_iff.mpr ⟨s, hs, Run.bind_eq_ok_iff.mpr ⟨data, hdata,
      Run.bind_eq_ok_iff.mpr ⟨log.sections, hdata', ?_⟩⟩⟩
    rw [← htime]
    rfl

/-- The list of names does not touch the columns. -/
theorem Transposed.put_keys {section_ : D String (List Cell)}
    (h : Transposed header rest section_) (hheader : ProperHeader header) (cells : List Cell) :
    Transposed header rest (put section_ "keys" cells) where
  raw := by
    rw [get?_put_of_ne _ _ _ _ (by decide)]
    exact h.raw
  columns c key hkey hne := by
    have hkeys : key ≠ "keys" := by
      rintro rfl
      exact hheader.keys (List.mem_of_getElem? hkey)
    rw [get?_put_of_ne _ _ _ _ hkeys]
    exact h.columns c key hkey hne

/-- A section stays transposed when the keys are set. -/
theorem Transposed.keysAdded {data data' : D String (D String (List Cell))}
    (hadded : KeysAdded data data') (hheader : ProperHeader header) {name : String}
    (h : ∃ section_, get? data name = some section_ ∧ Transposed header rest section_) :
    ∃ section_, get? data' name = some section_ ∧ Transposed header rest section_ := by
  obtain ⟨section_, hsection, htransposed⟩ := h
  rcases hadded name with heq | ⟨cells, heq⟩
  · exact ⟨section_, heq.trans hsection, htransposed⟩
  · rw [hsection] at heq
    exact ⟨_, heq, htransposed.put_keys hheader cells⟩

theorem rows_filter (slot slot' : Slot) (log : List (List String)) :
    rows slot' (log.filter fun parts => slot? (type parts) ≠ some slot) =
      if slot' = slot then [] else rows slot' log := by
  unfold rows
  rw [List.filter_filter]
  split
  · next heq => simp [heq]
  · next hne =>
    congr 1
    refine List.filter_congr fun parts _ => ?_
    by_cases hslot : slot? (type parts) = some slot' <;> simp [hslot, hne]

/-- The loop ends exactly if it does without the lines of a section and the section is accepted. -/
theorem exists_loop_iff (hselected : slot.selected flags = true) :
    (∃ s : State D, loop epoch flags content = .ok s) ↔
      (∃ s : State D, ((content.map lineParts).filter fun parts =>
        slot? (type parts) ≠ some slot).foldlM (step epoch flags) init = .ok s) ∧
      ∃ v : Option (D String (List Cell)) × Option (List String),
        (rows slot (content.map lineParts)).foldlM advance (none, (init : State D).keys slot) =
          .ok v := by
  rw [loop, exists_foldlM_iff, exists_foldlM_iff]
  constructor
  · rintro ⟨hreadable, hslots⟩
    refine ⟨⟨fun parts hmem => hreadable parts (List.mem_of_mem_filter hmem),
      fun slot' hselected' => ?_⟩, ?_⟩
    · rw [rows_filter]
      split
      · exact ⟨_, rfl⟩
      · exact hslots slot' hselected'
    -- the section itself
    · obtain ⟨v, hv⟩ := hslots slot hselected
      rw [view_init] at hv
      exact ⟨v, hv⟩
  · rintro ⟨⟨hreadable, hslots⟩, v, hv⟩
    refine ⟨fun parts hmem => ?_, fun slot' hselected' => ?_⟩
    -- a line of the section can always be read, and so can the others by assumption
    · by_cases hslot : slot? (type parts) = some slot
      · exact readable_of_slot hslot
      · exact hreadable parts (List.mem_filter.mpr ⟨hmem, by simpa using hslot⟩)
    -- another section has the same lines as before
    · by_cases heq : slot' = slot
      · subst heq
        rw [view_init]
        exact ⟨v, hv⟩
      · have hother := hslots slot' hselected'
        rw [rows_filter, if_neg heq] at hother
        exact hother

/-- A section that is selected is returned by columns if its header is proper and its lines have the
same number of fields, whatever lines of other sections are in between. It is accepted if there is a
variable for its keys and its values are numbers. -/
theorem transposed (epoch : String → Option ℤ) (flags : Flags) (content : List String) (slot : Slot)
    (hselected : slot.selected flags = true) {header : List String} {rest : List (List String)}
    (hrows : rows slot (content.map lineParts) = header :: rest) (hheader : ProperHeader header)
    (hlength : ∀ fields ∈ rest, fields.length = header.length) :
    (∀ s : State D, loop epoch flags content = .ok s →
      ∃ section_, get? s.data slot.name = some section_ ∧ Transposed header rest section_) ∧
    (∀ log : Log D, readNmonLog epoch flags content = .ok log →
      ∃ section_, get? log.sections slot.name = some section_ ∧ Transposed header rest section_) ∧
    ((∃ s : State D, loop epoch flags content = .ok s) ↔
      (∃ s : State D, ((content.map lineParts).filter fun parts =>
        slot? (type parts) ≠ some slot).foldlM (step epoch flags) init = .ok s) ∧
      ((init : State D).keys slot).isSome = true ∧ ∀ fields ∈ rest, Numeric header fields) := by
  have hloop : ∀ s : State D, loop epoch flags content = .ok s →
      ∃ section_, get? s.data slot.name = some section_ ∧ Transposed header rest section_ := by
    intro s hs
    have hview := view_foldlM hs hselected
    rw [view_init, hrows] at hview
    obtain ⟨section_, hs', htransposed⟩ := transposed_of_foldlM hheader hlength hview
    exact ⟨section_, congrArg Prod.fst hs', htransposed⟩
  refine ⟨hloop, fun log hlog => ?_, ?_⟩
  · obtain ⟨s, data, hs, hdata, hdata', -⟩ := readNmonLog_eq_ok_iff.mp hlog
    -- no column is called `keys`, so setting the names twice does not touch the columns
    exact Transposed.keysAdded (keysAdded_setKeysIf hdata') hheader
      (Transposed.keysAdded (keysAdded_setKeysIf hdata) hheader (hloop s hs))
  · rw [exists_loop_iff hselected, hrows, exists_foldlM_advance_cons_iff hlength]

/-- A log of a machine with one processor. The lines of the network end in a comma, so that their
last column has no name. -/
def smallLog : List String :=
  ["AAA,progname,nmon\n", "AAA,host\n", "NET,Network I/O,eth0-read-KB/s,eth0-write-KB/s,\n",
    "DISKREAD,Disk Read KB/s,sda\n", "DISKWRITE,Disk Write KB/s,sda\n",
    "DISKBUSY,Disk %Busy,sda\n", "MEM,Memory MB,memfree\n", "CPU001,CPU 1,User%\n",
    "ZZZZ,T0001,00:00:01\n", "NET,T0001,1.5,,\n", "ZZZZ,T0002,00:00:02\n",
    "NET,T0002,2.5,0.5,7\n"]

/-- All times are one. -/
def constEpoch (_ : String) : Option ℤ := some 1

theorem map_lineParts_smallLog :
    smallLog.map lineParts =
      [["AAA", "progname", "nmon"], ["AAA", "host"],
        ["NET", "Network I/O", "eth0-read-KB/s", "eth0-write-KB/s", ""],
        ["DISKREAD", "Disk Read KB/s", "sda"], ["DISKWRITE", "Disk Write KB/s", "sda"],
        ["DISKBUSY", "Disk %Busy", "sda"], ["MEM", "Memory MB", "memfree"],
        ["CPU001", "CPU 1", "User%"], ["ZZZZ", "T0001", "00:00:01"],
        ["NET", "T0001", "1.5", "", ""], ["ZZZZ", "T0002", "00:00:02"],
        ["NET", "T0002", "2.5", "0.5", "7"]] := by
  decide +kernel

theorem rows_smallLog :
    rows .net (smallLog.map lineParts) =
      [["eth0-read-KB/s", "eth0-write-KB/s", ""], ["1.5", "", ""], ["2.5", "0.5", "7"]] := by
  rw [map_lineParts_smallLog]
  decide +kernel

/-- Two columns of the network, and two lines with values. -/
theorem transposed_smallLog :
    ∃ (log : Log AssocMap) (section_ : AssocMap String (List Cell)),
      readNmonLog constEpoch {} smallLog = .ok log ∧ get? log.sections "NET" = some section_ ∧
        Transposed ["eth0-read-KB/s", "eth0-write-KB/s", ""] [["1.5", "", ""], ["2.5", "0.5", "7"]]
          section_ := by
  have hread : (readNmonLog constEpoch {} smallLog : Except _ (Log AssocMap)).isOk = true := by
    decide +kernel
  cases hlog : (readNmonLog constEpoch {} smallLog : Except _ (Log AssocMap)) with
  | error e =>
    rw [hlog] at hread
    cases hread
  | ok log =>
    obtain ⟨section_, hsection, htransposed⟩ :=
      (transposed constEpoch {} smallLog .net rfl rows_smallLog
        ⟨by decide, by decide, by decide⟩ (by decide)).2.1 log hlog
    exact ⟨log, section_, rfl, hsection, htransposed⟩

end Logs

end NmonLogReader
