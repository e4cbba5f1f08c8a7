import StateTableBench.DataAnalysis.TimeSeries

/-!
# Reading the logs of nmon

A log of nmon consists of sections whose lines are interleaved. The first field of a line says which
section it belongs to, and the first line of a section has the names of its columns
(`nmonlogreader.py`).

`Slot` lists the sections that are read. `exists_loop_iff` and `view_loop`: the loop of
`readNmonLog` handles each of them as if there were no other lines.
-/

open FiniteMap Text.Numerals

open ExperimentReader (PythonException)

namespace NmonLogReader

/-- What is in the lists of a section: the fields of a line, a value or `None`, or a name. -/
inductive Cell
  | row (fields : List String)
  | value (x : Option Float)
  | name (key : String)

variable {D : Type → Type → Type} [FiniteMap D]

/-! ## The lines of a section -/

/-- `section[key].append(cell)` -/
def appendTo (section_ : D String (List Cell)) (key : String)
    (cell : Except PythonException Cell) : Except PythonException (D String (List Cell)) :=
  match get? section_ key with
  | none => .error .keyError
  | some list => do return put section_ key (list ++ [← cell])

/-- `float(value)`, or `None` for an empty text. -/
def toCell (value : String) : Except PythonException Cell :=
  if value = "" then .ok (.value none)
  else
    match float value with
    | none => .error .valueError
    | some x => .ok (.value (some x))

/-- The body of the loop over the values of a line. -/
def addValue (keys : List String) (section_ : D String (List Cell)) (value : String × ℕ) :
    Except PythonException (D String (List Cell)) :=
  match keys[value.2]? with
  -- a line with more values than there are names
  | none => .error .indexError
  | some key => if key = "" then .ok section_ else appendTo section_ key (toCell value.1)

/-- The section that the first line makes. -/
def newSection (fields : List String) : D String (List Cell) :=
  fields.foldl (fun section_ key => if key = "" then section_ else put section_ key [])
    (put empty "raw" [.row fields])

/-- What a line with these fields does with its section and the keys. -/
def processSection (section_ : Option (D String (List Cell))) (fields keys : List String) :
    Except PythonException (D String (List Cell) × List String) :=
  match section_ with
  -- the first line of a section has the names, and becomes the `keys`
  | none => .ok (newSection fields, fields)
  -- any other line leaves the `keys` as they are
  | some section_ => do
    let section_ ← appendTo section_ "raw" (.ok (.row fields))
    let section_ ← fields.zipIdx.foldlM (addValue keys) section_
    return (section_, keys)

/-- `_processLineFloatValues` -/
def processLineFloatValues (name : String) (data : D String (D String (List Cell)))
    (lineParts keys : List String) :
    Except PythonException (D String (D String (List Cell)) × List String) := do
  let (section_, keys) ← processSection (get? data name) (lineParts.drop 2) keys
  return (put data name section_, keys)

/-! ## The loop -/

/-- The parameters `read_network`, `read_disk`, `read_cpu` and `read_mem`. -/
structure Flags where
  readNetwork : Bool := true
  readDisk : Bool := true
  readCpu : Bool := true
  readMem : Bool := true

/-- The variables of `readNmonLog`. -/
structure State (D : Type → Type → Type) where
  data : D String (D String (List Cell))
  timestamps : List ℤ
  netKeys : List String
  netPacketsKeys : List String
  diskReadKeys : List String
  diskWriteKeys : List String
  diskBusyKeys : List String
  cpuKeys : D ℤ (List String)
  memKeys : List String

/-- `line.strip("\n").split(",")` -/
def lineParts (line : String) : List String :=
  (((line.toList.dropWhile (· = '\n')).rdropWhile (· = '\n')).splitOn ',').map String.ofList

def type (lineParts : List String) : String := lineParts.headD ""

/-- `type[i:j]` -/
def slice (type : String) (i j : ℕ) : String := String.ofList ((type.toList.take j).drop i)

def nmonTimezoneCorrection : ℤ := 9 * 3600

section Loop

-- `epoch text` is `int(parse(text).strftime("%s"))`, unless an exception is raised
variable (epoch : String → Option ℤ) (flags : Flags)

/-- The time in a line `ZZZZ`. -/
def timestamp (lineParts : List String) : Except PythonException ℤ :=
  match lineParts[2]? with
  | none => .error .indexError
  | some text =>
    match epoch text with
    | none => .error .valueError
    | some seconds => .ok (seconds + nmonTimezoneCorrection)

/-- The body of the loop. -/
def step (s : State D) (lineParts : List String) : Except PythonException (State D) := do
  let type := type lineParts
  let s ←
    if type = "ZZZZ" then do
      return { s with timestamps := s.timestamps ++ [← timestamp epoch lineParts] }
    else pure s
  let s ←
    if type = "NET" ∧ flags.readNetwork then do
      let (data, keys) ← processLineFloatValues "NET" s.data lineParts s.netKeys
      return { s with data := data, netKeys := keys }
    else pure s
  let s ←
    if type = "NETPACKET" ∧ flags.readNetwork then do
      let (data, keys) ← processLineFloatValues "NETPACKET" s.data lineParts s.netPacketsKeys
      return { s with data := data, netPacketsKeys := keys }
    else pure s
  let s ←
    if type = "DISKREAD" ∧ flags.readDisk then do
      let (data, keys) ← processLineFloatValues "DISKREAD" s.data lineParts s.diskReadKeys
      return { s with data := data, diskReadKeys := keys }
    else pure s
  let s ←
    if type = "DISKWRITE" ∧ flags.readDisk then do
      let (data, keys) ← processLineFloatValues "DISKWRITE" s.data lineParts s.diskWriteKeys
      return { s with data := data, diskWriteKeys := keys }
    else pure s
  let s ←
    if type = "DISKBUSY" ∧ flags.readDisk then do
      let (data, keys) ← processLineFloatValues "DISKBUSY" s.data lineParts s.diskBusyKeys
      return { s with data := data, diskBusyKeys := keys }
    else pure s
  let s ←
    if type = "MEM" ∧ flags.readMem then do
      let (data, keys) ← processLineFloatValues "MEM" s.data lineParts s.memKeys
      return { s with data := data, memKeys := keys }
    else pure s
  -- the other tests are for equality, this one is for the beginning only
  if slice type 0 4 = "CPU0" ∧ flags.readCpu then
    match int (slice type 3 6) with
    | none => .error .valueError
    | some cpuId =>
      match get? s.cpuKeys cpuId with
      | none => .error .keyError
      | some keys => do
        let (data, keys) ←
          processLineFloatValues ("CPU-" ++ cpuId.repr) s.data lineParts keys
        return { s with data := data, cpuKeys := put s.cpuKeys cpuId keys }
  else return s

/-- The variables before the loop. -/
def init : State D where
  data := empty
  timestamps := []
  netKeys := []
  netPacketsKeys := []
  diskReadKeys := []
  diskWriteKeys := []
  diskBusyKeys := []
  cpuKeys := (List.range 25).foldl (fun (cpuKeys : D ℤ (List String)) (x : ℕ) =>
    put cpuKeys (x : ℤ) []) empty
  memKeys := []

def loop (content : List String) : Except PythonException (State D) :=
  (content.map lineParts).foldlM (step epoch flags) init

/-- The dictionary that is returned. No section has the name `TIME`. -/
structure Log (D : Type → Type → Type) where
  time : List ℤ
  sections : D String (D String (List Cell))

/-- `if (flag): data['NET']['keys'] = filter(None, net_keys)` -/
def setKeysIf (flag : Bool) (netKeys : List String) (data : D String (D String (List Cell))) :
    Except PythonException (D String (D String (List Cell))) :=
  if flag then
    match get? data "NET" with
    | none => .error .keyError
    | some section_ =>
      .ok (put data "NET" (put section_ "keys" ((netKeys.filter (· ≠ "")).map .name)))
  else .ok data

def readNmonLog (content : List String) : Except PythonException (Log D) := do
  let s ← loop epoch flags content
  let data ← setKeysIf flags.readNetwork s.netKeys s.data
  -- not a section of the disks
  let data ← setKeysIf flags.readDisk s.netKeys data
  return ⟨s.timestamps, data⟩

end Loop

/-! ## One section at a time -/

/-- The sections that are read. -/
inductive Slot
  | net
  | netPacket
  | diskRead
  | diskWrite
  | diskBusy
  | mem
  | cpu (id : ℤ)
deriving DecidableEq

/-- The section of a line. -/
def slot? (type : String) : Option Slot :=
  if type = "NET" then some .net
  else if type = "NETPACKET" then some .netPacket
  else if type = "DISKREAD" then some .diskRead
  else if type = "DISKWRITE" then some .diskWrite
  else if type = "DISKBUSY" then some .diskBusy
  else if type = "MEM" then some .mem
  else if slice type 0 4 = "CPU0" then (int (slice type 3 6)).map .cpu
  else none

namespace Slot

/-- The key of a section in the dictionary. -/
def name : Slot → String
  | net => "NET"
  | netPacket => "NETPACKET"
  | diskRead => "DISKREAD"
  | diskWrite => "DISKWRITE"
  | diskBusy => "DISKBUSY"
  | mem => "MEM"
  | cpu id => "CPU-" ++ id.repr

def selected (flags : Flags) : Slot → Bool
  | net | netPacket => flags.readNetwork
  | diskRead | diskWrite | diskBusy => flags.readDisk
  | mem => flags.readMem
  | cpu _ => flags.readCpu

/-- Different sections have different names. -/
theorem name_injective : Function.Injective name := by
  have hcpu : ∀ z : ℤ, ∀ text : String, text.toList.take 4 ≠ "CPU-".toList →
      "CPU-" ++ z.repr ≠ text := by
    rintro z text htext rfl
    exact htext (by simp)
  -- two names are different constants, or only one begins with `CPU-`, or the numbers differ
  rintro (_ | _ | _ | _ | _ | _ | a) (_ | _ | _ | _ | _ | _ | b) h <;> first
    | rfl
    | exact absurd h (by decide)
    | exact absurd h (hcpu _ _ (by decide))
    | exact absurd h.symm (hcpu _ _ (by decide))
    | skip
  have hrepr : a.repr = b.repr := by simpa [name] using h
  have hint := congrArg int hrepr
  rw [int_repr, int_repr] at hint
  rw [Option.some.inj hint]

end Slot

namespace State

/-- The keys of a section, if there is a variable for them. -/
def keys (s : State D) : Slot → Option (List String)
  | .net => some s.netKeys
  | .netPacket => some s.netPacketsKeys
  | .diskRead => some s.diskReadKeys
  | .diskWrite => some s.diskWriteKeys
  | .diskBusy => some s.diskBusyKeys
  | .mem => some s.memKeys
  | .cpu id => get? s.cpuKeys id

def store (s : State D) (slot : Slot) (data : D String (D String (List Cell)))
    (keys : List String) : State D :=
  match slot with
  | .net => { s with data := data, netKeys := keys }
  | .netPacket => { s with data := data, netPacketsKeys := keys }
  | .diskRead => { s with data := data, diskReadKeys := keys }
  | .diskWrite => { s with data := data, diskWriteKeys := keys }
  | .diskBusy => { s with data := data, diskBusyKeys := keys }
  | .mem => { s with data := data, memKeys := keys }
  | .cpu id => { s with data := data, cpuKeys := put s.cpuKeys id keys }

/-- A section and its keys. -/
def view (s : State D) (slot : Slot) : Option (D String (List Cell)) × Option (List String) :=
  (get? s.data slot.name, s.keys slot)

/-- Only the keys of the section stored are replaced. -/
theorem keys_store (s : State D) (slot slot' : Slot) (data : D String (D String (List Cell)))
    (keys : List String) :
    (s.store slot data keys).keys slot' = if slot' = slot then some keys else s.keys slot' := by
  by_cases h : slot' = slot
  · subst h
    cases slot' <;> simp [State.keys, store]
  · rw [if_neg h]
    -- the variables are different fields, unless both sections are those of processors
    cases slot <;> cases slot' <;> first
      | rfl
      | exact absurd rfl h
      | skip
    next a b =>
      have hne : b ≠ a := fun heq => h (heq ▸ rfl)
      exact get?_put_of_ne s.cpuKeys a b keys hne

end State

section Steps

variable {epoch : String → Option ℤ} {flags : Flags}
variable {s s' : State D} {parts : List String} {slot : Slot}

/-- What the first field of a line in a section is. -/
theorem type_of_slot (hslot : slot? (type parts) = some slot) :
    (∀ id, slot ≠ .cpu id) ∧ type parts = slot.name ∨
      ∃ id, slot = .cpu id ∧ slice (type parts) 0 4 = "CPU0" ∧
        int (slice (type parts) 3 6) = some id := by
  unfold slot? at hslot
  split_ifs at hslot with h₁ h₂ h₃ h₄ h₅ h₆ h₇
  · cases hslot; exact .inl ⟨nofun, h₁⟩
  · cases hslot; exact .inl ⟨nofun, h₂⟩
  · cases hslot; exact .inl ⟨nofun, h₃⟩
  · cases hslot; exact .inl ⟨nofun, h₄⟩
  · cases hslot; exact .inl ⟨nofun, h₅⟩
  · cases hslot; exact .inl ⟨nofun, h₆⟩
  · obtain ⟨id, hid, rfl⟩ := Option.map_eq_some_iff.mp hslot
    exact .inr ⟨id, rfl, h₇, hid⟩

theorem ne_of_slice (text : String) (h : slice (type parts) 0 4 = "CPU0")
    (htext : slice text 0 4 ≠ "CPU0") : type parts ≠ text :=
  fun heq => htext (heq ▸ h)

/-- A line of a section that is read. The tests for the other sections fail. -/
theorem step_of_slot (hslot : slot? (type parts) = some slot) :
    step epoch flags s parts =
      if slot.selected flags then
        match s.keys slot with
        | none => .error .keyError
        | some keys => do
          let (data, keys) ← processLineFloatValues slot.name s.data parts keys
          return s.store slot data keys
      else .ok s := by
  rcases type_of_slot hslot with ⟨hnot, htype⟩ | ⟨id, rfl, hcpu, hid⟩
  · cases slot with
    | cpu id => exact absurd rfl (hnot id)
    | net | netPacket | diskRead | diskWrite | diskBusy | mem =>
      simp [step, htype, Slot.name, Slot.selected]
      rfl
  -- a name that begins with `CPU0` is none of the others
  · have hne : ∀ text, slice text 0 4 ≠ "CPU0" → type parts ≠ text := fun text =>
      ne_of_slice text hcpu
    simp [step, hne "ZZZZ" (by decide), hne "NET" (by decide), hne "NETPACKET" (by decide),
      hne "DISKREAD" (by decide), hne "DISKWRITE" (by decide), hne "DISKBUSY" (by decide),
      hne "MEM" (by decide), hcpu, hid, Slot.selected]
    rfl

/-- Any other line. -/
theorem step_of_none (hslot : slot? (type parts) = none) :
    step epoch flags s parts =
      if type parts = "ZZZZ" then do
        return { s with timestamps := s.timestamps ++ [← timestamp epoch parts] }
      else if slice (type parts) 0 4 = "CPU0" ∧ flags.readCpu = true then .error .valueError
      else .ok s := by
  unfold slot? at hslot
  split_ifs at hslot with h₁ h₂ h₃ h₄ h₅ h₆ h₇
  · have hint := Option.map_eq_none_iff.mp hslot
    simp [step, h₁, h₂, h₃, h₄, h₅, h₆, h₇, hint, ne_of_slice "ZZZZ" h₇ (by decide)]
    rfl
  · simp [step, h₁, h₂, h₃, h₄, h₅, h₆, h₇]
    rfl

/-- What a line does with its own section. -/
def advance (v : Option (D String (List Cell)) × Option (List String)) (fields : List String) :
    Except PythonException (Option (D String (List Cell)) × Option (List String)) :=
  match v.2 with
  | none => .error .keyError
  | some keys => do
    let (section_, keys) ← processSection v.1 fields keys
    return (some section_, some keys)

/-- A line that is read leaves a section with its keys. -/
theorem exists_of_advance {v v' : Option (D String (List Cell)) × Option (List String)}
    {fields : List String} (h : advance v fields = .ok v') :
    ∃ section_ keys, v' = (some section_, some keys) := by
  unfold advance at h
  split at h
  · cases h
  · obtain ⟨result, -, hreturn⟩ := Run.bind_eq_ok_iff.mp h
    cases hreturn
    exact ⟨result.1, result.2, rfl⟩

/-- Only the section stored is seen to change. -/
theorem view_store (s : State D) (slot slot' : Slot) (section_ : D String (List Cell))
    (keys : List String) :
    (s.store slot (put s.data slot.name section_) keys).view slot' =
      if slot' = slot then (some section_, some keys) else s.view slot' := by
  have hdata : (s.store slot (put s.data slot.name section_) keys).data =
      put s.data slot.name section_ := by
    cases slot <;> rfl
  rw [State.view, hdata, State.keys_store]
  split
  · next heq => rw [heq, get?_put_self]
  · next hne => rw [get?_put_of_ne _ _ _ _ fun heq => hne (Slot.name_injective heq), State.view]

/-- A line advances its own section and leaves the other ones alone. -/
theorem step_eq_ok_iff_of_slot (hslot : slot? (type parts) = some slot)
    (hselected : slot.selected flags = true) :
    step epoch flags s parts = .ok s' ↔ ∃ section_ keys,
      advance (s.view slot) (parts.drop 2) = .ok (some section_, some keys) ∧
        s' = s.store slot (put s.data slot.name section_) keys := by
  rw [step_of_slot hslot, if_pos hselected, advance]
  cases hkeys : s.keys slot with
  | none => simp [State.view, hkeys]
  | some keys =>
    simp only [State.view, hkeys, processLineFloatValues]
    cases processSection (get? s.data slot.name) (parts.drop 2) keys with
    | error e =>
      constructor
      · intro h
        cases h
      · rintro ⟨_, _, h, -⟩
        cases h
    | ok result =>
      constructor
      · intro h
        cases h
        exact ⟨result.1, result.2, rfl, rfl⟩
      · rintro ⟨section_, keys', h, rfl⟩
        cases h
        rfl

/-- What must hold of a line whatever the variables are: a time can be read, and so can the number
of a processor. -/
def Readable (epoch : String → Option ℤ) (flags : Flags) (parts : List String) : Prop :=
  (type parts = "ZZZZ" → ∃ t, timestamp epoch parts = .ok t) ∧
    (flags.readCpu = true → slice (type parts) 0 4 = "CPU0" → slot? (type parts) ≠ none)

/-- A line of a section is readable. -/
theorem readable_of_slot (hslot : slot? (type parts) = some slot) :
    Readable epoch flags parts := by
  refine ⟨fun htype => ?_, fun _ _ => by simp [hslot]⟩
  have hnone : slot? "ZZZZ" = none := by decide
  rw [htype, hnone] at hslot
  cases hslot

/-- A line is read exactly if it is readable and its section can go on with it. -/
theorem exists_step_iff :
    (∃ s', step epoch flags s parts = .ok s') ↔ Readable epoch flags parts ∧
      ∀ slot, slot? (type parts) = some slot → slot.selected flags = true →
        ∃ v, advance (s.view slot) (parts.drop 2) = .ok v := by
  cases hslot : slot? (type parts) with
  -- a line of a section, which is skipped unless the section is selected
  | some slot =>
    have hreadable : Readable epoch flags parts := readable_of_slot hslot
    by_cases hselected : slot.selected flags = true
    · simp only [step_eq_ok_iff_of_slot hslot hselected, hreadable, true_and, Option.some.injEq]
      constructor
      · rintro ⟨s', section_, keys, hadvance, -⟩ slot' rfl -
        exact ⟨_, hadvance⟩
      · intro h
        obtain ⟨v, hadvance⟩ := h slot rfl hselected
        obtain ⟨section_, keys, rfl⟩ := exists_of_advance hadvance
        exact ⟨_, section_, keys, hadvance, rfl⟩
    · simp [step_of_slot hslot, hselected, hreadable]
  | none =>
    rw [step_of_none hslot, Readable, hslot]
    -- a line with a time, or one that is not read at all unless its number cannot be
    by_cases htype : type parts = "ZZZZ"
    · rw [if_pos htype, htype]
      have hcpu : slice "ZZZZ" 0 4 ≠ "CPU0" := by decide
      constructor
      · rintro ⟨s', h⟩
        obtain ⟨t, ht, -⟩ := Run.bind_eq_ok_iff.mp h
        exact ⟨⟨fun _ => ⟨t, ht⟩, fun _ h => absurd h hcpu⟩, nofun⟩
      · rintro ⟨⟨htime, -⟩, -⟩
        obtain ⟨t, ht⟩ := htime rfl
        exact ⟨_, Run.bind_eq_ok_iff.mpr ⟨t, ht, rfl⟩⟩
    · rw [if_neg htype]
      split
      · next hcpu => exact iff_of_false nofun fun h => h.1.2 hcpu.2 hcpu.1 rfl
      · next hcpu =>
        exact iff_of_true ⟨s, rfl⟩
          ⟨⟨fun h => absurd h htype, fun hread h => absurd ⟨h, hread⟩ hcpu⟩, nofun⟩

/-- A line changes its own section only. -/
theorem view_step (h : step epoch flags s parts = .ok s') (hselected : slot.selected flags = true) :
    if slot? (type parts) = some slot then
      advance (s.view slot) (parts.drop 2) = .ok (s'.view slot)
    else s'.view slot = s.view slot := by
  split
  · next hslot =>
    obtain ⟨section_, keys, hadvance, rfl⟩ := (step_eq_ok_iff_of_slot hslot hselected).mp h
    rw [hadvance, view_store, if_pos rfl]
  · next hslot =>
    -- the line belongs to no section, or to another one
    cases hother : slot? (type parts) with
    | none =>
      rw [step_of_none hother] at h
      split_ifs at h
      · obtain ⟨t, -, hreturn⟩ := Run.bind_eq_ok_iff.mp h
        cases hreturn
        cases slot <;> rfl
      · cases h
        rfl
    | some slot' =>
      by_cases hselected' : slot'.selected flags = true
      · obtain ⟨section_, keys, -, rfl⟩ := (step_eq_ok_iff_of_slot hother hselected').mp h
        rw [view_store, if_neg]
        rintro rfl
        exact hslot hother
      · rw [step_of_slot hother, if_neg hselected'] at h
        cases h
        rfl

/-- The fields of the lines of a section. -/
def rows (slot : Slot) (log : List (List String)) : List (List String) :=
  (log.filter fun parts => slot? (type parts) = some slot).map (·.drop 2)

/-- A line is a row of its own section only. -/
theorem rows_cons (slot : Slot) (parts : List String) (log : List (List String)) :
    rows slot (parts :: log) =
      if slot? (type parts) = some slot then parts.drop 2 :: rows slot log else rows slot log := by
  unfold rows
  split
  · next h => rw [List.filter_cons_of_pos (by simpa using h), List.map_cons]
  · next h => rw [List.filter_cons_of_neg (by simpa using h)]

/-- The loop does with a section what its own lines do. -/
theorem view_foldlM {log : List (List String)} (h : log.foldlM (step epoch flags) s = .ok s')
    (hselected : slot.selected flags = true) :
    (rows slot log).foldlM advance (s.view slot) = .ok (s'.view slot) := by
  -- induction on the log: a line of the section advances its view, any other leaves it alone
  induction log generalizing s with
  | nil =>
    cases h
    rfl
  | cons parts log ih =>
    obtain ⟨s₁, hstep, hrest⟩ := Run.bind_eq_ok_iff.mp h
    have hview := view_step hstep hselected
    rw [rows_cons]
    split at hview
    · next hslot =>
      rw [if_pos hslot]
      exact Run.bind_eq_ok_iff.mpr ⟨_, hview, ih hrest⟩
    · next hslot =>
      rw [if_neg hslot, ← hview]
      exact ih hrest

/-- The loop ends exactly if it does for each section alone. -/
theorem exists_foldlM_iff {log : List (List String)} :
    (∃ s', log.foldlM (step epoch flags) s = .ok s') ↔
      (∀ parts ∈ log, Readable epoch flags parts) ∧
        ∀ slot, slot.selected flags = true →
          ∃ v, (rows slot log).foldlM advance (s.view slot) = .ok v := by
  induction log generalizing s with
  | nil => exact iff_of_true ⟨s, rfl⟩ ⟨nofun, fun slot _ => ⟨_, rfl⟩⟩
  | cons parts log ih =>
    constructor
    · rintro ⟨s', h⟩
      refine ⟨fun parts' hmem => ?_, fun slot hselected => ⟨_, view_foldlM h hselected⟩⟩
      obtain ⟨s₁, hstep, hrest⟩ := Run.bind_eq_ok_iff.mp h
      rcases List.mem_cons.mp hmem with rfl | hmem
      · exact (exists_step_iff.mp ⟨s₁, hstep⟩).1
      · exact (ih.mp ⟨s', hrest⟩).1 parts' hmem
    · rintro ⟨hreadable, hslots⟩
      -- the first line is accepted because it is so among the lines of its section
      have hfirst : ∀ slot, slot? (type parts) = some slot → slot.selected flags = true →
          ∃ v, advance (s.view slot) (parts.drop 2) = .ok v := by
        intro slot hslot hselected
        obtain ⟨v, hv⟩ := hslots slot hselected
        rw [rows_cons, if_pos hslot] at hv
        obtain ⟨v₁, hadvance, -⟩ := Run.bind_eq_ok_iff.mp hv
        exact ⟨v₁, hadvance⟩
      obtain ⟨s₁, hstep⟩ := exists_step_iff.mpr ⟨hreadable parts List.mem_cons_self, hfirst⟩
      -- the other lines go on from the views that this one leaves
      have hrest : ∃ s', log.foldlM (step epoch flags) s₁ = .ok s' := by
        refine ih.mpr ⟨fun parts' hmem => hreadable parts' (List.mem_cons_of_mem _ hmem),
          fun slot hselected => ?_⟩
        obtain ⟨v, hv⟩ := hslots slot hselected
        have hview := view_step hstep hselected
        rw [rows_cons] at hv
        split at hview
        · next hslot =>
          rw [if_pos hslot] at hv
          obtain ⟨v₁, hadvance, htail⟩ := Run.bind_eq_ok_iff.mp hv
          obtain rfl := Except.ok.inj (hadvance.symm.trans hview)
          exact ⟨v, htail⟩
        · next hslot =>
          rw [if_neg hslot, ← hview] at hv
          exact ⟨v, hv⟩
      obtain ⟨s', hs'⟩ := hrest
      exact ⟨s', Run.bind_eq_ok_iff.mpr ⟨s₁, hstep, hs'⟩⟩

end Steps

end NmonLogReader
