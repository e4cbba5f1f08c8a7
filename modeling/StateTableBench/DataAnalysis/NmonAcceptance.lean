import StateTableBench.DataAnalysis.NmonSections

/-!
# The logs that are accepted

`accepts_iff`: `readNmonLog` returns the sections that are selected unless the disks are selected
without the network, there is a processor with a number above 24, or a value is not a number. The
first one is because the names of the columns are set for the network again instead of the disks,
the second one because there are variables for the keys of 25 processors only.
-/

open FiniteMap Text.Numerals

open ExperimentReader (PythonException)

namespace NmonLogReader

variable {D : Type → Type → Type} [FiniteMap D]

/-! ## The sections of processors -/

/-- The first field of the lines of a processor: `CPU001`, `CPU002` and so on. -/
def cpuName (n : ℕ) : String :=
  "CPU" ++ (if n < 10 then "00" else if n < 100 then "0" else "") ++ n.repr

/-- A number does not begin with a zero. -/
theorem head?_toDigits {n : ℕ} (hn : 0 < n) : (Nat.toDigits 10 n).head? ≠ some '0' := by
  induction n using Nat.strongRecOn with
  | ind n ih =>
    rw [Nat.toDigits_eq_if (by decide)]
    split
    · next hlt => interval_cases n <;> decide
    · next hle =>
      -- the digits of `n / 10` come first
      rw [List.head?_append_of_ne_nil _ Nat.toDigits_ne_nil]
      exact ih (n / 10) (by omega) (by omega)

/-- The lines of a processor are found by their beginning up to number 99. -/
theorem lt_of_slice_cpuName {n : ℕ} (h : slice (cpuName n) 0 4 = "CPU0") : n < 100 := by
  by_contra hn
  rw [cpuName, if_neg (by omega), if_neg hn] at h
  have hlist := congrArg String.toList h
  -- from 100 on, the fourth character is the first digit of the number
  have hdigit : (Nat.toDigits 10 n).take 1 = ['0'] := by
    simpa [slice, Nat.toList_repr] using hlist
  refine head?_toDigits (n := n) (by omega) ?_
  have hhead := congrArg List.head? hdigit
  rwa [List.head?_take, if_neg (by decide)] at hhead

theorem slot?_cpuName {n : ℕ} (hn : n < 100) : slot? (cpuName n) = some (.cpu n) := by
  have hall : ∀ n < 100, slot? (cpuName n) = some (.cpu n) := by decide +kernel
  exact hall n hn

/-- The number of a processor is that in the name of its section. -/
theorem eq_of_slot?_cpuName {n : ℕ} {id : ℤ} (h : slot? (cpuName n) = some (.cpu id)) :
    n < 100 ∧ id = n := by
  have hlt : n < 100 := by
    have htype : slot? (type [cpuName n]) = some (.cpu id) := h
    rcases type_of_slot htype with ⟨hnot, -⟩ | ⟨_, -, hslice, -⟩
    · exact absurd rfl (hnot id)
    · exact lt_of_slice_cpuName hslice
  rw [slot?_cpuName hlt] at h
  cases h
  exact ⟨hlt, rfl⟩

/-! ## The result -/

section Acceptance

variable {epoch : String → Option ℤ} {flags : Flags} {log : List (List String)}
variable {s s' : State D} {slot : Slot}

/-- The first line of a section that is read is its header, and the other lines have as many fields.
The sections of processors have their names, and there is a time in each line `ZZZZ`. -/
structure WellFormed (epoch : String → Option ℤ) (log : List (List String)) : Prop where
  lengths : ∀ (name : String) (header : List String) (rest : List (List String)),
    slot? name ≠ none → log.filter (type · = name) = header :: rest →
      ∀ parts ∈ rest, parts.length = header.length
  occurs : ∀ name ∈ ["NET", "DISKREAD", "DISKWRITE", "DISKBUSY", "MEM"],
    ∃ parts ∈ log, type parts = name
  cpu : ∃ parts ∈ log, ∃ n, type parts = cpuName n
  cpus : ∀ parts ∈ log, slice (type parts) 0 4 = "CPU0" → ∃ n, type parts = cpuName n
  times : ∀ parts ∈ log, type parts = "ZZZZ" → ∃ t, timestamp epoch parts = .ok t

/-- A section is in the result if it is selected. -/
def Expected (flags : Flags) (type name : String) : Prop :=
  (type = name ∧ ((name ∈ ["NET", "NETPACKET"] ∧ flags.readNetwork = true) ∨
    (name ∈ ["DISKREAD", "DISKWRITE", "DISKBUSY"] ∧ flags.readDisk = true) ∨
    (name = "MEM" ∧ flags.readMem = true))) ∨
  flags.readCpu = true ∧ ∃ n : ℕ, type = cpuName n ∧ name = "CPU-" ++ n.repr

/-- A dictionary is returned which has exactly these sections and the times. -/
def Accepts (D : Type → Type → Type) [FiniteMap D] (epoch : String → Option ℤ) (flags : Flags)
    (content : List String) : Prop :=
  ∃ log : Log D, readNmonLog epoch flags content = .ok log ∧
    ((content.map lineParts).filter (type · = "ZZZZ")).mapM (timestamp epoch) = .ok log.time ∧
    ∀ name, (get? log.sections name).isSome = true ↔
      ∃ parts ∈ content.map lineParts, Expected flags (type parts) name

/-! ## The loop -/

/-- Only a line ZZZZ adds a timestamp. -/
theorem timestamps_step {parts : List String} (h : step epoch flags s parts = .ok s') :
    if type parts = "ZZZZ" then
      ∃ t, timestamp epoch parts = .ok t ∧ s'.timestamps = s.timestamps ++ [t]
    else s'.timestamps = s.timestamps := by
  cases hslot : slot? (type parts) with
  | none =>
    rw [step_of_none hslot] at h
    split
    · next htype =>
      rw [if_pos htype] at h
      obtain ⟨t, ht, hreturn⟩ := Run.bind_eq_ok_iff.mp h
      cases hreturn
      exact ⟨t, ht, rfl⟩
    · next htype =>
      rw [if_neg htype] at h
      split at h
      · cases h
      · cases h
        rfl
  | some slot =>
    -- a line of a section has no time
    have htype : type parts ≠ "ZZZZ" := by
      intro htype
      rw [htype] at hslot
      exact absurd hslot (by decide +revert)
    rw [if_neg htype]
    by_cases hselected : slot.selected flags = true
    · obtain ⟨section_, keys, -, rfl⟩ := (step_eq_ok_iff_of_slot hslot hselected).mp h
      cases slot <;> rfl
    · rw [step_of_slot hslot, if_neg hselected] at h
      cases h
      rfl

/-- The times are those of the lines `ZZZZ`. -/
theorem timestamps_foldlM (h : log.foldlM (step epoch flags) s = .ok s') :
    ∃ times, (log.filter (type · = "ZZZZ")).mapM (timestamp epoch) = .ok times ∧
      s'.timestamps = s.timestamps ++ times := by
  induction log generalizing s with
  | nil =>
    cases h
    exact ⟨[], rfl, (List.append_nil _).symm⟩
  | cons parts log ih =>
    obtain ⟨s₁, hstep, hrest⟩ := Run.bind_eq_ok_iff.mp h
    obtain ⟨times, htimes, happend⟩ := ih hrest
    have hfirst := timestamps_step hstep
    split at hfirst
    · next htype =>
      obtain ⟨t, ht, hone⟩ := hfirst
      refine ⟨t :: times, ?_, ?_⟩
      · rw [List.filter_cons_of_pos (by simpa using htype), List.mapM_cons]
        exact Run.bind_eq_ok_iff.mpr ⟨t, ht, Run.bind_eq_ok_iff.mpr ⟨times, htimes, rfl⟩⟩
      · rw [happend, hone, List.append_assoc, List.singleton_append]
    · next htype =>
      refine ⟨times, ?_, by rw [happend, hfirst]⟩
      rw [List.filter_cons_of_neg (by simpa using htype)]
      exact htimes

/-- A line adds at most its own section. -/
theorem isSome_step {parts : List String} (h : step epoch flags s parts = .ok s') {name : String}
    (hsome : (get? s'.data name).isSome = true) :
    (get? s.data name).isSome = true ∨ ∃ slot, slot? (type parts) = some slot ∧
      slot.selected flags = true ∧ slot.name = name := by
  cases hslot : slot? (type parts) with
  | none =>
    rw [step_of_none hslot] at h
    split_ifs at h
    · obtain ⟨t, -, hreturn⟩ := Run.bind_eq_ok_iff.mp h
      cases hreturn
      exact .inl hsome
    · cases h
      exact .inl hsome
  | some slot =>
    by_cases hselected : slot.selected flags = true
    · obtain ⟨section_, keys, -, rfl⟩ := (step_eq_ok_iff_of_slot hslot hselected).mp h
      -- only the section of the line is stored
      have hdata : (s.store slot (put s.data slot.name section_) keys).data =
          put s.data slot.name section_ := by
        cases slot <;> rfl
      rw [hdata, get?_put] at hsome
      split at hsome
      · next heq => exact .inr ⟨slot, rfl, hselected, heq.symm⟩
      · exact .inl hsome
    · rw [step_of_slot hslot, if_neg hselected] at h
      cases h
      exact .inl hsome

/-- A section has rows exactly if a line belongs to it. -/
theorem rows_ne_nil_iff : rows slot log ≠ [] ↔ ∃ parts ∈ log, slot? (type parts) = some slot := by
  rw [rows, Ne, List.map_eq_nil_iff, List.filter_eq_nil_iff]
  simp

/-- A section that has lines is there. -/
theorem exists_of_foldlM_advance {lines : List (List String)} (hne : lines ≠ [])
    {v v' : Option (D String (List Cell)) × Option (List String)}
    (h : lines.foldlM advance v = .ok v') : ∃ section_ keys, v' = (some section_, some keys) := by
  induction lines generalizing v with
  | nil => exact absurd rfl hne
  | cons fields lines ih =>
    obtain ⟨v₁, hadvance, hrest⟩ := Run.bind_eq_ok_iff.mp h
    by_cases hlines : lines = []
    · subst hlines
      cases hrest
      exact exists_of_advance hadvance
    · exact ih hlines hrest

/-- The sections in the dictionary are those that are selected and have lines. -/
theorem isSome_foldlM_iff (h : log.foldlM (step epoch flags) init = .ok s') (name : String) :
    (get? s'.data name).isSome = true ↔
      ∃ slot, slot.selected flags = true ∧ slot.name = name ∧ rows slot log ≠ [] := by
  constructor
  -- a section in the result was there before, or it comes from a line of the log
  · have hfrom : ∀ (log : List (List String)) (s : State D),
        log.foldlM (step epoch flags) s = .ok s' → (get? s'.data name).isSome = true →
          (get? s.data name).isSome = true ∨
            ∃ slot, slot.selected flags = true ∧ slot.name = name ∧ rows slot log ≠ [] := by
      intro log
      induction log with
      | nil =>
        intro s h hsome
        cases h
        exact .inl hsome
      | cons parts log ih =>
        intro s h hsome
        obtain ⟨s₁, hstep, hrest⟩ := Run.bind_eq_ok_iff.mp h
        rcases ih s₁ hrest hsome with hsome₁ | ⟨slot, hselected, hname, hrows⟩
        · refine (isSome_step hstep hsome₁).imp_right ?_
          rintro ⟨slot, hslot, hselected, hname⟩
          exact ⟨slot, hselected, hname,
            rows_ne_nil_iff.mpr ⟨parts, List.mem_cons_self, hslot⟩⟩
        · obtain ⟨parts', hmem, hslot⟩ := rows_ne_nil_iff.mp hrows
          exact .inr ⟨slot, hselected, hname,
            rows_ne_nil_iff.mpr ⟨parts', List.mem_cons_of_mem _ hmem, hslot⟩⟩
    intro hsome
    refine (hfrom log init h hsome).resolve_left ?_
    rw [init, get?_empty]
    exact nofun
  · rintro ⟨slot, hselected, rfl, hrows⟩
    -- the first of its lines makes the section
    obtain ⟨section_, keys, hsection⟩ :=
      exists_of_foldlM_advance hrows (view_foldlM h hselected)
    exact Option.isSome_iff_exists.mpr ⟨section_, congrArg Prod.fst hsection⟩

/-! ## The condition -/

/-- There are variables for the keys of 25 processors. -/
theorem isSome_keys_cpu_iff (id : ℤ) :
    ((init : State D).keys (.cpu id)).isSome = true ↔ 0 ≤ id ∧ id < 25 := by
  have hfold : ∀ (ids : List ℕ) (m : D ℤ (List String)),
      (get? (ids.foldl (fun m (x : ℕ) => put m (x : ℤ) []) m) id).isSome = true ↔
        (∃ x ∈ ids, (x : ℤ) = id) ∨ (get? m id).isSome = true := by
    intro ids
    induction ids with
    | nil => simp
    | cons x ids ih =>
      intro m
      rw [List.foldl_cons, ih, get?_put]
      by_cases hx : id = x
      · simp [hx]
      · simp [hx, Ne.symm hx]
  rw [State.keys, init, hfold]
  simp only [List.mem_range, get?_empty, Option.isSome_none, Bool.false_eq_true, or_false]
  constructor
  · rintro ⟨x, hx, rfl⟩
    omega
  · rintro ⟨hnonneg, hlt⟩
    exact ⟨id.toNat, by omega, by omega⟩

/-- The lines of a section of a well-formed log have the same first field. -/
theorem WellFormed.type_eq (h : WellFormed epoch log) {p q : List String} (hp : p ∈ log)
    (hq : q ∈ log) (hslot : slot? (type p) = some slot) :
    slot? (type q) = some slot ↔ type q = type p := by
  refine ⟨fun hslot' => ?_, fun heq => heq ▸ hslot⟩
  rcases type_of_slot hslot with ⟨hnot, htype⟩ | ⟨id, rfl, hslice, -⟩
  · rcases type_of_slot hslot' with ⟨-, htype'⟩ | ⟨id, rfl, -, -⟩
    · rw [htype, htype']
    · exact absurd rfl (hnot id)
  · obtain ⟨n, hn⟩ := h.cpus p hp hslice
    rcases type_of_slot hslot' with ⟨hnot, -⟩ | ⟨_, -, hslice', -⟩
    · exact absurd rfl (hnot id)
    · obtain ⟨m, hm⟩ := h.cpus q hq hslice'
      -- the sections of two processors are the same only if the numbers are
      rw [hn] at hslot
      rw [hm] at hslot'
      have hnm : n = m := by
        have hn' := (eq_of_slot?_cpuName hslot).2
        have hm' := (eq_of_slot?_cpuName hslot').2
        omega
      rw [hn, hm, hnm]

/-- So they have as many fields as its header. -/
theorem WellFormed.length_rows (h : WellFormed epoch log) {header : List String}
    {rest : List (List String)} (hrows : rows slot log = header :: rest) :
    ∀ fields ∈ rest, fields.length = header.length := by
  obtain ⟨first, lines, hlines, rfl, rfl⟩ := List.map_eq_cons_iff.mp hrows
  have hfirst : first ∈ log.filter fun parts => slot? (type parts) = some slot := by
    rw [hlines]
    exact List.mem_cons_self
  obtain ⟨hmem, hslot⟩ := List.mem_filter.mp hfirst
  have hslot := of_decide_eq_true hslot
  -- the lines of the section are those with the first field of its header
  have hfilter : log.filter (type · = type first) = first :: lines := by
    rw [← hlines]
    refine List.filter_congr fun parts hparts => ?_
    rw [decide_eq_decide]
    exact (h.type_eq hmem hparts hslot).symm
  intro fields hfields
  obtain ⟨parts, hparts, rfl⟩ := List.mem_map.mp hfields
  have hread : slot? (type first) ≠ none := by
    rw [hslot]
    exact nofun
  rw [List.length_drop, List.length_drop, h.lengths _ _ _ hread hfilter parts hparts]

/-- All values in the named columns of the selected sections are empty or numbers. -/
def AllNumeric (flags : Flags) (log : List (List String)) : Prop :=
  ∀ slot header rest, slot.selected flags = true → rows slot log = header :: rest →
    ∀ fields ∈ rest, Numeric header fields

/-- A line of a processor in a well-formed log. -/
theorem WellFormed.exists_cpuName (h : WellFormed epoch log) {parts : List String}
    (hmem : parts ∈ log) {id : ℤ} (hslot : slot? (type parts) = some (.cpu id)) :
    ∃ n : ℕ, n < 100 ∧ id = n ∧ type parts = cpuName n := by
  rcases type_of_slot hslot with ⟨hnot, -⟩ | ⟨_, -, hslice, -⟩
  · exact absurd rfl (hnot id)
  · obtain ⟨n, hn⟩ := h.cpus parts hmem hslice
    rw [hn] at hslot
    obtain ⟨hlt, hid⟩ := eq_of_slot?_cpuName hslot
    exact ⟨n, hlt, hid, hn⟩

/-- The loop ends exactly if there are variables for all keys and the values are numbers. -/
theorem WellFormed.exists_loop_iff (h : WellFormed epoch log) :
    (∃ s : State D, log.foldlM (step epoch flags) init = .ok s) ↔
      (flags.readCpu = true → ∀ n < 100, (∃ parts ∈ log, type parts = cpuName n) → n ≤ 24) ∧
        AllNumeric flags log := by
  -- for each section alone, by the number of fields of its lines
  have hsection : ∀ slot header rest, rows slot log = header :: rest →
      ((∃ v : Option (D String (List Cell)) × Option (List String),
        (rows slot log).foldlM advance ((init : State D).view slot) = .ok v) ↔
        ((init : State D).keys slot).isSome = true ∧ ∀ fields ∈ rest, Numeric header fields) := by
    intro slot header rest hrows
    rw [view_init, hrows]
    exact exists_foldlM_advance_cons_iff (h.length_rows hrows)
  rw [exists_foldlM_iff]
  constructor
  · rintro ⟨-, hslots⟩
    refine ⟨fun hread n hlt hline => ?_, fun slot header rest hselected hrows => ?_⟩
    · obtain ⟨parts, hmem, htype⟩ := hline
      -- without a variable for its keys the header of a processor is not accepted
      have hne : rows (.cpu n) log ≠ [] :=
        rows_ne_nil_iff.mpr ⟨parts, hmem, by rw [htype, slot?_cpuName hlt]⟩
      obtain ⟨header, rest, hrows⟩ := List.exists_cons_of_ne_nil hne
      have hkeys := ((hsection _ _ _ hrows).mp (hslots (.cpu n) hread)).1
      have hbound := (isSome_keys_cpu_iff _).mp hkeys
      omega
    · exact ((hsection _ _ _ hrows).mp (hslots slot hselected)).2
  · rintro ⟨hcpu, hnumeric⟩
    refine ⟨fun parts hmem => ⟨h.times parts hmem, fun _ hslice => ?_⟩, fun slot hselected => ?_⟩
    -- the number of a processor can be read from its name
    · obtain ⟨n, hn⟩ := h.cpus parts hmem hslice
      rw [hn] at hslice ⊢
      rw [slot?_cpuName (lt_of_slice_cpuName hslice)]
      exact nofun
    · cases hrows : rows slot log with
      | nil => exact ⟨_, rfl⟩
      | cons header rest =>
        rw [← hrows]
        refine (hsection _ _ _ hrows).mpr ⟨?_, hnumeric slot header rest hselected hrows⟩
        cases slot with
        | net | netPacket | diskRead | diskWrite | diskBusy | mem => rfl
        -- only the variables for processors are limited
        | cpu id =>
          obtain ⟨parts, hmem, hslot⟩ := rows_ne_nil_iff.mp (by rw [hrows]; exact nofun)
          obtain ⟨n, hlt, rfl, htype⟩ := h.exists_cpuName hmem hslot
          have hbound := hcpu hselected n hlt ⟨parts, hmem, htype⟩
          exact (isSome_keys_cpu_iff _).mpr (by omega)

/-- The sections that are expected are those which the loop makes, up to processor 99. -/
theorem WellFormed.expected_iff (h : WellFormed epoch log)
    (hcpu : flags.readCpu = true → ∀ n, (∃ parts ∈ log, type parts = cpuName n) → n < 100)
    (name : String) :
    (∃ parts ∈ log, Expected flags (type parts) name) ↔
      ∃ slot, slot.selected flags = true ∧ slot.name = name ∧ rows slot log ≠ [] := by
  constructor
  · rintro ⟨parts, hmem, ⟨htype, hselected⟩ | ⟨hread, n, htype, rfl⟩⟩
    · have hslot : ∃ slot, slot.selected flags = true ∧ slot.name = name ∧
          slot? name = some slot := by
        simp only [List.mem_cons, List.not_mem_nil, or_false] at hselected
        rcases hselected with ⟨rfl | rfl, hread⟩ | ⟨rfl | rfl | rfl, hread⟩ | ⟨rfl, hread⟩
        · exact ⟨.net, hread, rfl, by decide⟩
        · exact ⟨.netPacket, hread, rfl, by decide⟩
        · exact ⟨.diskRead, hread, rfl, by decide⟩
        · exact ⟨.diskWrite, hread, rfl, by decide⟩
        · exact ⟨.diskBusy, hread, rfl, by decide⟩
        · exact ⟨.mem, hread, rfl, by decide⟩
      obtain ⟨slot, hselected, hname, hslot⟩ := hslot
      exact ⟨slot, hselected, hname, rows_ne_nil_iff.mpr ⟨parts, hmem, by rw [htype, hslot]⟩⟩
    · have hslot := slot?_cpuName (hcpu hread n ⟨parts, hmem, htype⟩)
      exact ⟨.cpu n, hread, rfl, rows_ne_nil_iff.mpr ⟨parts, hmem, by rw [htype, hslot]⟩⟩
  · rintro ⟨slot, hselected, rfl, hrows⟩
    obtain ⟨parts, hmem, hslot⟩ := rows_ne_nil_iff.mp hrows
    refine ⟨parts, hmem, ?_⟩
    cases slot with
    | cpu id =>
      obtain ⟨n, -, rfl, htype⟩ := h.exists_cpuName hmem hslot
      exact .inr ⟨hselected, n, htype, rfl⟩
    | net | netPacket | diskRead | diskWrite | diskBusy | mem =>
      rcases type_of_slot hslot with ⟨-, htype⟩ | ⟨id, hid, -⟩
      · refine .inl ⟨htype, ?_⟩
        simp only [Slot.selected] at hselected
        simp [Slot.name, hselected]
      · cases hid

/-- The keys are set unless NET is missing. -/
theorem isSome_of_setKeysIf {flag : Bool} {netKeys : List String}
    {data : D String (D String (List Cell))} :
    (∃ data', setKeysIf flag netKeys data = .ok data') ↔
      (flag = true → (get? data "NET").isSome = true) := by
  unfold setKeysIf
  cases flag with
  | false => simp
  | true => cases get? data "NET" <;> simp

/-- The sections of the result are those after the loop. -/
theorem isSome_readNmonLog_iff {content : List String} {log : Log D}
    (h : readNmonLog epoch flags content = .ok log) (name : String) :
    (get? log.sections name).isSome = true ↔ ∃ slot, slot.selected flags = true ∧
      slot.name = name ∧ rows slot (content.map lineParts) ≠ [] := by
  obtain ⟨s, data, hs, hdata, hdata', -⟩ := readNmonLog_eq_ok_iff.mp h
  rw [(keysAdded_setKeysIf hdata').isSome, (keysAdded_setKeysIf hdata).isSome]
  exact isSome_foldlM_iff hs name

/-- The section of the network is needed if the disks are selected. -/
theorem readNetwork_of_readDisk {content : List String} {log : Log D}
    (h : readNmonLog epoch flags content = .ok log) (hdisk : flags.readDisk = true) :
    flags.readNetwork = true := by
  obtain ⟨s, data, hs, hdata, hdata', -⟩ := readNmonLog_eq_ok_iff.mp h
  have hnet := isSome_of_setKeysIf.mp ⟨_, hdata'⟩ hdisk
  rw [(keysAdded_setKeysIf hdata).isSome] at hnet
  obtain ⟨slot, hselected, hname, -⟩ := (isSome_foldlM_iff hs "NET").mp hnet
  obtain rfl : slot = .net := Slot.name_injective hname
  exact hselected

/-- A log is accepted exactly if the disks are not selected without the network, no processor has a
number above 24, and all values are numbers. -/
theorem accepts_iff (D : Type → Type → Type) [FiniteMap D] (epoch : String → Option ℤ)
    (flags : Flags) (content : List String) (h : WellFormed epoch (content.map lineParts)) :
    Accepts D epoch flags content ↔
      (flags.readNetwork = true ∨ flags.readDisk = false) ∧
      (flags.readCpu = true → ∀ n, (∃ parts ∈ content.map lineParts, type parts = cpuName n) →
        n ≤ 24) ∧
      AllNumeric flags (content.map lineParts) := by
  constructor
  · rintro ⟨log, hlog, -, hnames⟩
    obtain ⟨s, -, hs, -⟩ := readNmonLog_eq_ok_iff.mp hlog
    obtain ⟨hcpu, hnumeric⟩ := h.exists_loop_iff.mp ⟨s, hs⟩
    refine ⟨?_, fun hread n hline => ?_, hnumeric⟩
    · cases hdisk : flags.readDisk with
      | false => exact .inr rfl
      | true => exact .inl (readNetwork_of_readDisk hlog hdisk)
    -- an entry for the processor is there, so its lines have been recognised and `n < 100`
    · have hexpected : (get? log.sections (Slot.cpu n).name).isSome = true := by
        obtain ⟨parts, hmem, htype⟩ := hline
        exact (hnames _).mpr ⟨parts, hmem, .inr ⟨hread, n, htype, rfl⟩⟩
      obtain ⟨slot, -, hname, hrows⟩ := (isSome_readNmonLog_iff hlog _).mp hexpected
      obtain rfl := Slot.name_injective hname
      obtain ⟨parts, hmem, hslot⟩ := rows_ne_nil_iff.mp hrows
      obtain ⟨m, hlt, hm, -⟩ := h.exists_cpuName hmem hslot
      exact hcpu hread n (by omega) hline
  · rintro ⟨hdisk, hcpu, hnumeric⟩
    obtain ⟨s, hs⟩ := (h.exists_loop_iff (D := D)).mpr
      ⟨fun hread n _ hline => hcpu hread n hline, hnumeric⟩
    -- `data['NET']` exists whenever it is accessed, even for the disks
    have hnet : flags.readNetwork = true → (get? s.data "NET").isSome = true := by
      intro hread
      obtain ⟨parts, hmem, htype⟩ := h.occurs "NET" (by decide)
      refine (isSome_foldlM_iff hs "NET").mpr ⟨.net, hread, rfl, rows_ne_nil_iff.mpr
        ⟨parts, hmem, ?_⟩⟩
      rw [htype]
      decide
    obtain ⟨data, hdata⟩ : ∃ data, setKeysIf flags.readNetwork s.netKeys s.data = .ok data :=
      isSome_of_setKeysIf.mpr hnet
    -- the condition excludes the disks without the network
    have hnet' : flags.readDisk = true → (get? data "NET").isSome = true := by
      intro hread
      rw [(keysAdded_setKeysIf hdata).isSome]
      exact hnet (hdisk.resolve_right (by simp [hread]))
    obtain ⟨data', hdata'⟩ : ∃ data', setKeysIf flags.readDisk s.netKeys data = .ok data' :=
      isSome_of_setKeysIf.mpr hnet'
    have hlog : readNmonLog epoch flags content = .ok ⟨s.timestamps, data'⟩ :=
      readNmonLog_eq_ok_iff.mpr ⟨s, data, hs, hdata, hdata', rfl⟩
    obtain ⟨times, htimes, happend⟩ := timestamps_foldlM hs
    refine ⟨_, hlog, ?_, fun name => ?_⟩
    · rw [htimes, happend]
      rfl
    · rw [isSome_readNmonLog_iff hlog, h.expected_iff fun hread n hline =>
        (hcpu hread n hline).trans_lt (by decide)]

/-- Processor 25 is added. -/
def largeLog : List String := smallLog ++ ["CPU025,CPU 25,User%\n"]

/-- These logs are well-formed. -/
theorem wellFormed_of_length {log : List (List String)}
    (hlength : ∀ parts ∈ log, slot? (type parts) ≠ none →
      parts.length = if type parts = "NET" then 5 else 3)
    (hoccurs : ∀ name ∈ ["NET", "DISKREAD", "DISKWRITE", "DISKBUSY", "MEM", cpuName 1],
      ∃ parts ∈ log, type parts = name)
    (hcpus : ∀ parts ∈ log, slice (type parts) 0 4 = "CPU0" →
      ∃ n ∈ [1, 25], type parts = cpuName n)
    (htimes : ∀ parts ∈ log, type parts = "ZZZZ" → 2 < parts.length) :
    WellFormed constEpoch log where
  lengths name header rest hread heq parts hmem := by
    have hin : ∀ parts ∈ header :: rest, parts.length = if name = "NET" then 5 else 3 := by
      intro parts hparts
      rw [← heq, List.mem_filter] at hparts
      obtain rfl := of_decide_eq_true hparts.2
      exact hlength parts hparts.1 hread
    rw [hin parts (List.mem_cons_of_mem _ hmem), hin header List.mem_cons_self]
  occurs name hname := hoccurs name (by simp at hname ⊢; tauto)
  cpu := by
    obtain ⟨parts, hmem, htype⟩ := hoccurs (cpuName 1) (by simp)
    exact ⟨parts, hmem, 1, htype⟩
  cpus parts hmem hslice := by
    obtain ⟨n, -, hn⟩ := hcpus parts hmem hslice
    exact ⟨n, hn⟩
  times parts hmem htype := by
    have htwo := htimes parts hmem htype
    exact ⟨1 + nmonTimezoneCorrection, by rw [timestamp, List.getElem?_eq_getElem htwo]; rfl⟩

theorem map_lineParts_largeLog :
    largeLog.map lineParts = smallLog.map lineParts ++ [["CPU025", "CPU 25", "User%"]] := by
  rw [largeLog, List.map_append]
  rfl

/-- The small log is one that nmon may write. -/
theorem wellFormed_smallLog : WellFormed constEpoch (smallLog.map lineParts) := by
  rw [map_lineParts_smallLog]
  exact wellFormed_of_length (by decide +kernel) (by decide +kernel) (by decide +kernel)
    (by decide +kernel)

/-- So is the large one. -/
theorem wellFormed_largeLog : WellFormed constEpoch (largeLog.map lineParts) := by
  rw [map_lineParts_largeLog, map_lineParts_smallLog]
  exact wellFormed_of_length (by decide +kernel) (by decide +kernel) (by decide +kernel)
    (by decide +kernel)

/-- The small log is read to its end. -/
theorem accepts_smallLog : Accepts AssocMap constEpoch {} smallLog := by
  have hslots : ∀ parts ∈ smallLog.map lineParts, slot? (type parts) ∈
      [none, some .net, some .diskRead, some .diskWrite, some .diskBusy, some .mem,
        some (.cpu 1)] := by
    rw [map_lineParts_smallLog]
    decide +kernel
  have hcpus : ∀ parts ∈ smallLog.map lineParts, slice (type parts) 0 3 = "CPU" →
      slice (type parts) 0 4 = "CPU0" := by
    rw [map_lineParts_smallLog]
    decide +kernel
  refine (accepts_iff AssocMap constEpoch {} smallLog wellFormed_smallLog).mpr
    ⟨.inl rfl, fun _ n hline => ?_, fun slot header rest _ hrows => ?_⟩
  · obtain ⟨parts, hmem, htype⟩ := hline
    have hlt : n < 100 := lt_of_slice_cpuName (htype ▸ hcpus parts hmem (by
      rw [htype]
      simp [slice, cpuName]))
    have hslot := hslots parts hmem
    rw [htype, slot?_cpuName hlt] at hslot
    simp at hslot
    omega
  · obtain ⟨parts, hmem, hslot⟩ := rows_ne_nil_iff.mp (by rw [hrows]; exact nofun)
    have hmem := hslots parts hmem
    rw [hslot] at hmem
    by_cases hnet : slot = .net
    · -- the only data lines
      subst hnet
      cases rows_smallLog.symm.trans hrows
      have hnumber : ∀ value ∈ ["1.5", "", "2.5", "0.5", "7"],
          value ≠ "" → (float value).isSome = true := by
        decide +kernel
      have hvalues : ∀ fields ∈ [["1.5", "", ""], ["2.5", "0.5", "7"]], ∀ value ∈ fields,
          value ∈ ["1.5", "", "2.5", "0.5", "7"] := by
        decide +kernel
      intro fields hfields column hcolumn _
      exact hnumber _ (hvalues fields hfields _ (List.of_mem_zip hcolumn).2)
    · have hone : (rows slot (smallLog.map lineParts)).length = 1 := by
        simp [hnet] at hmem
        rw [map_lineParts_smallLog]
        rcases hmem with rfl | rfl | rfl | rfl | rfl <;> decide +kernel
      rw [hrows, List.length_cons, Nat.succ_inj] at hone
      rw [List.length_eq_zero_iff.mp hone]
      exact nofun

/-- The disks are selected without the network; and there is a processor 25. -/
theorem not_accepts_largeLog :
    (WellFormed constEpoch (smallLog.map lineParts) ∧
      ¬Accepts AssocMap constEpoch { readNetwork := false } smallLog) ∧
    WellFormed constEpoch (largeLog.map lineParts) ∧
      ¬Accepts AssocMap constEpoch {} largeLog := by
  refine ⟨⟨wellFormed_smallLog, ?_⟩, wellFormed_largeLog, ?_⟩
  · rintro ⟨log, hlog, -⟩
    cases readNetwork_of_readDisk hlog rfl
  · rintro ⟨log, hlog, -⟩
    obtain ⟨s, data, hs, -⟩ := readNmonLog_eq_ok_iff.mp hlog
    have hline : ∃ parts ∈ largeLog.map lineParts, type parts = cpuName 25 := by
      rw [map_lineParts_largeLog, map_lineParts_smallLog]
      decide +kernel
    have hbound := (wellFormed_largeLog.exists_loop_iff.mp ⟨s, hs⟩).1 rfl 25 (by decide) hline
    exact absurd hbound (by decide)

end Acceptance

end NmonLogReader
