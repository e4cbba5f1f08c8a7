import Mathlib.Data.List.Basic

/-!
# Keyed logs and log compaction

A log is a list of messages, oldest first, each of which carries a key. Compaction may delete
a message once a later message with the same key follows it in the log.

* `last? key log k` — the last message with key `k`;
* `Compacts key log log'` — `log'` is obtained from `log` by deleting superseded messages;
* `compact key log` — the extreme case, where every superseded message is deleted;
* `Compacts.last?_eq` — no compaction changes the last message of any key.
-/

namespace KeyedLog

variable {μ κ : Type} [DecidableEq κ] (key : μ → κ)

/-- The last message of the log with key `k`. -/
def last? (log : List μ) (k : κ) : Option μ := (log.filter fun m => key m = k).getLast?

/-- A message appended to the log is the last one of its key, and of no other key. -/
theorem last?_concat (log : List μ) (m : μ) (k : κ) :
    last? key (log ++ [m]) k = if key m = k then some m else last? key log k := by
  by_cases h : key m = k
  · simp [last?, h]
  · simp [last?, h]

/-- An older message counts only if no message of its key follows. -/
theorem last?_cons (m : μ) (log : List μ) (k : κ) :
    last? key (m :: log) k = (last? key log k).or (if key m = k then some m else none) := by
  by_cases h : key m = k
  · rw [last?, List.filter_cons_of_pos (by simpa using h), List.getLast?_cons, last?, if_pos h]
    cases (log.filter fun m => key m = k).getLast? <;> rfl
  · rw [last?, List.filter_cons_of_neg (by simpa using h), last?, if_neg h, Option.or_none]

/-- A key has a last message as soon as some message carries it. -/
theorem last?_eq_none_iff {log : List μ} {k : κ} :
    last? key log k = none ↔ ∀ m ∈ log, key m ≠ k := by
  simp [last?]

/-- `Compacts key log log'`: `log'` is `log` without some of the messages that a later message
of `log` with the same key supersedes. -/
inductive Compacts : List μ → List μ → Prop
  | nil : Compacts [] []
  | keep (m : μ) {log log' : List μ} : Compacts log log' → Compacts (m :: log) (m :: log')
  | drop (m : μ) {log log' : List μ} :
      (∃ m' ∈ log, key m' = key m) → Compacts log log' → Compacts (m :: log) log'

variable {key}

omit [DecidableEq κ] in
/-- A log is a compaction of itself. -/
theorem Compacts.refl (log : List μ) : Compacts key log log := by
  induction log with
  | nil => exact .nil
  | cons m log ih => exact .keep m ih

omit [DecidableEq κ] in
/-- A coarser key allows more compactions. -/
theorem Compacts.of_key_eq {κ' : Type} {key' : μ → κ'}
    (hkey : ∀ m m', key m' = key m → key' m' = key' m) {log log' : List μ}
    (h : Compacts key log log') : Compacts key' log log' := by
  induction h with
  | nil => exact .nil
  | keep m _ ih => exact .keep m ih
  | drop m hlater _ ih =>
    obtain ⟨m', hmem, heq⟩ := hlater
    exact .drop m ⟨m', hmem, hkey m m' heq⟩ ih

omit [DecidableEq κ] in
/-- Compaction deletes messages, and keeps the others in order. -/
theorem Compacts.sublist {log log' : List μ} (h : Compacts key log log') : log'.Sublist log := by
  induction h with
  | nil => exact .slnil
  | keep m _ ih => exact ih.cons_cons m
  | drop m _ _ ih => exact ih.cons m

/-- Compaction keeps the last message of every key. -/
theorem Compacts.last?_eq {log log' : List μ} (h : Compacts key log log') (k : κ) :
    last? key log' k = last? key log k := by
  induction h with
  | nil => rfl
  | keep m _ ih => rw [last?_cons, last?_cons, ih]
  | drop m hlater _ ih =>
    obtain ⟨m', hmem, hkey⟩ := hlater
    rw [last?_cons, ih]
    -- the dropped message is not the last one of its key, and of no other key anyway
    by_cases hk : key m = k
    · have hne : last? key _ k ≠ none := fun hnone =>
        (last?_eq_none_iff key).mp hnone m' hmem (hkey.trans hk)
      obtain ⟨x, hx⟩ := Option.ne_none_iff_exists'.mp hne
      rw [hx, Option.some_or]
    · rw [if_neg hk, Option.or_none]

variable (key)

/-- Delete every superseded message: only the last message of each key remains. -/
def compact : List μ → List μ
  | [] => []
  | m :: log => if ∃ m' ∈ log, key m' = key m then compact log else m :: compact log

/-- Deleting every superseded message is a compaction. -/
theorem compacts_compact (log : List μ) : Compacts key log (compact key log) := by
  induction log with
  | nil => exact .nil
  | cons m log ih =>
    by_cases h : ∃ m' ∈ log, key m' = key m
    · rw [compact, if_pos h]
      exact .drop m h ih
    · rw [compact, if_neg h]
      exact .keep m ih

/-- Full compaction introduces no message. -/
theorem mem_of_mem_compact {log : List μ} {m : μ} (h : m ∈ compact key log) : m ∈ log := by
  induction log with
  | nil => exact h
  | cons a log ih =>
    by_cases hlater : ∃ m' ∈ log, key m' = key a
    · rw [compact, if_pos hlater] at h
      exact List.mem_cons_of_mem a (ih h)
    · rw [compact, if_neg hlater, List.mem_cons] at h
      rcases h with rfl | h
      · exact List.mem_cons_self
      · exact List.mem_cons_of_mem a (ih h)

/-- After full compaction every key has at most one message. -/
theorem nodup_map_key_compact (log : List μ) : ((compact key log).map key).Nodup := by
  induction log with
  | nil => simp [compact]
  | cons m log ih =>
    by_cases h : ∃ m' ∈ log, key m' = key m
    · rwa [compact, if_pos h]
    · rw [compact, if_neg h, List.map_cons, List.nodup_cons]
      refine ⟨?_, ih⟩
      intro hmem
      obtain ⟨m', hm', hkey⟩ := List.mem_map.mp hmem
      exact h ⟨m', mem_of_mem_compact key hm', hkey⟩

end KeyedLog
