import Mathlib.Data.List.DropRight
import Std.Data.String.ToInt
import Std.Data.String.ToNat

/-!
# Separated texts

Texts made of parts with a separator character in between, and how they are taken apart again.

* `split sep text` — the parts of a text, as `String.split` of the JDK returns them: trailing
  empty parts are left out, and a text without the separator is its own only part;
* `split_intercalate` — the parts come back if none of them contains the separator and the last
  one is not empty;
* `mem_split` — what the parts consist of;
* `joinWith`, `readWith` — sequences of values, printed and read element by element;
* `append_sep_inj`, `append_sep_inj_right` — a separator that does not occur in the first part
  marks its end, and one that does not occur in the second part marks its beginning;
* `repr_append_inj` — a number ends where something else follows.
-/

namespace Text

/-- The parts of `text` between occurrences of `sep`. -/
def split (sep : Char) (text : String) : List String :=
  if sep ∈ text.toList then
    ((text.toList.splitOn sep).map String.ofList).rdropWhile (· = "")
  else [text]

variable {sep : Char}

/-- Fields without the separator, the last one not empty, are split as they were joined. -/
theorem split_intercalate {parts : List String} {last : String}
    (hfree : ∀ p ∈ parts ++ [last], sep ∉ p.toList) (hlast : last ≠ "") :
    split sep ((String.singleton sep).intercalate (parts ++ [last])) = parts ++ [last] := by
  set text := (String.singleton sep).intercalate (parts ++ [last]) with htext
  have hsplit : text.toList.splitOn sep = (parts ++ [last]).map String.toList := by
    rw [htext, String.toList_intercalate, String.toList_singleton]
    refine List.splitOn_intercalate sep ?_ (by simp)
    intro l hl
    obtain ⟨p, hp, rfl⟩ := List.mem_map.mp hl
    exact hfree p hp
  have hparts : (text.toList.splitOn sep).map String.ofList = parts ++ [last] := by
    rw [hsplit, List.map_map]
    simp
  by_cases hsep : sep ∈ text.toList
  · -- the last part is not empty, so no trailing part is left out
    rw [split, if_pos hsep, hparts]
    exact List.rdropWhile_concat_neg _ _ _ (by simpa using hlast)
  · -- without a separator there is only one part
    rw [List.splitOn_eq_singleton hsep] at hparts
    rw [split, if_neg hsep]
    simpa using hparts

/-- A part contains no separator, and only characters of the whole. -/
theorem mem_splitOn {xs l : List Char} (h : l ∈ xs.splitOn sep) :
    sep ∉ l ∧ ∀ c ∈ l, c ∈ xs := by
  induction xs generalizing l with
  | nil =>
    rw [List.splitOn_nil, List.mem_singleton] at h
    subst h
    simp
  | cons x xs ih =>
    rw [List.splitOn_cons_eq_if_modifyHead] at h
    split_ifs at h with hx
    · rcases List.mem_cons.mp h with rfl | h
      · simp
      · exact ⟨(ih h).1, fun c hc => List.mem_cons_of_mem x ((ih h).2 c hc)⟩
    · -- the first part gets one more character, which is not the separator
      obtain ⟨part, parts, hparts⟩ := List.exists_cons_of_ne_nil (List.splitOn_ne_nil sep xs)
      rw [hparts] at h ih
      have hne : sep ≠ x := fun heq => hx (by simp [heq])
      rcases List.mem_cons.mp h with rfl | h
      · obtain ⟨hfree, hsub⟩ := ih List.mem_cons_self
        refine ⟨by simp [hne, hfree], ?_⟩
        intro c hc
        rcases List.mem_cons.mp hc with rfl | hc
        · exact List.mem_cons_self
        · exact List.mem_cons_of_mem x (hsub c hc)
      · obtain ⟨hfree, hsub⟩ := ih (List.mem_cons_of_mem part h)
        exact ⟨hfree, fun c hc => List.mem_cons_of_mem x (hsub c hc)⟩

/-- A part has no separator, and only characters of the text. -/
theorem mem_split {text p : String} (h : p ∈ split sep text) :
    sep ∉ p.toList ∧ ∀ c ∈ p.toList, c ∈ text.toList := by
  unfold split at h
  split_ifs at h with hsep
  · have hmem := (List.rdropWhile_prefix _ _).subset h
    obtain ⟨l, hl, rfl⟩ := List.mem_map.mp hmem
    simpa using mem_splitOn hl
  · obtain rfl := List.mem_singleton.mp h
    exact ⟨hsep, fun _ hc => hc⟩

/-- A text is cut at its first separator in one way only. -/
theorem append_sep_inj {a b c d : String} (ha : sep ∉ a.toList) (hb : sep ∉ b.toList) :
    a ++ String.singleton sep ++ c = b ++ String.singleton sep ++ d ↔ a = b ∧ c = d := by
  refine ⟨fun h => ?_, by rintro ⟨rfl, rfl⟩; rfl⟩
  have hlist : a.toList ++ sep :: c.toList = b.toList ++ sep :: d.toList := by
    simpa using congrArg String.toList h
  -- the first part of the two texts ends at their first separator
  have hsplit := congrArg (List.splitOn sep) hlist
  rw [List.splitOn_append_cons_self_of_not_mem ha,
    List.splitOn_append_cons_self_of_not_mem hb] at hsplit
  have hab : a.toList = b.toList := (List.cons.inj hsplit).1
  rw [hab] at hlist
  have hcd : c.toList = d.toList := (List.cons.inj (List.append_cancel_left hlist)).2
  exact ⟨String.toList_inj.mp hab, String.toList_inj.mp hcd⟩

/-- A text is cut at its last separator in one way only. -/
theorem append_sep_inj_right {a b c d : String} (hc : sep ∉ c.toList) (hd : sep ∉ d.toList) :
    a ++ String.singleton sep ++ c = b ++ String.singleton sep ++ d ↔ a = b ∧ c = d := by
  refine ⟨fun h => ?_, by rintro ⟨rfl, rfl⟩; rfl⟩
  have hlist : a.toList ++ sep :: c.toList = b.toList ++ sep :: d.toList := by
    simpa using congrArg String.toList h
  -- read backwards, the texts end at their first separator
  have hrev : c.toList.reverse ++ sep :: a.toList.reverse =
      d.toList.reverse ++ sep :: b.toList.reverse := by
    simpa using congrArg List.reverse hlist
  have hsplit := congrArg (List.splitOn sep) hrev
  rw [List.splitOn_append_cons_self_of_not_mem (by simpa using hc),
    List.splitOn_append_cons_self_of_not_mem (by simpa using hd)] at hsplit
  have hcd : c.toList = d.toList := List.reverse_injective (List.cons.inj hsplit).1
  rw [hcd] at hlist
  have hab : a.toList = b.toList := List.append_cancel_right hlist
  exact ⟨String.toList_inj.mp hab, String.toList_inj.mp hcd⟩

section Sequences

variable {α : Type}

/-- Print the elements of a list with `sep` in between. -/
def joinWith (sep : Char) (print : α → String) (l : List α) : String :=
  (String.singleton sep).intercalate (l.map print)

/-- Read the parts of a text one by one. -/
def readWith (sep : Char) (read : String → Option α) (text : String) : Option (List α) :=
  (split sep text).mapM read

/-- A joined list is read back when every element is and none contains the separator. -/
theorem readWith_joinWith {print : α → String} {read : String → Option α} {l : List α}
    (hl : l ≠ []) (hread : ∀ x ∈ l, read (print x) = some x)
    (hfree : ∀ x ∈ l, sep ∉ (print x).toList) (hne : ∀ x ∈ l, print x ≠ "") :
    readWith sep read (joinWith sep print l) = some l := by
  obtain ⟨init, x, rfl⟩ : ∃ init x, l = init ++ [x] := (List.eq_nil_or_concat' l).resolve_left hl
  have hsplit : split sep (joinWith sep print (init ++ [x])) = (init ++ [x]).map print := by
    rw [joinWith, List.map_append, List.map_singleton]
    refine split_intercalate ?_ (hne x (by simp))
    intro p hp
    rw [← List.map_singleton, ← List.map_append] at hp
    obtain ⟨y, hy, rfl⟩ := List.mem_map.mp hp
    exact hfree y hy
  rw [readWith, hsplit]
  -- reading every part back succeeds
  generalize init ++ [x] = l at hread
  induction l with
  | nil => rfl
  | cons y l ih =>
    have hrest := ih (fun z hz => hread z (List.mem_cons_of_mem y hz))
    rw [List.map_cons, List.mapM_cons, hread y List.mem_cons_self, hrest]
    rfl

/-- A character of no element and unlike the separator is not in the joined text. -/
theorem not_mem_joinWith {c : Char} {print : α → String} {l : List α} (hsep : c ≠ sep)
    (hfree : ∀ x ∈ l, c ∉ (print x).toList) : c ∉ (joinWith sep print l).toList := by
  induction l with
  | nil => simp [joinWith]
  | cons x l ih =>
    have hx : c ∉ (print x).toList := hfree x List.mem_cons_self
    have hrest := ih fun y hy => hfree y (List.mem_cons_of_mem x hy)
    cases l with
    | nil => simpa [joinWith] using hx
    | cons y l =>
      rw [joinWith, List.map_cons, List.map_cons, String.intercalate_cons_cons, ← List.map_cons,
        ← joinWith]
      simp [hx, hsep, hrest]

end Sequences

/-- Only digits occur in a printed natural number. -/
theorem not_mem_repr {c : Char} (hc : c.isDigit = false) (n : ℕ) : c ∉ n.repr.toList := by
  rw [Nat.toList_repr]
  intro hmem
  have hdigit : c.isDigit = true := Nat.isDigit_of_mem_toDigits (by omega) (by omega) hmem
  simp [hc] at hdigit

/-- Only digits and the sign occur in a printed integer. -/
theorem not_mem_int_repr {c : Char} (hc : c.isDigit = false) (hminus : c ≠ '-') (z : ℤ) :
    c ∉ z.repr.toList := by
  rw [Int.repr_eq_if]
  split
  · exact not_mem_repr hc _
  · rw [String.toList_append, List.mem_append]
    rintro (hmem | hmem)
    · simp [hminus] at hmem
    · exact not_mem_repr hc _ hmem

theorem int_repr_ne_empty (z : ℤ) : z.repr ≠ "" := by
  rw [Int.repr_eq_if]
  split
  · exact Nat.repr_ne_empty
  · simp

/-- A number is not mistaken for the text that follows it. -/
theorem repr_append_inj {text : String} {c : Char} {cs : List Char} (htext : text.toList = c :: cs)
    (hc : c.isDigit = false) (hminus : c ≠ '-') {i j : ℤ} {s s' : String} :
    i.repr ++ (text ++ s) = j.repr ++ (text ++ s') ↔ i = j ∧ s = s' := by
  have hsplit : text = String.singleton c ++ String.ofList cs := by
    rw [← String.toList_inj, htext]
    simp
  rw [hsplit, String.append_assoc, String.append_assoc, ← String.append_assoc,
    ← @String.append_assoc j.repr, append_sep_inj (not_mem_int_repr hc hminus i)
    (not_mem_int_repr hc hminus j), String.append_right_inj]
  exact and_congr_left fun _ => ⟨fun h => Int.repr_injective h, fun h => by rw [h]⟩

end Text
