import StateTableBench.Text.Split

/-!
# Regular expressions with groups of digits

The regular expressions that consist of literal characters and of groups `(\d)` and `(\d+)`, with
the meaning of `re.match` for a pattern between `^` and `$`.

* `Item`, `fullMatch` — a pattern and the texts of its groups in a match. As the library does, a
  group `(\d+)` first takes all digits there are, and gives some of them back if the rest does not
  match;
* `fullMatch_repr`, `fullMatch_digit_repr` — what the groups make of a number in decimal notation
  that is followed by something else than a digit.
-/

namespace Text.Regex

/-- A part of a pattern. -/
inductive Item
  | literal (c : Char)
  /-- The group `(\d)`. -/
  | digit
  /-- The group `(\d+)`. -/
  | digits
deriving DecidableEq

/-- A literal text in a pattern. -/
def literals (text : String) : List Item := text.toList.map .literal

/-- `$` matches at the end, and before a newline at the end. -/
def atEnd (text : List Char) : Bool := text = [] ∨ text = ['\n']

/-- The texts of the groups, if the whole text matches. -/
def fullMatch : List Item → List Char → Option (List (List Char))
  | [], text => if atEnd text then some [] else none
  | .literal c :: items, text =>
    match text with
    | [] => none
    | d :: text => if c = d then fullMatch items text else none
  | .digit :: items, text =>
    match text with
    | [] => none
    | d :: text => if d.isDigit then (fullMatch items text).map ([d] :: ·) else none
  | .digits :: items, text =>
    -- from the longest to the shortest
    (List.range (text.takeWhile Char.isDigit).length).reverse.findSome? fun n =>
      (fullMatch items (text.drop (n + 1))).map (text.take (n + 1) :: ·)

variable {items : List Item} {text : List Char}

@[simp]
theorem fullMatch_literal_cons (c d : Char) :
    fullMatch (.literal c :: items) (d :: text) = if c = d then fullMatch items text else none := by
  rw [fullMatch]

/-- A literal text matches itself. -/
theorem fullMatch_literals (cs : List Char) :
    fullMatch (cs.map .literal ++ items) (cs ++ text) = fullMatch items text := by
  induction cs with
  | nil => rfl
  | cons c cs ih =>
    rw [List.map_cons, List.cons_append, List.cons_append, fullMatch_literal_cons, if_pos rfl, ih]

/-- A group of digits that is followed by a literal takes all digits. -/
theorem fullMatch_digits {ds : List Char} (hne : ds ≠ []) (hds : ∀ d ∈ ds, d.isDigit = true)
    {c : Char} (hc : c.isDigit = false) :
    fullMatch (.digits :: .literal c :: items) (ds ++ c :: text) =
      (fullMatch items text).map (ds :: ·) := by
  have hrun : (ds ++ c :: text).takeWhile Char.isDigit = ds := by
    rw [List.takeWhile_append_of_pos hds, List.takeWhile_cons_of_neg (by simp [hc]),
      List.append_nil]
  obtain ⟨n, hn⟩ : ∃ n, ds.length = n + 1 := Nat.exists_eq_succ_of_ne_zero (by simpa using hne)
  have hwhole : fullMatch (.literal c :: items) ((ds ++ c :: text).drop (n + 1)) =
      fullMatch items text := by
    rw [← hn, List.drop_left', fullMatch_literal_cons, if_pos rfl]
    rfl
  have htake : (ds ++ c :: text).take (n + 1) = ds := by
    rw [← hn, List.take_left']
    rfl
  rw [fullMatch, hrun, hn, List.range_succ, List.reverse_append, List.reverse_singleton,
    List.singleton_append, List.findSome?_cons, hwhole, htake]
  cases fullMatch items text with
  | some groups => rfl
  | none =>
    -- giving digits back does not help: the literal would have to match a digit
    rw [Option.map_none]
    show List.findSome? _ _ = none
    rw [List.findSome?_eq_none_iff]
    intro k hk
    have hlt : k + 1 < ds.length := by
      have hk' := List.mem_range.mp (List.mem_reverse.mp hk)
      omega
    have hdrop : (ds ++ c :: text).drop (k + 1) =
        ds[k + 1] :: (ds ++ c :: text).drop (k + 2) := by
      rw [List.drop_eq_getElem_cons (by simp; omega), List.getElem_append_left hlt]
    have hdigit := hds ds[k + 1] (List.getElem_mem hlt)
    rw [hdrop, fullMatch_literal_cons, if_neg, Option.map_none]
    rintro rfl
    rw [hdigit] at hc
    cases hc

/-- A number in decimal notation, followed by a text that does not begin with a digit. -/
theorem fullMatch_repr {sep : String} {c : Char} {cs : List Char} (hsep : sep.toList = c :: cs)
    (hc : c.isDigit = false) (n : ℕ) :
    fullMatch (.digits :: (literals sep ++ items)) (n.repr.toList ++ (sep.toList ++ text)) =
      (fullMatch items text).map (n.repr.toList :: ·) := by
  have hne : n.repr.toList ≠ [] := by
    rw [Nat.toList_repr]
    exact Nat.toDigits_ne_nil
  have hdigits : ∀ d ∈ n.repr.toList, d.isDigit = true := by
    rw [Nat.toList_repr]
    intro d hd
    exact Nat.isDigit_of_mem_toDigits (by omega) (by omega) hd
  rw [literals, hsep, List.map_cons, List.cons_append, List.cons_append,
    fullMatch_digits hne hdigits hc, fullMatch_literals]

/-- A group of one digit does not match a number of several digits. -/
theorem fullMatch_digit_repr {sep : String} {c : Char} {cs : List Char}
    (hsep : sep.toList = c :: cs) (hc : c.isDigit = false) (n : ℕ) :
    fullMatch (.digit :: (literals sep ++ items)) (n.repr.toList ++ (sep.toList ++ text)) =
      if n < 10 then (fullMatch items text).map (n.repr.toList :: ·) else none := by
  rw [Nat.toList_repr, literals, hsep, List.map_cons, List.cons_append, List.cons_append]
  split
  · next hlt =>
    have hmem : n.digitChar ∈ Nat.toDigits 10 n := by
      rw [Nat.toDigits_of_lt_base hlt]
      exact List.mem_singleton.mpr rfl
    have hdigit : n.digitChar.isDigit = true :=
      Nat.isDigit_of_mem_toDigits (by omega) (by omega) hmem
    rw [Nat.toDigits_of_lt_base hlt, List.singleton_append, fullMatch, if_pos hdigit,
      fullMatch_literal_cons, if_pos rfl, fullMatch_literals]
  · next hge =>
    -- the literal would have to match the second digit
    obtain ⟨d, d', ds, hds⟩ : ∃ d d' ds, Nat.toDigits 10 n = d :: d' :: ds := by
      have hsplit := Nat.toDigits_of_base_le (b := 10) (n := n) (by omega) (by omega)
      have hne : Nat.toDigits 10 (n / 10) ≠ [] := Nat.toDigits_ne_nil
      cases hfirst : Nat.toDigits 10 (n / 10) with
      | nil => exact absurd hfirst hne
      | cons d ds =>
        rw [hfirst, List.cons_append] at hsplit
        cases ds with
        | nil => exact ⟨_, _, _, hsplit⟩
        | cons d' ds => exact ⟨_, _, _, hsplit⟩
    have hdigits : ∀ e ∈ Nat.toDigits 10 n, e.isDigit = true := fun e he =>
      Nat.isDigit_of_mem_toDigits (by omega) (by omega) he
    rw [hds] at hdigits ⊢
    have hd : d.isDigit = true := hdigits d (by simp)
    have hd' : d'.isDigit = true := hdigits d' (by simp)
    have hcd : c ≠ d' := by
      rintro rfl
      rw [hd'] at hc
      cases hc
    rw [List.cons_append, List.cons_append, fullMatch, if_pos hd, fullMatch_literal_cons,
      if_neg hcd, Option.map_none]

end Text.Regex
