import StateTableBench.Arithmetic.Binary64
import StateTableBench.Text.Split

/-!
# Numbers in texts

The functions `int` and `float` of Python for texts in decimal notation.

* `int`, `float` — the number that a text stands for; there is none if a `ValueError` is raised;
* `int_repr`, `float_repr` — an integer is read as it is, and rounded to a `double`.
-/

open Binary64

namespace Text.Numerals

def isspace (c : Char) : Bool := c ∈ [' ', '\t', '\n', '\r', '\x0b', '\x0c']

def strip (text : List Char) : List Char := (text.dropWhile isspace).rdropWhile isspace

/-- One digit or more. -/
def digits (text : List Char) : Option ℕ :=
  if text ≠ [] ∧ text.all Char.isDigit then some (Nat.ofDigitChars 10 text 0) else none

/-- A number after an optional sign. -/
def signed {α : Type} [Neg α] (unsigned : List Char → Option α) : List Char → Option α
  | '-' :: text => (unsigned text).map fun x => -x
  | '+' :: text => unsigned text
  | text => unsigned text

/-- Digits after an optional sign. -/
def integer (text : List Char) : Option ℤ := signed (fun text => (digits text).map Int.ofNat) text

def int (text : String) : Option ℤ := integer (strip text.toList)

/-- The number `m * 10 ^ e`, rounded. -/
def decimal (m : ℕ) (e : ℤ) : Float :=
  if 0 ≤ e then ofInt (m * 10 ^ e.toNat : ℕ) else ⟨Float.Model.ofScientific m e⟩

/-- A text for `float` without a sign. -/
def unsignedFloat (text : List Char) : Option Float :=
  let lower := text.map Char.toLower
  if lower = "inf".toList ∨ lower = "infinity".toList then some (1.0 / 0.0)
  else if lower = "nan".toList then some (0.0 / 0.0)
  else do
    -- the digits before and after the point, and the exponent
    let (number, exponent) := text.span fun c => c ≠ 'e' ∧ c ≠ 'E'
    let (whole, fraction) := number.span fun c => c ≠ '.'
    let fraction := fraction.drop 1
    let e ← match exponent with
      | [] => some 0
      | _ :: exponent => integer exponent
    let m ← digits (whole ++ fraction)
    return decimal m (e - fraction.length)

def float (text : String) : Option Float := signed unsignedFloat (strip text.toList)

/-! ## Integers -/

variable {text : List Char} {c : Char} {n : ℕ} {z : ℤ}

theorem ne_of_isDigit {d : Char} (hc : c.isDigit = true) (hd : d.isDigit = false) : c ≠ d := by
  rintro rfl
  rw [hc] at hd
  cases hd

/-- A digit is no white space. -/
theorem isspace_of_isDigit (h : c.isDigit = true) : isspace c = false := by
  by_contra hspace
  simp only [isspace, Bool.not_eq_false, decide_eq_true_eq, List.mem_cons, List.not_mem_nil,
    or_false] at hspace
  rcases hspace with rfl | rfl | rfl | rfl | rfl | rfl <;> cases h

/-- A text without white space is not stripped. -/
theorem strip_eq_self (h : ∀ c ∈ text, isspace c = false) : strip text = text := by
  have hfirst : text.dropWhile isspace = text := by
    cases text with
    | nil => rfl
    | cons c text => rw [List.dropWhile_cons_of_neg (by simp [h c List.mem_cons_self])]
  rw [strip, hfirst, List.rdropWhile_eq_self_iff]
  intro hne
  simp [h _ (List.getLast_mem hne)]

/-- A natural number is printed in digits. -/
theorem isDigit_of_mem_repr (h : c ∈ n.repr.toList) : c.isDigit = true := by
  rw [Nat.toList_repr] at h
  exact Nat.isDigit_of_mem_toDigits (by omega) (by omega) h

/-- Nothing is stripped off a printed integer. -/
theorem strip_int_repr (z : ℤ) : strip z.repr.toList = z.repr.toList := by
  apply strip_eq_self
  intro c hc
  rw [Int.repr_eq_if] at hc
  split at hc
  · exact isspace_of_isDigit (isDigit_of_mem_repr hc)
  · rw [String.toList_append, List.mem_append] at hc
    rcases hc with hminus | hdigit
    · obtain rfl : c = '-' := by simpa using hminus
      rfl
    · exact isspace_of_isDigit (isDigit_of_mem_repr hdigit)

/-- The digits of a natural number are read back. -/
theorem digits_repr (n : ℕ) : digits n.repr.toList = some n := by
  have hall : n.repr.toList.all Char.isDigit = true :=
    List.all_eq_true.mpr fun c hc => isDigit_of_mem_repr hc
  have hne : n.repr.toList ≠ [] := by
    rw [Nat.toList_repr]
    exact Nat.toDigits_ne_nil
  rw [digits, if_pos ⟨hne, hall⟩, Nat.toList_repr, Nat.ofDigitChars_ten_toDigits]

/-- The sign of an integer. -/
theorem signed_int_repr {α : Type} [Neg α] {unsigned : List Char → Option α} {f : ℕ → α}
    (hunsigned : ∀ n : ℕ, unsigned n.repr.toList = some (f n)) (z : ℤ) :
    signed unsigned z.repr.toList =
      some (if 0 ≤ z then f z.toNat else -f (-z).toNat) := by
  rw [Int.repr_eq_if]
  split
  · -- no digit is a sign
    have hsigned : ∀ text : List Char, (∀ c ∈ text, c.isDigit = true) →
        signed unsigned text = unsigned text := by
      intro text hdigits
      unfold signed
      split
      · cases hdigits '-' List.mem_cons_self
      · cases hdigits '+' List.mem_cons_self
      · rfl
    rw [hsigned _ fun c hc => isDigit_of_mem_repr hc, hunsigned]
  · rw [String.toList_append]
    change (unsigned (-z).toNat.repr.toList).map (fun x => -x) = _
    rw [hunsigned]
    rfl

/-- `int` reads back a printed integer. -/
theorem int_repr (z : ℤ) : int z.repr = some z := by
  rw [int, strip_int_repr, integer, signed_int_repr (f := fun n => (n : ℤ))
    fun n => by rw [digits_repr]; rfl]
  congr 1
  split <;> omega

theorem toLower_of_isDigit (h : c.isDigit = true) : c.toLower = c := by
  simp only [Char.isDigit, Bool.and_eq_true, decide_eq_true_eq] at h
  rw [Char.toLower, dif_neg]
  rintro ⟨hge, -⟩
  exact absurd (UInt32.le_trans hge h.2) (by decide)

/-- Digits without a point and an exponent. -/
theorem unsignedFloat_repr (n : ℕ) : unsignedFloat n.repr.toList = some (ofInt n) := by
  have hdigit : ∀ c ∈ n.repr.toList, c.isDigit = true := fun c hc => isDigit_of_mem_repr hc
  have hlower : n.repr.toList.map Char.toLower = n.repr.toList := by
    rw [List.map_congr_left fun c hc => toLower_of_isDigit (hdigit c hc), List.map_id']
  have hne : ∀ {c : Char} {text : List Char}, c.isDigit = false → n.repr.toList ≠ c :: text := by
    intro c text hc htext
    exact ne_of_isDigit (hdigit c (htext ▸ List.mem_cons_self)) hc rfl
  have hspan : ∀ p : Char → Bool, (∀ c, c.isDigit = true → p c = true) →
      n.repr.toList.span p = (n.repr.toList, []) := by
    intro p hp
    have hall : ∀ c ∈ n.repr.toList, p c = true := fun c hc => hp c (hdigit c hc)
    rw [List.span_eq_takeWhile_dropWhile, List.takeWhile_eq_self_iff.mpr hall,
      List.dropWhile_eq_nil_iff.mpr hall]
  have hinf : ¬(n.repr.toList = "inf".toList ∨ n.repr.toList = "infinity".toList) :=
    not_or.mpr ⟨hne (c := 'i') rfl, hne (c := 'i') rfl⟩
  have hnan : n.repr.toList ≠ "nan".toList := hne (c := 'n') rfl
  have hexponent := hspan (fun c => c ≠ 'e' ∧ c ≠ 'E') fun c hc =>
    decide_eq_true ⟨ne_of_isDigit hc rfl, ne_of_isDigit hc rfl⟩
  have hpoint := hspan (fun c => c ≠ '.') fun c hc => decide_eq_true (ne_of_isDigit hc rfl)
  -- no point and no exponent, so all of it are digits of the mantissa
  unfold unsignedFloat
  simp only [hlower, if_neg hinf, if_neg hnan, hexponent, hpoint, List.drop_nil, List.append_nil,
    digits_repr]
  simp [decimal]

/-- `float` reads a printed integer as the double nearest to it. -/
theorem float_repr (hlt : z.natAbs < 2 ^ 64) : float z.repr = some (ofInt z) := by
  rw [float, strip_int_repr, signed_int_repr unsignedFloat_repr]
  congr 1
  split
  · next hnonneg => rw [Int.toNat_of_nonneg hnonneg]
  · rw [Int.toNat_of_nonneg (by omega), ← ofInt_neg (by omega) (by omega), Int.neg_neg]

end Text.Numerals
