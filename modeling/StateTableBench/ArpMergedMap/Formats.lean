import StateTableBench.Text.Split
import Mathlib.Algebra.Group.Int.Defs
import Mathlib.Algebra.Group.Nat.Defs

/-!
# Addresses, ARP entries and their textual formats

The classes `IPv4Addr` and `ArpCacheEntry` and the string serializers of Kafka come from other
libraries. `Formats` collects the functions of them that the ARP map calls, and
`Formats.Lawful` what it relies on: each pair is mutually inverse, and no printed address or
entry with non-negative times contains a `-`.

`dottedFormats` realises them: dotted decimal addresses, entries of the form
`mac;expiry;stale;lastArp` with colon separated hexadecimal MACs, and texts as UTF-8 bytes.
-/

namespace ArpMergedMap

/-- An entry of the ARP table; its times are Java `long`s. -/
structure ArpCacheEntry (MAC : Type) where
  macAddr : MAC
  expiry : Int64
  stale : Int64
  lastArp : Int64
deriving DecidableEq

/-- The times of an entry are non-negative. -/
def ArpCacheEntry.NonNegative {MAC : Type} (e : ArpCacheEntry MAC) : Prop :=
  0 ≤ e.expiry.toInt ∧ 0 ≤ e.stale.toInt ∧ 0 ≤ e.lastArp.toInt

/-- The library functions that print and parse addresses, entries and texts. -/
structure Formats (IPv4Addr MAC Bytes : Type) where
  /-- `IPv4Addr.toString`. -/
  ipToString : IPv4Addr → String
  /-- `IPv4Addr.fromString`, which throws on a text that is no address. -/
  ipFromString : String → Option IPv4Addr
  /-- `ArpCacheEntry.encode`. -/
  encode : ArpCacheEntry MAC → String
  /-- `ArpCacheEntry.decode`, which throws on a text that is no entry. -/
  decode : String → Option (ArpCacheEntry MAC)
  /-- `StringSerializer.serialize`. -/
  stringToBytes : String → Bytes
  /-- `StringDecoder.fromBytes`. -/
  stringFromBytes : Bytes → String

/-- What the ARP map relies on. -/
structure Formats.Lawful {IPv4Addr MAC Bytes : Type} (F : Formats IPv4Addr MAC Bytes) : Prop where
  ipFromString_ipToString : ∀ ip, F.ipFromString (F.ipToString ip) = some ip
  not_mem_ipToString : ∀ ip, '-' ∉ (F.ipToString ip).toList
  decode_encode : ∀ e : ArpCacheEntry MAC, e.NonNegative → F.decode (F.encode e) = some e
  not_mem_encode : ∀ e : ArpCacheEntry MAC, e.NonNegative → '-' ∉ (F.encode e).toList
  stringFromBytes_stringToBytes : ∀ str, F.stringFromBytes (F.stringToBytes str) = str

/-- What is known about entries with negative times, if the times are printed and read in
decimal. -/
structure Formats.Decimal {IPv4Addr MAC Bytes : Type} (F : Formats IPv4Addr MAC Bytes) : Prop
    extends F.Lawful where
  decode_encode_all : ∀ e : ArpCacheEntry MAC, F.decode (F.encode e) = some e
  /-- A negative time is read from a text with a minus sign only. -/
  minus_mem_of_decode : ∀ (text : String) (e : ArpCacheEntry MAC), F.decode text = some e →
    ¬e.NonNegative → '-' ∈ text.toList

/-- Two addresses that print alike are equal, since the text is read back. -/
theorem Formats.Lawful.ipToString_injective {IPv4Addr MAC Bytes : Type}
    {F : Formats IPv4Addr MAC Bytes} (hF : F.Lawful) : Function.Injective F.ipToString := by
  intro a b h
  have hsome : some a = some b := by
    rw [← hF.ipFromString_ipToString a, ← hF.ipFromString_ipToString b, h]
  exact Option.some.inj hsome

/-! ### A realisation -/

/-- A sequence of `n` octets: an IPv4 address for `n = 4`, a MAC for `n = 6`. -/
abbrev Octets (n : ℕ) : Type := { l : List (Fin 256) // l.length = n }

/-- Print octets one by one with `sep` in between. -/
def printOctets {n : ℕ} (sep : Char) (print : Fin 256 → String) (x : Octets n) : String :=
  Text.joinWith sep print x.val

/-- Read `n` octets with `sep` in between. -/
def readOctets (n : ℕ) (sep : Char) (read : String → Option (Fin 256)) (text : String) :
    Option (Octets n) :=
  (Text.readWith sep read text).bind fun l => if h : l.length = n then some ⟨l, h⟩ else none

/-- Octets printed with a separator that no octet contains are read back. -/
theorem readOctets_printOctets {n : ℕ} (hn : n ≠ 0) {sep : Char} {print : Fin 256 → String}
    {read : String → Option (Fin 256)} (hread : ∀ i, read (print i) = some i)
    (hfree : ∀ i, sep ∉ (print i).toList) (hne : ∀ i, print i ≠ "") (x : Octets n) :
    readOctets n sep read (printOctets sep print x) = some x := by
  have hx : x.val ≠ [] := by
    intro h
    have hlen := x.property
    rw [h, List.length_nil] at hlen
    exact hn hlen.symm
  rw [readOctets, printOctets, Text.readWith_joinWith hx (fun i _ => hread i)
    (fun i _ => hfree i) (fun i _ => hne i), Option.bind_some, dif_pos x.property]

/-- Read an octet in decimal. -/
def readDecimal (text : String) : Option (Fin 256) :=
  text.toNat?.bind fun n => if h : n < 256 then some ⟨n, h⟩ else none

/-- A decimal octet is read back. -/
theorem readDecimal_repr (i : Fin 256) : readDecimal i.val.repr = some i := by
  simp [readDecimal]

/-- The hexadecimal digit of value `d`. -/
def hexDigit (d : Fin 16) : Char :=
  ['0', '1', '2', '3', '4', '5', '6', '7', '8', '9', 'a', 'b', 'c', 'd', 'e', 'f'].get d

/-- The value of a hexadecimal digit. -/
def hexValue (c : Char) : Option (Fin 16) := (List.finRange 16).find? fun d => hexDigit d = c

/-- A hexadecimal digit is read back. -/
theorem hexValue_hexDigit : ∀ d, hexValue (hexDigit d) = some d := by decide

/-- Hexadecimal digits are letters or digits, so never a separator. -/
theorem isAlphanum_hexDigit : ∀ d, (hexDigit d).isAlphanum = true := by decide

/-- Print an octet as two hexadecimal digits. -/
def printHex (i : Fin 256) : String :=
  String.ofList [hexDigit ⟨i.val / 16, by omega⟩, hexDigit ⟨i.val % 16, by omega⟩]

/-- Read an octet of two hexadecimal digits. -/
def readHex (text : String) : Option (Fin 256) :=
  match text.toList with
  | [high, low] => do
    let h ← hexValue high
    let l ← hexValue low
    return ⟨16 * h.val + l.val, by omega⟩
  | _ => none

/-- A hexadecimal octet of two digits is read back. -/
theorem readHex_printHex (i : Fin 256) : readHex (printHex i) = some i := by
  have hdiv : 16 * (i.val / 16) + i.val % 16 = i.val := by omega
  simp [readHex, printHex, hexValue_hexDigit, hdiv]

/-- No separator stands in a hexadecimal octet. -/
theorem not_mem_printHex {c : Char} (hc : c.isAlphanum = false) (i : Fin 256) :
    c ∉ (printHex i).toList := by
  have hne : ∀ d, c ≠ hexDigit d := by
    rintro d rfl
    exact Bool.false_ne_true (hc.symm.trans (isAlphanum_hexDigit d))
  simp [printHex, hne]

theorem printHex_ne_empty (i : Fin 256) : printHex i ≠ "" := by
  intro h
  have hlist := congrArg String.toList h
  simp [printHex] at hlist

/-- Read a Java `long` in decimal; `Long.parseLong` throws on a number that is not the value of
one. -/
def readLong (text : String) : Option Int64 :=
  text.toInt?.bind fun z => if -2 ^ 63 ≤ z ∧ z < 2 ^ 63 then some (Int64.ofInt z) else none

/-- A long is read back from its decimal text. -/
theorem readLong_repr (t : Int64) : readLong t.toInt.repr = some t := by
  have hrange : -2 ^ 63 ≤ t.toInt ∧ t.toInt < 2 ^ 63 := ⟨t.le_toInt, t.toInt_lt⟩
  rw [readLong, Int.toInt?_repr, Option.bind_some, if_pos hrange, Int64.ofInt_toInt]

/-- A text that reads as a negative long contains the character `-`. -/
theorem minus_mem_of_readLong {text : String} {t : Int64} (h : readLong text = some t)
    (hneg : t.toInt < 0) : '-' ∈ text.toList := by
  obtain ⟨z, hz, hrange⟩ := Option.bind_eq_some_iff.mp h
  split_ifs at hrange with hbounds
  have hto : t.toInt = z := by
    rw [← Option.some.inj hrange]
    exact Int64.toInt_ofInt_of_le hbounds.1 hbounds.2
  rcases String.toInt?_eq_some_iff.mp hz with ⟨n, -, rfl⟩ | ⟨rest, rfl, -⟩
  · omega
  · simp

/-- A minus sign is the only character of a number that is no digit. -/
theorem not_mem_repr_of_nonneg {c : Char} (hc : c.isDigit = false) {t : ℤ}
    (ht : c ≠ '-' ∨ 0 ≤ t) : c ∉ t.repr.toList := by
  rcases ht with hminus | ht
  · exact Text.not_mem_int_repr hc hminus t
  · obtain ⟨n, rfl⟩ := Int.eq_ofNat_of_zero_le ht
    exact Text.not_mem_repr hc n

/-- The fields of an entry as texts. -/
def entryFields (e : ArpCacheEntry (Octets 6)) : List String :=
  [printOctets ':' printHex e.macAddr, e.expiry.toInt.repr, e.stale.toInt.repr,
    e.lastArp.toInt.repr]

/-- No field of an entry contains a separator, `-` apart, which a negative time has. -/
theorem not_mem_entryFields {c : Char} (hc : c.isAlphanum = false) (hcolon : c ≠ ':')
    {e : ArpCacheEntry (Octets 6)} (he : c ≠ '-' ∨ e.NonNegative) {field : String}
    (hfield : field ∈ entryFields e) : c ∉ field.toList := by
  have hdigit : c.isDigit = false := by
    simp only [Char.isAlphanum, Bool.or_eq_false_iff] at hc
    exact hc.2
  simp only [entryFields, List.mem_cons, List.not_mem_nil, or_false] at hfield
  rcases hfield with rfl | rfl | rfl | rfl
  · exact Text.not_mem_joinWith hcolon fun i _ => not_mem_printHex hc i
  · exact not_mem_repr_of_nonneg hdigit (he.imp_right fun he => he.1)
  · exact not_mem_repr_of_nonneg hdigit (he.imp_right fun he => he.2.1)
  · exact not_mem_repr_of_nonneg hdigit (he.imp_right fun he => he.2.2)

/-- Dotted decimal addresses, entries as `mac;expiry;stale;lastArp`, and texts in UTF-8. -/
def dottedFormats : Formats (Octets 4) (Octets 6) ByteArray where
  ipToString := printOctets '.' fun i => i.val.repr
  ipFromString := readOctets 4 '.' readDecimal
  encode e := Text.joinWith ';' id (entryFields e)
  decode text :=
    match Text.split ';' text with
    | [mac, expiry, stale, lastArp] =>
      return ⟨← readOctets 6 ':' readHex mac, ← readLong expiry, ← readLong stale,
        ← readLong lastArp⟩
    | _ => none
  stringToBytes := String.toUTF8
  stringFromBytes bytes := (String.fromUTF8? bytes).getD ""

/-- The address `10.0.0.1`. -/
def sampleAddress : Octets 4 := ⟨[10, 0, 0, 1], rfl⟩

/-- An entry with the MAC `02:00:00:00:00:01`. -/
def sampleEntry (stale : Int64) : ArpCacheEntry (Octets 6) :=
  ⟨⟨[2, 0, 0, 0, 0, 1], rfl⟩, 0, stale, 0⟩

/-- The sample entry has a non-negative time when its `stale` is. -/
theorem nonNegative_sampleEntry {stale : Int64} (h : 0 ≤ stale.toInt) :
    (sampleEntry stale).NonNegative := by
  have hzero : 0 ≤ (0 : Int64).toInt := by decide
  exact ⟨hzero, h, hzero⟩

/-- The dotted format reads back the entries it writes. -/
theorem decode_encode_dottedFormats (e : ArpCacheEntry (Octets 6)) :
    dottedFormats.decode (dottedFormats.encode e) = some e := by
  -- the last field is not empty, so `split` returns all four
  have hlast : e.lastArp.toInt.repr ≠ "" := Text.int_repr_ne_empty _
  have hsplit : Text.split ';' (dottedFormats.encode e) = entryFields e := by
    have hfree : ∀ p ∈ entryFields e, ';' ∉ p.toList := fun p hp =>
      not_mem_entryFields (by decide) (by decide) (.inl (by decide)) hp
    show Text.split ';' ((String.singleton ';').intercalate ((entryFields e).map id)) = _
    rw [List.map_id]
    exact @Text.split_intercalate ';' (entryFields e).dropLast _ hfree hlast
  simp only [dottedFormats] at hsplit ⊢
  rw [hsplit]
  have hmac : readOctets 6 ':' readHex (printOctets ':' printHex e.macAddr) = some e.macAddr :=
    readOctets_printOctets (by decide) readHex_printHex (not_mem_printHex (by decide))
      printHex_ne_empty e.macAddr
  simp [entryFields, hmac, readLong_repr]

/-- The dotted format meets the laws asked of the formats. -/
theorem lawful_dottedFormats : dottedFormats.Lawful where
  ipFromString_ipToString := readOctets_printOctets (by decide) readDecimal_repr
    (fun i => Text.not_mem_repr (by decide) i.val) fun _ => Nat.repr_ne_empty
  not_mem_ipToString _ := Text.not_mem_joinWith (by decide)
    fun i _ => Text.not_mem_repr (by decide) i.val
  decode_encode e _ := decode_encode_dottedFormats e
  not_mem_encode _ he := Text.not_mem_joinWith (by decide)
    fun _ hfield => not_mem_entryFields (by decide) (by decide) (.inr he) hfield
  stringFromBytes_stringToBytes str := by
    show (String.fromUTF8? str.toUTF8).getD "" = str
    rw [String.fromUTF8?, String.toUTF8_eq_toByteArray, dif_pos str.isValidUTF8, Option.getD_some]
    rfl

/-- The dotted format writes longs in decimal. -/
theorem decimal_dottedFormats : dottedFormats.Decimal where
  toLawful := lawful_dottedFormats
  decode_encode_all := decode_encode_dottedFormats
  minus_mem_of_decode text e hdecode hneg := by
    simp only [dottedFormats] at hdecode
    split at hdecode
    · next mac expiry stale lastArp hsplit =>
      simp only [Option.bind_eq_bind, Option.bind_eq_some_iff, Option.pure_def,
        Option.some.injEq] at hdecode
      obtain ⟨_, -, t₁, h₁, t₂, h₂, t₃, h₃, rfl⟩ := hdecode
      have hparts : ∀ p ∈ [mac, expiry, stale, lastArp], '-' ∈ p.toList → '-' ∈ text.toList := by
        intro p hp
        rw [← hsplit] at hp
        exact (Text.mem_split hp).2 '-'
      -- one of the times is negative, and its field has the sign
      by_contra hfree
      refine hneg ⟨?_, ?_, ?_⟩
      · exact Int.not_lt.mp fun hlt => hfree (hparts _ (by simp) (minus_mem_of_readLong h₁ hlt))
      · exact Int.not_lt.mp fun hlt => hfree (hparts _ (by simp) (minus_mem_of_readLong h₂ hlt))
      · exact Int.not_lt.mp fun hlt => hfree (hparts _ (by simp) (minus_mem_of_readLong h₃ hlt))
    · cases hdecode

end ArpMergedMap
