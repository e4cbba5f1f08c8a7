import StateTableBench.ArpMergedMap.Formats
import StateTableBench.MergedMap.Defs
import StateTableBench.Transition.Run

/-!
# The wire format of the ARP map

An opinion `(ip, entry, owner)` travels as the text `ip-entry-owner`. `fromBytes_serialize` is
the round trip for opinions with a value; the encoder calls `encode` on the value and thus throws
on the `null` that stands for a removal.

The separator is not escaped. `roundTrips_iff` says which opinions survive: those with non-negative
times and a non-empty owner without a `-`. A negative time shifts all later tokens, and
`MPIBenchApp.getTime` returns one when MPI fails.
-/

namespace ArpMergedMap

variable {IPv4Addr MAC Bytes : Type}

/-- The exceptions raised while a message is encoded or decoded. -/
inductive Exn
  | nullPointer
  | arrayIndexOutOfBounds
  /-- Raised by `IPv4Addr.fromString`. -/
  | malformedAddress
  /-- Raised by `ArpCacheEntry.decode`. -/
  | malformedEntry
deriving DecidableEq

/-- `arpOrdering`: the difference of the `stale` times, a `long`, cast to `int`. -/
def arpOrdering (x y : ArpCacheEntry MAC) : Ordering :=
  compare (x.stale - y.stale).toInt32.toInt 0

/-- `ArpEncoder.serialize`. -/
def serialize (F : Formats IPv4Addr MAC Bytes) (data : Opinion IPv4Addr (ArpCacheEntry MAC)) :
    Except Exn Bytes :=
  match data.value with
  | none => .error .nullPointer
  | some mac =>
    let str := F.ipToString data.key ++ "-" ++ F.encode mac ++ "-" ++ data.owner
    .ok (F.stringToBytes str)

/-- The element `tokens(i)` of an array. -/
def token (tokens : List String) (i : ℕ) : Except Exn String :=
  tokens[i]?.elim (.error .arrayIndexOutOfBounds) .ok

/-- `ArpDecoder.fromBytes`. -/
def fromBytes (F : Formats IPv4Addr MAC Bytes) (bytes : Bytes) :
    Except Exn (Opinion IPv4Addr (ArpCacheEntry MAC)) := do
  let str := F.stringFromBytes bytes
  let tokens := Text.split '-' str
  let ip ← (F.ipFromString (← token tokens 0)).elim (.error .malformedAddress) .ok
  let mac ← (F.decode (← token tokens 1)).elim (.error .malformedEntry) .ok
  let owner ← token tokens 2
  return ⟨ip, some mac, owner⟩

/-- A name that survives the wire format as an owner. -/
def IsOwnerName (owner : String) : Prop := owner ≠ "" ∧ '-' ∉ owner.toList

variable {F : Formats IPv4Addr MAC Bytes}

/-- The parts of a message are the address, the entry and the owner. -/
theorem split_message (hF : F.Lawful) (ip : IPv4Addr) {mac : ArpCacheEntry MAC}
    (hmac : mac.NonNegative) {owner : String} (howner : IsOwnerName owner) :
    Text.split '-' (F.ipToString ip ++ "-" ++ F.encode mac ++ "-" ++ owner) =
      [F.ipToString ip, F.encode mac, owner] := by
  have hfree : ∀ p ∈ [F.ipToString ip, F.encode mac, owner], '-' ∉ p.toList := by
    intro p hp
    simp only [List.mem_cons, List.not_mem_nil, or_false] at hp
    rcases hp with rfl | rfl | rfl
    · exact hF.not_mem_ipToString ip
    · exact hF.not_mem_encode mac hmac
    · exact howner.2
  have hsplit := @Text.split_intercalate '-' [F.ipToString ip, F.encode mac] owner hfree howner.1
  rw [List.cons_append, List.cons_append, List.nil_append, String.intercalate_cons_cons,
    String.intercalate_cons_cons, String.intercalate_singleton] at hsplit
  have hdash : String.singleton '-' = "-" := rfl
  simpa only [hdash, String.append_assoc] using hsplit

/-- An opinion with a value comes back from the wire as it was sent. -/
theorem fromBytes_serialize (hF : F.Lawful) (ip : IPv4Addr) {mac : ArpCacheEntry MAC}
    (hmac : mac.NonNegative) {owner : String} (howner : IsOwnerName owner) :
    ∃ bytes, serialize F ⟨ip, some mac, owner⟩ = .ok bytes ∧
      fromBytes F bytes = .ok ⟨ip, some mac, owner⟩ := by
  refine ⟨_, rfl, ?_⟩
  -- each token is parsed by the inverse of what printed it
  unfold fromBytes
  simp only [hF.stringFromBytes_stringToBytes, split_message hF ip hmac howner, token]
  simp only [List.getElem?_cons_zero, List.getElem?_cons_succ, Option.elim_some, bind, Except.bind,
    pure, Except.pure, hF.ipFromString_ipToString ip, hF.decode_encode mac hmac]

/-- A text without a `-` is no message. -/
theorem exists_error_of_not_mem {bytes : Bytes} (h : '-' ∉ (F.stringFromBytes bytes).toList) :
    ∃ e, fromBytes F bytes = .error e := by
  have hsplit : Text.split '-' (F.stringFromBytes bytes) = [F.stringFromBytes bytes] := by
    rw [Text.split, if_neg h]
  unfold fromBytes
  simp only [hsplit, token, List.getElem?_cons_zero, List.getElem?_cons_succ, List.getElem?_nil,
    Option.elim_some, Option.elim_none, bind, Except.bind]
  -- the only token is parsed as an address; if that succeeds, `tokens(1)` is missing
  cases F.ipFromString (F.stringFromBytes bytes) with
  | none => exact ⟨.malformedAddress, rfl⟩
  | some ip => exact ⟨.arrayIndexOutOfBounds, rfl⟩

/-! ## Exactly what survives -/

/-- An opinion with a value comes back from the wire as it was sent. -/
def RoundTrips (F : Formats IPv4Addr MAC Bytes) (ip : IPv4Addr) (mac : ArpCacheEntry MAC)
    (owner : String) : Prop :=
  ∃ bytes, serialize F ⟨ip, some mac, owner⟩ = .ok bytes ∧
    fromBytes F bytes = .ok ⟨ip, some mac, owner⟩

/-- A lookup that did not throw has found a value. -/
theorem eq_some_of_elim_eq_ok {α : Type} {o : Option α} {e : Exn} {a : α}
    (h : o.elim (Except.error e) Except.ok = .ok a) : o = some a := by
  cases o with
  | none => cases h
  | some b => exact congrArg some (Except.ok.inj h)

/-- What a message contains that is decoded to an opinion. -/
theorem tokens_of_fromBytes {bytes : Bytes} {ip : IPv4Addr} {mac : ArpCacheEntry MAC}
    {owner : String} (h : fromBytes F bytes = .ok ⟨ip, some mac, owner⟩) :
    ∃ text, (Text.split '-' (F.stringFromBytes bytes))[1]? = some text ∧
      F.decode text = some mac ∧ (Text.split '-' (F.stringFromBytes bytes))[2]? = some owner := by
  unfold fromBytes at h
  simp only [Run.bind_eq_ok_iff] at h
  obtain ⟨_, -, _, -, text, htext, mac', hmac, owner', howner, hopinion⟩ := h
  obtain ⟨-, hvalue, rfl⟩ := Opinion.mk.inj (Except.ok.inj hopinion)
  obtain rfl := Option.some.inj hvalue
  exact ⟨text, eq_some_of_elim_eq_ok htext, eq_some_of_elim_eq_ok hmac,
    eq_some_of_elim_eq_ok howner⟩

/-- Without an owner the last token is missing. -/
theorem split_message_empty (hF : F.Lawful) (ip : IPv4Addr) {mac : ArpCacheEntry MAC}
    (hmac : mac.NonNegative) :
    (Text.split '-' (F.ipToString ip ++ "-" ++ F.encode mac ++ "-" ++ ""))[2]? = none := by
  have htext : (F.ipToString ip ++ "-" ++ F.encode mac ++ "-" ++ "").toList =
      (F.ipToString ip).toList ++ '-' :: ((F.encode mac).toList ++ ['-']) := by simp
  have hparts : (F.ipToString ip ++ "-" ++ F.encode mac ++ "-" ++ "").toList.splitOn '-' =
      [(F.ipToString ip).toList, (F.encode mac).toList] ++ [[]] := by
    rw [htext, List.splitOn_append_cons_self_of_not_mem (hF.not_mem_ipToString ip),
      List.splitOn_append_cons_self_of_not_mem (hF.not_mem_encode mac hmac)]
    rfl
  have hmem : '-' ∈ (F.ipToString ip ++ "-" ++ F.encode mac ++ "-" ++ "").toList := by
    simp
  rw [Text.split, if_pos hmem, hparts, List.map_append,
    List.map_singleton, List.rdropWhile_concat_pos _ _ _ (by simp)]
  -- at most two parts are left
  have hlen := (List.rdropWhile_prefix (fun p => decide (p = "")) (List.map String.ofList
    [(F.ipToString ip).toList, (F.encode mac).toList])).length_le
  exact List.getElem?_eq_none hlen

/-- The tokens have no `-`: neither the owner nor the text that is decoded. -/
theorem nonNegative_of_roundTrips (hF : F.Decimal) {ip : IPv4Addr} {mac : ArpCacheEntry MAC}
    {owner : String} (h : RoundTrips F ip mac owner) : mac.NonNegative ∧ IsOwnerName owner := by
  obtain ⟨bytes, hbytes, hback⟩ := h
  obtain rfl := Except.ok.inj hbytes
  obtain ⟨text, htext, hdecode, howner⟩ := tokens_of_fromBytes hback
  rw [hF.stringFromBytes_stringToBytes] at htext howner
  have hmac : mac.NonNegative := by
    by_contra hneg
    exact (Text.mem_split (List.mem_of_getElem? htext)).1
      (hF.minus_mem_of_decode text mac hdecode hneg)
  refine ⟨hmac, ?_, (Text.mem_split (List.mem_of_getElem? howner)).1⟩
  rintro rfl
  rw [split_message_empty hF.toLawful ip hmac] at howner
  cases howner

/-- For every address, entry and owner: the opinion comes back from the wire as it was sent exactly
if none of its times is negative and the owner is not empty and has no `-`. -/
theorem roundTrips_iff (hF : F.Decimal) (ip : IPv4Addr) (mac : ArpCacheEntry MAC)
    (owner : String) :
    RoundTrips F ip mac owner ↔ mac.NonNegative ∧ owner ≠ "" ∧ '-' ∉ owner.toList := by
  constructor
  · exact nonNegative_of_roundTrips hF
  · rintro ⟨hmac, howner⟩
    exact fromBytes_serialize hF.toLawful ip hmac howner

/-- An opinion of a rank of the benches. -/
theorem roundTrips_node3 : RoundTrips dottedFormats sampleAddress (sampleEntry 1000000) "node3" :=
  (roundTrips_iff decimal_dottedFormats sampleAddress (sampleEntry 1000000) "node3").mpr
    ⟨nonNegative_sampleEntry (by decide), by decide, by decide⟩

/-- The time that `MPIBenchApp.getTime` returns when MPI fails, and an owner with a `-`. -/
theorem not_roundTrips_negative :
    ¬RoundTrips dottedFormats sampleAddress (sampleEntry (-1000000000)) "node3" ∧
      ¬RoundTrips dottedFormats sampleAddress (sampleEntry 1000000) "node-3" := by
  constructor
  · intro h
    exact absurd (nonNegative_of_roundTrips decimal_dottedFormats h).1.2.1 (by decide)
  · intro h
    exact (nonNegative_of_roundTrips decimal_dottedFormats h).2.2 (by decide)

end ArpMergedMap
