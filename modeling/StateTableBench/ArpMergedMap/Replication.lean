import StateTableBench.KafkaBus.Consumer
import StateTableBench.MergedMap.Opinions
import StateTableBench.Transition.Run

/-!
# Replication of puts and removals

The bus of one map is a totally ordered log. `putOpinion` and `removeOpinion` send an opinion
through the encoder, and every participant decodes the log and handles the opinions in order.

A put arrives as it was sent. A removal does not: it is an opinion with the value `null`, on which
the encoder throws, so nothing is published. `opinion_participant_iff_kept` says that a
participant holds the right opinions exactly when every removal after a put of the same owner and
key is made good by a later put.
-/

open FiniteMap

namespace ArpMergedMap

open MergedMap KafkaBus

variable {H T : Type → Type → Type} [FiniteMap H] [FiniteMap T]
variable {IPv4Addr MAC Bytes : Type} [DecidableEq IPv4Addr] [DecidableEq MAC]

/-- A call on the map of an owner. -/
inductive Call (IPv4Addr MAC : Type)
  | putOpinion (owner : String) (key : IPv4Addr) (value : ArpCacheEntry MAC)
  | removeOpinion (owner : String) (key : IPv4Addr)
deriving DecidableEq

/-- The opinion that a call sends to the bus. -/
def Call.opinion : Call IPv4Addr MAC → Opinion IPv4Addr (ArpCacheEntry MAC)
  | putOpinion owner key value => ⟨key, some value, owner⟩
  | removeOpinion owner key => ⟨key, none, owner⟩

/-- The owner's name survives the wire format, and the times of an entry are non-negative. -/
def Call.WellFormed : Call IPv4Addr MAC → Prop
  | putOpinion owner _ value => IsOwnerName owner ∧ value.NonNegative
  | removeOpinion owner _ => IsOwnerName owner

section Bus

variable (F : Formats IPv4Addr MAC Bytes)

/-- The log after a call: nothing is appended if the encoder throws. -/
def publish (log : List Bytes) (call : Call IPv4Addr MAC) : List Bytes :=
  match serialize F call.opinion with
  | .ok bytes => log ++ [bytes]
  | .error _ => log

/-- The log after a sequence of calls. -/
def busLog (calls : List (Call IPv4Addr MAC)) : List Bytes := calls.foldl (publish F) []

/-- A participant that has consumed a log. -/
def participant (log : List Bytes) : MergedMap H T IPv4Addr (ArpCacheEntry MAC) :=
  handleAll arpOrdering (emitted (fromBytes F) log)

end Bus

/-- Every removal of `o` on `k` that comes after a put of `o` on `k` is followed by another one. -/
def Kept (calls : List (Call IPv4Addr MAC)) (k : IPv4Addr) (o : String) : Prop :=
  ∀ pre post, calls = pre ++ .removeOpinion o k :: post →
    (∃ v, .putOpinion o k v ∈ pre) → ∃ v, .putOpinion o k v ∈ post

/-- The opinions of the puts among the calls. -/
def puts (calls : List (Call IPv4Addr MAC)) : List (Opinion IPv4Addr (ArpCacheEntry MAC)) :=
  (calls.map Call.opinion).filter fun op => op.value.isSome

variable {F : Formats IPv4Addr MAC Bytes} {calls : List (Call IPv4Addr MAC)}

/-! ### From the calls to the opinions received -/

omit [DecidableEq IPv4Addr] [DecidableEq MAC] in
/-- The topic holds the calls whose serialization does not throw. -/
theorem busLog_eq_filterMap :
    busLog F calls = calls.filterMap fun c => (serialize F c.opinion).toOption := by
  induction calls using List.reverseRecOn with
  | nil => rfl
  | append_singleton calls c ih =>
    rw [busLog, List.foldl_append, List.foldl_cons, List.foldl_nil, ← busLog, ih,
      List.filterMap_append]
    cases h : serialize F c.opinion with
    | ok bytes => simp [publish, h, Except.toOption]
    | error e => simp [publish, h, Except.toOption]

omit [DecidableEq IPv4Addr] [DecidableEq MAC] in
/-- The consumer emits the puts and nothing else. -/
theorem emitted_busLog (hF : F.Lawful) (hcalls : ∀ c ∈ calls, c.WellFormed) :
    emitted (fromBytes F) (busLog F calls) = puts calls := by
  rw [busLog_eq_filterMap]
  induction calls with
  | nil => rfl
  | cons c calls ih =>
    have hrest := ih fun c' hc' => hcalls c' (List.mem_cons_of_mem c hc')
    cases c with
    | putOpinion owner key value =>
      have ⟨howner, hvalue⟩ := hcalls _ List.mem_cons_self
      -- a put is published, and decoded to the same opinion
      obtain ⟨bytes, hbytes, hok⟩ := fromBytes_serialize hF key hvalue howner
      have hsent : (serialize F (Call.putOpinion owner key value).opinion).toOption =
          some bytes := by
        rw [Call.opinion, hbytes]
        rfl
      rw [List.filterMap_cons, hsent, emitted_cons_ok hok, hrest]
      simp [puts, Call.opinion]
    | removeOpinion owner key =>
      -- the encoder throws on the `null` of a removal
      have hsent : (serialize F (Call.removeOpinion owner key).opinion).toOption = none := rfl
      rw [List.filterMap_cons, hsent, hrest]
      simp [puts, Call.opinion]

/-! ### What remains of the last call -/

section Puts

variable {k : IPv4Addr} {o : String} {c : Call IPv4Addr MAC}

omit [DecidableEq IPv4Addr] [DecidableEq MAC] in
/-- A put is appended to the puts. -/
theorem puts_concat_put (key : IPv4Addr) (value : ArpCacheEntry MAC) (owner : String) :
    puts (calls ++ [.putOpinion owner key value]) = puts calls ++ [⟨key, some value, owner⟩] := by
  simp [puts, Call.opinion]

omit [DecidableEq IPv4Addr] [DecidableEq MAC] in
/-- A removal adds nothing to the puts. -/
theorem puts_concat_remove (key : IPv4Addr) (owner : String) :
    puts (calls ++ [.removeOpinion owner key]) = puts calls := by
  simp [puts, Call.opinion]

omit [DecidableEq MAC] in
/-- An owner has no current opinion among the puts exactly if it never put. -/
theorem currentOpinion_puts_eq_none_iff :
    currentOpinion (puts calls) k o = none ↔ ∀ v, .putOpinion o k v ∉ calls := by
  induction calls using List.reverseRecOn with
  | nil => simp [puts]
  | append_singleton calls c ih =>
    cases c with
    | removeOpinion owner key => simp [puts_concat_remove, ih]
    | putOpinion owner key value =>
      rw [puts_concat_put, currentOpinion_concat]
      by_cases h : key = k ∧ owner = o
      · obtain ⟨rfl, rfl⟩ := h
        exact iff_of_false (by simp) fun hall => hall value (by simp)
      · have hne : ∀ v, Call.putOpinion o k v ≠ .putOpinion owner key value := by
          rintro v ⟨⟩
          exact h ⟨rfl, rfl⟩
        rw [if_neg h, ih]
        simp [hne]

omit [DecidableEq IPv4Addr] [DecidableEq MAC] in
/-- A call about another owner or key does not matter. -/
theorem kept_concat_of_ne (hremove : c ≠ .removeOpinion o k) (hput : ∀ v, c ≠ .putOpinion o k v) :
    Kept (calls ++ [c]) k o ↔ Kept calls k o := by
  constructor
  · rintro h pre post rfl hpre
    obtain ⟨v, hv⟩ := h pre (post ++ [c]) (by simp) hpre
    rw [List.mem_append, List.mem_singleton] at hv
    exact ⟨v, hv.resolve_right (hput v).symm⟩
  · intro h pre post heq hpre
    rcases Run.concat_eq_split_iff.mp heq with ⟨-, rfl, -⟩ | ⟨mid, rfl, rfl⟩
    · exact absurd rfl hremove
    · obtain ⟨v, hv⟩ := h pre mid rfl hpre
      exact ⟨v, List.mem_append_left _ hv⟩

omit [DecidableEq IPv4Addr] [DecidableEq MAC] in
/-- A put makes good every removal before it. -/
theorem kept_concat_put (v : ArpCacheEntry MAC) : Kept (calls ++ [.putOpinion o k v]) k o := by
  intro pre post heq _
  rcases Run.concat_eq_split_iff.mp heq with ⟨-, h, -⟩ | ⟨mid, rfl, -⟩
  · cases h
  · exact ⟨v, List.mem_append_right _ (List.mem_singleton_self _)⟩

omit [DecidableEq IPv4Addr] [DecidableEq MAC] in
/-- After a removal the map keeps the opinion exactly if the owner never put one. -/
theorem kept_concat_remove_iff :
    Kept (calls ++ [.removeOpinion o k]) k o ↔ ∀ v, .putOpinion o k v ∉ calls := by
  constructor
  · intro h v hv
    -- nothing follows the removal that could make it good
    obtain ⟨w, hw⟩ := h calls [] rfl ⟨v, hv⟩
    simp at hw
  · rintro h pre post heq ⟨v, hv⟩
    rcases Run.concat_eq_split_iff.mp heq with ⟨rfl, -, -⟩ | ⟨mid, -, rfl⟩
    · exact absurd hv (h v)
    · exact absurd (List.mem_append_left _ hv) (h v)

omit [DecidableEq MAC] in
/-- The log of puts shows the last call of an owner exactly when its removals are made good. -/
theorem currentOpinion_puts_iff_kept (calls : List (Call IPv4Addr MAC)) (k : IPv4Addr)
    (o : String) :
    currentOpinion (puts calls) k o = currentOpinion (calls.map Call.opinion) k o ↔
      Kept calls k o := by
  induction calls using List.reverseRecOn with
  | nil =>
    refine iff_of_true rfl ?_
    rintro pre post heq -
    simp at heq
  | append_singleton calls c ih =>
    rw [List.map_append, List.map_singleton, currentOpinion_concat]
    cases c with
    | putOpinion owner key value =>
      rw [puts_concat_put, currentOpinion_concat]
      by_cases h : key = k ∧ owner = o
      · -- a put arrives as it was sent, and makes good what came before
        obtain ⟨rfl, rfl⟩ := h
        exact iff_of_true (by simp [Call.opinion]) (kept_concat_put value)
      · have hput : ∀ v, Call.putOpinion owner key value ≠ .putOpinion o k v := by
          rintro v ⟨⟩
          exact h ⟨rfl, rfl⟩
        rw [if_neg h, Call.opinion, if_neg h, ih, kept_concat_of_ne (by simp) hput]
    | removeOpinion owner key =>
      rw [puts_concat_remove, Call.opinion]
      by_cases h : key = k ∧ owner = o
      · -- the removal is lost, which is only right if there was nothing to remove
        obtain ⟨rfl, rfl⟩ := h
        rw [if_pos ⟨rfl, rfl⟩, currentOpinion_puts_eq_none_iff, kept_concat_remove_iff]
      · have hremove : Call.removeOpinion owner key ≠ (.removeOpinion o k : Call IPv4Addr MAC) := by
          rintro ⟨⟩
          exact h ⟨rfl, rfl⟩
        rw [if_neg h, ih, kept_concat_of_ne hremove (by simp)]

end Puts

/-- After any calls, a participant that has consumed the whole log holds, for every key and
owner, the value of the owner's last put unless a removal came later, exactly when every removal
after a put of the same owner and key is followed by another put of them. -/
theorem opinion_participant_iff_kept (hF : F.Lawful) (hcalls : ∀ c ∈ calls, c.WellFormed) :
    (∀ k o, (participant F (busLog F calls) :
        MergedMap H T IPv4Addr (ArpCacheEntry MAC)).opinion k o =
      currentOpinion (calls.map Call.opinion) k o) ↔ ∀ k o, Kept calls k o := by
  refine forall₂_congr fun k o => ?_
  rw [participant, opinion_handleAll, emitted_busLog hF hcalls]
  exact currentOpinion_puts_iff_kept calls k o

/-! ### A removal that is made good, and one that is lost -/

/-- `node1` puts an opinion and removes it. -/
def removingCalls : List (Call (Octets 4) (Octets 6)) :=
  [.putOpinion "node1" sampleAddress (sampleEntry 5), .removeOpinion "node1" sampleAddress]

/-- `node1` then puts another opinion. -/
def restoringCalls : List (Call (Octets 4) (Octets 6)) :=
  removingCalls ++ [.putOpinion "node1" sampleAddress (sampleEntry 7)]

theorem wellFormed_sampleEntry {stale : Int64} (h : 0 ≤ stale.toInt) :
    (Call.putOpinion "node1" sampleAddress (sampleEntry stale)).WellFormed :=
  ⟨⟨by decide, by decide⟩, nonNegative_sampleEntry h⟩

/-- The calls of the removing sample are well formed. -/
theorem wellFormed_of_mem_removingCalls {c : Call (Octets 4) (Octets 6)}
    (hc : c ∈ removingCalls) : c.WellFormed := by
  simp only [removingCalls, List.mem_cons, List.not_mem_nil, or_false] at hc
  rcases hc with rfl | rfl
  · exact wellFormed_sampleEntry (by decide)
  · exact (wellFormed_sampleEntry (by decide : (0 : ℤ) ≤ (0 : Int64).toInt)).1

theorem opinion_participant_put_again :
    currentOpinion (restoringCalls.map Call.opinion) sampleAddress "node1" =
      some (sampleEntry 7) ∧
    ∀ k o, (participant dottedFormats (busLog dottedFormats restoringCalls) :
        MergedMap AssocMap AssocMap (Octets 4) (ArpCacheEntry (Octets 6))).opinion k o =
      currentOpinion (restoringCalls.map Call.opinion) k o := by
  refine ⟨by decide, (opinion_participant_iff_kept lawful_dottedFormats ?_).mpr ?_⟩
  · intro c hc
    rw [restoringCalls, List.mem_append, List.mem_singleton] at hc
    rcases hc with hc | rfl
    · exact wellFormed_of_mem_removingCalls hc
    · exact wellFormed_sampleEntry (by decide)
  · intro k o
    by_cases h : o = "node1" ∧ k = sampleAddress
    · obtain ⟨rfl, rfl⟩ := h
      exact kept_concat_put (sampleEntry 7)
    · -- nobody else ever puts an opinion
      rintro pre post heq ⟨v, hv⟩
      have hmem : Call.putOpinion o k v ∈ restoringCalls := heq ▸ List.mem_append_left _ hv
      simp only [restoringCalls, removingCalls, List.mem_append, List.mem_cons,
        List.not_mem_nil, or_false, Call.putOpinion.injEq, reduceCtorEq] at hmem
      rcases hmem with ⟨ho, hk, -⟩ | ⟨ho, hk, -⟩
      · exact absurd ⟨ho, hk⟩ h
      · exact absurd ⟨ho, hk⟩ h

theorem opinion_participant_removed :
    ¬∀ k o, (participant dottedFormats (busLog dottedFormats removingCalls) :
        MergedMap AssocMap AssocMap (Octets 4) (ArpCacheEntry (Octets 6))).opinion k o =
      currentOpinion (removingCalls.map Call.opinion) k o := by
  intro hall
  have hnode := hall sampleAddress "node1"
  rw [participant, opinion_handleAll,
    emitted_busLog lawful_dottedFormats fun _ => wellFormed_of_mem_removingCalls] at hnode
  exact absurd hnode (by decide)

end ArpMergedMap
