import StateTableBench.ArpMergedMap.Formats
import StateTableBench.MergedMap.Size
import StateTableBench.MergedMap.Stale

/-!
# Log compaction

An opinion is published with the Kafka key `K-O`, made of its key and its owner, and the topic
is compacted: Kafka may delete a message once a later one with the same Kafka key follows. A
participant that joins late then reads a compacted log and should arrive at the same map as one
that has seen every opinion.

The cache and the size depend only on the last opinion of each key and owner, which compaction
keeps. The winners do not: a full log may end with a stale value on show, which a replica of the
compacted log never sees. `forall_compacts_iff_settled` says that compaction is invisible exactly
when no compaction of the log, the log itself included, ends in an unsettled key.
-/

open FiniteMap

namespace KafkaBus

open MergedMap KeyedLog ArpMergedMap

variable {H T : Type → Type → Type} [FiniteMap H] [FiniteMap T]
variable {K V : Type} [DecidableEq K] [DecidableEq V]

/-- The Kafka key under which an opinion is published by the bus of its owner. -/
def kafkaKey (keyAsString : K → String) (opinion : Opinion K V) : String :=
  keyAsString opinion.key ++ "-" ++ opinion.owner

section Key

variable {keyAsString : K → String}

omit [DecidableEq K] [DecidableEq V] in
/-- Opinions share a Kafka key exactly when they are about the same key and owner, even if the
name of the owner contains a `-`. -/
theorem kafkaKey_eq_iff (hinj : Function.Injective keyAsString)
    (hfree : ∀ k, '-' ∉ (keyAsString k).toList) {op op' : Opinion K V} :
    kafkaKey keyAsString op' = kafkaKey keyAsString op ↔ subject op' = subject op := by
  have hsep := @Text.append_sep_inj '-' _ _ op'.owner op.owner (hfree op'.key) (hfree op.key)
  rw [subject, subject, Prod.mk.injEq, ← hinj.eq_iff]
  exact hsep

omit [DecidableEq V] in
/-- Compaction keeps the opinion each owner currently holds. -/
theorem currentOpinion_of_compacts (hinj : Function.Injective keyAsString)
    (hfree : ∀ k, '-' ∉ (keyAsString k).toList) {log log' : List (Opinion K V)}
    (h : Compacts (kafkaKey keyAsString) log log') (k : K) (o : String) :
    currentOpinion log' k o = currentOpinion log k o := by
  have hsubject : Compacts subject log log' :=
    h.of_key_eq fun _ _ => (kafkaKey_eq_iff hinj hfree).mp
  rw [currentOpinion, currentOpinion, hsubject.last?_eq]

omit [DecidableEq V] in
/-- No owner speaks twice about a key in a fully compacted log. -/
theorem currentOpinion_eq_none_of_compact {log pre post : List (Opinion K V)} {op : Opinion K V}
    (h : compact (kafkaKey keyAsString) log = pre ++ op :: post) :
    currentOpinion pre op.key op.owner = none := by
  have hnodup := nodup_map_key_compact (kafkaKey keyAsString) log
  rw [h, List.map_append, List.map_cons, List.nodup_append] at hnodup
  have hnone : last? subject pre (op.key, op.owner) = none := by
    rw [last?_eq_none_iff]
    intro m hm hsubject
    obtain ⟨hkey, howner⟩ := Prod.mk.inj hsubject
    have hkafka : kafkaKey keyAsString m = kafkaKey keyAsString op := by
      rw [kafkaKey, kafkaKey, hkey, howner]
    exact hnodup.2.2 _ (List.mem_map_of_mem hm) _ List.mem_cons_self hkafka
  rw [currentOpinion, hnone, Option.bind_none]

/-- In a fully compacted log nobody takes back an opinion, so no stale value is left behind. -/
theorem not_unsettled_compact (crStrategy : V → V → Ordering) (log : List (Opinion K V)) (k : K) :
    ¬Unsettled H T crStrategy (compact (kafkaKey keyAsString) log) k := by
  rintro ⟨pre, op, post, hlog, ⟨-, ⟨w, -, -, honly⟩, -⟩, -⟩
  -- the owner would hold the value on show before it speaks about the key
  have hheld := (honly op.owner).mpr rfl
  rw [← handleAll, opinion_handleAll, currentOpinion_eq_none_of_compact hlog] at hheld
  cases hheld

end Key

variable {crStrategy : V → V → Ordering}

/-- The size after a log depends only on the current opinions. -/
theorem size_handleAll_congr {log log' : List (Opinion K V)}
    (h : ∀ k o, currentOpinion log' k o = currentOpinion log k o) :
    (handleAll crStrategy log' : MergedMap H T K V).size =
      (handleAll crStrategy log : MergedMap H T K V).size := by
  rw [size_handleAll, size_handleAll]
  simp only [h]

variable [Std.TransCmp crStrategy] [Std.LawfulEqCmp crStrategy]

/-- Every replica that reads a compaction of the log agrees with a replica that has read all of
it exactly when, in every compaction of the log, each step that leaves a stale value behind is
followed by a step on the same key that passes the test for a new winner. -/
theorem forall_compacts_iff_settled {keyAsString : K → String}
    (hinj : Function.Injective keyAsString) (hfree : ∀ k, '-' ∉ (keyAsString k).toList)
    (log : List (Opinion K V)) :
    (∀ log', Compacts (kafkaKey keyAsString) log log' →
      (∀ k, (handleAll crStrategy log' : MergedMap H T K V).get k =
        (handleAll crStrategy log : MergedMap H T K V).get k) ∧
      (handleAll crStrategy log' : MergedMap H T K V).size =
        (handleAll crStrategy log : MergedMap H T K V).size) ↔
    ∀ log', Compacts (kafkaKey keyAsString) log log' → ∀ k, ¬Unsettled H T crStrategy log' k := by
  have hcurrent : ∀ log', Compacts (kafkaKey keyAsString) log log' →
      ∀ k, currentOpinion log' k = currentOpinion log k :=
    fun log' h k => funext fun o => currentOpinion_of_compacts hinj hfree h k o
  constructor
  · intro hall log' hlog' k
    -- the fully compacted log shows the winner, and `log'` shows the same
    have hcompact := compacts_compact (kafkaKey keyAsString) log
    have hget := ((hall log' hlog').1 k).trans ((hall _ hcompact).1 k).symm
    rw [← isWinner_handleAll_iff_not_unsettled, hget, hcurrent log' hlog' k,
      ← hcurrent _ hcompact k, isWinner_handleAll_iff_not_unsettled]
    exact not_unsettled_compact crStrategy log k
  · intro hall log' hlog'
    refine ⟨fun k => ?_, size_handleAll_congr fun k o => by rw [hcurrent log' hlog']⟩
    -- both logs show the winner of the same opinions, and there is only one
    have hwin := (isWinner_handleAll_iff_not_unsettled (H := H) (T := T) log' k).mpr
      (hall log' hlog' k)
    have hwin₀ := (isWinner_handleAll_iff_not_unsettled (H := H) (T := T) log k).mpr
      (hall log (.refl log) k)
    rw [hcurrent log' hlog' k] at hwin
    exact hwin.unique hwin₀

/-! ### A log whose compaction is invisible, and one whose compaction is not -/

/-- `node1` raises its own opinion above the one of `node2`. -/
def supersedingLog : List (Opinion (Octets 4) ℕ) :=
  [⟨sampleAddress, some 5, "node2"⟩, ⟨sampleAddress, some 7, "node1"⟩,
    ⟨sampleAddress, some 10, "node1"⟩]

/-- The only message that compaction can delete from the log is the superseded one. -/
theorem eq_of_compacts_supersedingLog {log' : List (Opinion (Octets 4) ℕ)}
    (h : Compacts (kafkaKey dottedFormats.ipToString) supersedingLog log') :
    log' = supersedingLog ∨ log' = raisingLog sampleAddress := by
  have hsubject : Compacts subject supersedingLog log' :=
    h.of_key_eq fun _ _ => (kafkaKey_eq_iff lawful_dottedFormats.ipToString_injective
      lawful_dottedFormats.not_mem_ipToString).mp
  cases hsubject with
  | drop _ hlater _ => exact absurd hlater (by decide)
  | keep _ hrest =>
    cases hrest with
    | keep _ hlast =>
      cases hlast with
      | drop _ hlater _ => exact absurd hlater (by decide)
      | keep _ hnil =>
        cases hnil
        exact .inl rfl
    | drop _ _ hlast =>
      cases hlast with
      | drop _ hlater _ => exact absurd hlater (by decide)
      | keep _ hnil =>
        cases hnil
        exact .inr rfl

theorem compacts_supersedingLog_settled :
    Compacts (kafkaKey dottedFormats.ipToString) supersedingLog (raisingLog sampleAddress) ∧
    ∀ log', Compacts (kafkaKey dottedFormats.ipToString) supersedingLog log' →
      (∀ k, (handleAll compare log' : MergedMap AssocMap AssocMap (Octets 4) ℕ).get k =
        (handleAll compare supersedingLog : MergedMap AssocMap AssocMap (Octets 4) ℕ).get k) ∧
      (handleAll compare log' : MergedMap AssocMap AssocMap (Octets 4) ℕ).size =
        (handleAll compare supersedingLog : MergedMap AssocMap AssocMap (Octets 4) ℕ).size := by
  refine ⟨.keep _ (.drop _ ⟨_, List.mem_singleton_self _, rfl⟩ (.keep _ .nil)), ?_⟩
  refine (forall_compacts_iff_settled lawful_dottedFormats.ipToString_injective
    lawful_dottedFormats.not_mem_ipToString supersedingLog).mpr ?_
  intro log' hlog' k
  -- every opinion wins when it arrives, so no step leaves a stale value behind
  have hnew : Run.EachStep (onNewOpinion compare)
      (init : MergedMap AssocMap AssocMap (Octets 4) ℕ) (ShowsNew compare) log' := by
    rcases eq_of_compacts_supersedingLog hlog' with rfl | rfl
    · simp only [supersedingLog, Run.eachStep_cons_iff]
      exact ⟨by decide, by decide, by decide, Run.eachStep_nil⟩
    · simp only [raisingLog, Run.eachStep_cons_iff]
      exact ⟨by decide, by decide, Run.eachStep_nil⟩
  exact (hnew.mono fun _ _ htest h => h.2.2 htest).not_pending

theorem not_forall_compacts_loweringLog :
    ¬∀ log', Compacts (kafkaKey dottedFormats.ipToString) (loweringLog sampleAddress) log' →
      (∀ k, (handleAll compare log' : MergedMap AssocMap AssocMap (Octets 4) ℕ).get k =
        (handleAll compare (loweringLog sampleAddress) :
          MergedMap AssocMap AssocMap (Octets 4) ℕ).get k) ∧
      (handleAll compare log' : MergedMap AssocMap AssocMap (Octets 4) ℕ).size =
        (handleAll compare (loweringLog sampleAddress) :
          MergedMap AssocMap AssocMap (Octets 4) ℕ).size := by
  intro hall
  -- compaction may drop the greater opinion that `node1` has taken back
  have hcompacts : Compacts (kafkaKey dottedFormats.ipToString) (loweringLog sampleAddress)
      [⟨sampleAddress, some 5, "node2"⟩, ⟨sampleAddress, some 3, "node1"⟩] :=
    .keep _ (.drop _ ⟨_, List.mem_singleton_self _, rfl⟩ (.keep _ .nil))
  exact absurd ((hall _ hcompacts).1 sampleAddress) (by decide)

end KafkaBus
