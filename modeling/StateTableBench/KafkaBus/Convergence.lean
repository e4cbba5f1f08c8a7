import StateTableBench.KafkaBus.Compaction

/-!
# Convergence

A log with several partitions, or several readers that join at different times, may deliver the
opinions of two owners in different orders, and a compacted log delivers only some of them. The
winners on show may then differ between participants: a participant that meets a stale value keeps
it, and another one never sees it.

An owner *raises* its opinion of a key if no value it publishes is below an earlier one of its own.
This can be checked at each owner, whatever the others do.

* `stream log k o` — what the owner `o` says about the key `k`, oldest first;
* `Raising crStrategy log` — an owner that replaces its opinion replaces it by one not below it;
* `Steady crStrategy log` — no value of an owner is below an earlier one, removals in between or
  not;
* `get_handleAll_eq_of_stream` — under a strict total order, participants that receive the same
  streams, in any order of the owners, show the same map;
* `get_handleAll_eq_of_compacts` — so do participants that read any compactions of such logs.
-/

open FiniteMap

namespace MergedMap

variable {H T H' T' : Type → Type → Type}
variable [FiniteMap H] [FiniteMap T] [FiniteMap H'] [FiniteMap T']
variable {K V : Type} [DecidableEq K] [DecidableEq V]

/-- What the owner `o` says about the key `k`, oldest first. -/
def stream (log : List (Opinion K V)) (k : K) (o : String) : List (Option V) :=
  (log.filter fun op => subject op = (k, o)).map Opinion.value

/-- A value is not replaced by one below it. -/
def NotBelow (crStrategy : V → V → Ordering) (before after : Option V) : Prop :=
  ∀ w v, before = some w → after = some v → (crStrategy w v).isLE

/-- Every owner that replaces its opinion of a key replaces it by one not below it. -/
def Raising (crStrategy : V → V → Ordering) (log : List (Opinion K V)) : Prop :=
  ∀ k o, (stream log k o).IsChain (NotBelow crStrategy)

/-- No value that an owner publishes for a key is below an earlier one. -/
def Steady (crStrategy : V → V → Ordering) (log : List (Opinion K V)) : Prop :=
  ∀ k o, (stream log k o).Pairwise (NotBelow crStrategy)

section Streams

variable {crStrategy : V → V → Ordering} {log log' : List (Opinion K V)} {k : K} {o : String}

omit [DecidableEq V] in
/-- The current opinion of an owner is the last one of its stream. -/
theorem currentOpinion_eq_stream (log : List (Opinion K V)) (k : K) (o : String) :
    currentOpinion log k o = (stream log k o).getLast?.join := by
  rw [currentOpinion, KeyedLog.last?, stream, List.getLast?_map]
  cases (log.filter fun op => subject op = (k, o)).getLast? with
  | none => rfl
  | some op => rfl

omit [DecidableEq V] in
/-- An opinion is appended to the stream of its key and owner. -/
theorem stream_concat (log : List (Opinion K V)) (op : Opinion K V) :
    stream (log ++ [op]) op.key op.owner = stream log op.key op.owner ++ [op.value] := by
  have hsubject : subject op = (op.key, op.owner) := rfl
  simp [stream, List.filter_append, hsubject]

omit [DecidableEq V] in
/-- A part of the log has parts of the streams. -/
theorem stream_sublist (h : log'.Sublist log) (k : K) (o : String) :
    (stream log' k o).Sublist (stream log k o) :=
  (h.filter _).map _

omit [DecidableEq V] in
/-- A prefix of a log without lowering has none. -/
theorem Raising.of_append {post : List (Opinion K V)} (h : Raising crStrategy (log ++ post)) :
    Raising crStrategy log := by
  intro k o
  have hchain := h k o
  rw [stream, List.filter_append, List.map_append] at hchain
  exact hchain.left_of_append

omit [DecidableEq V] in
/-- The last opinion of the log is not below the one that its owner held before. -/
theorem Raising.last {op : Opinion K V} (h : Raising crStrategy (log ++ [op])) :
    NotBelow crStrategy (currentOpinion log op.key op.owner) op.value := by
  intro w v hw hv
  have hchain := h op.key op.owner
  rw [stream_concat, List.isChain_append] at hchain
  rw [currentOpinion_eq_stream, Option.join_eq_some_iff] at hw
  exact hchain.2.2 (some w) hw op.value (by simp) w v rfl hv

omit [DecidableEq V] in
/-- A steady log lowers no opinion. -/
theorem Steady.raising (h : Steady crStrategy log) : Raising crStrategy log := fun k o =>
  (h k o).isChain

omit [DecidableEq V] in
/-- A part of a steady log is steady. -/
theorem Steady.sublist (h : Steady crStrategy log) (hsub : log'.Sublist log) :
    Steady crStrategy log' := fun k o => (h k o).sublist (stream_sublist hsub k o)

omit [DecidableEq V] in
/-- Steadiness is a property of the streams alone. -/
theorem Steady.of_stream_eq (h : Steady crStrategy log)
    (hstream : ∀ k o, stream log' k o = stream log k o) : Steady crStrategy log' := fun k o => by
  rw [hstream]
  exact h k o

omit [DecidableEq V] in
/-- The condition of `Steady`, one opinion against a later one. -/
theorem steady_iff : Steady crStrategy log ↔ log.Pairwise fun op op' =>
    subject op = subject op' → NotBelow crStrategy op.value op'.value := by
  have hstream : ∀ k o, (stream log k o).Pairwise (NotBelow crStrategy) ↔
      log.Pairwise fun op op' => subject op = (k, o) → subject op' = (k, o) →
        NotBelow crStrategy op.value op'.value := fun k o => by
    rw [stream, List.pairwise_map, List.pairwise_filter]
    simp only [decide_eq_true_eq]
  simp only [Steady, hstream]
  constructor
  · intro h
    refine List.pairwise_iff_getElem.mpr fun i j hi hj hij hsubject => ?_
    exact List.pairwise_iff_getElem.mp (h log[i].key log[i].owner) i j hi hj hij rfl hsubject.symm
  · intro h k o
    exact h.imp fun himp hop hop' => himp (hop.trans hop'.symm)

omit [DecidableEq V] in
/-- The opinions of different owners may be exchanged. -/
theorem stream_append_comm (h : ∀ op ∈ log, ∀ op' ∈ log', subject op ≠ subject op') (k : K)
    (o : String) : stream (log ++ log') k o = stream (log' ++ log) k o := by
  simp only [stream, List.filter_append, List.map_append]
  by_cases hlog : ∃ op ∈ log, subject op = (k, o)
  · obtain ⟨op, hop, hsubject⟩ := hlog
    have hnone : log'.filter (fun op => subject op = (k, o)) = [] := by
      rw [List.filter_eq_nil_iff]
      intro op' hop' heq
      exact h op hop op' hop' (hsubject.trans (of_decide_eq_true heq).symm)
    simp [hnone]
  · have hnone : log.filter (fun op => subject op = (k, o)) = [] := by
      rw [List.filter_eq_nil_iff]
      exact fun op hop heq => hlog ⟨op, hop, of_decide_eq_true heq⟩
    simp [hnone]

end Streams

variable {crStrategy : V → V → Ordering} [Std.TransCmp crStrategy] [Std.LawfulEqCmp crStrategy]

/-- An owner that does not lower its opinion leaves no stale value behind. -/
theorem not_leavesStale_of_notBelow {s : MergedMap H T K V} {op : Opinion K V}
    (hinv : IsWinner crStrategy (s.opinion op.key) (s.get op.key))
    (hraise : NotBelow crStrategy (s.opinion op.key op.owner) op.value) :
    ¬LeavesStale crStrategy s op := by
  rintro ⟨⟨w, hw, hvalue, honly⟩, htest⟩
  have howner : s.opinion op.key op.owner = some w := (honly op.owner).mpr rfl
  obtain ⟨k, v, o⟩ := op
  cases v with
  | some v =>
    -- some older opinion `v'` bounds `v`, and is itself at most the value `w` on show
    obtain ⟨o', v', hbefore, -, hbound⟩ :=
      exists_bound_of_not_showsNew (s := s) ⟨k, some v, o⟩ htest (.inl ⟨v, rfl⟩)
    have hv : (onNewOpinion crStrategy s ⟨k, some v, o⟩).opinion k o = some v := by
      rw [opinion_onNewOpinion_some_self, get?_put_self]
    have hv'w : (crStrategy v' w).isLE :=
      Ordering.isLE_iff_ne_gt.mpr (hinv.not_gt w hw o' v' hbefore)
    have heq : crStrategy w v = .eq := Std.OrientedCmp.isLE_antisymm
      (hraise w v howner rfl) (Std.TransCmp.isLE_trans (hbound o v hv) hv'w)
    exact hvalue (congrArg some (Std.LawfulEqCmp.eq_of_compare heq).symm)
  | none =>
    -- the pair that wins before and after the removal belongs to another owner
    have hsame : winningPair crStrategy (s.opinions k) =
      winningPair crStrategy (s.withoutOwner k o) := not_not.mp htest
    have hne : winningPair crStrategy (s.opinions k) ≠ none := by
      intro hnone
      have hemp := (FiniteMap.isEmpty_iff _).mp (winningPair_eq_none_iff.mp hnone) o
      exact Option.some_ne_none w (howner.symm.trans hemp)
    obtain ⟨⟨p, x⟩, hp⟩ := Option.ne_none_iff_exists'.mp hne
    have hbefore : s.opinion k p = some x := get?_of_winningPair hp
    have hafter : get? (s.withoutOwner k o) p = some x := get?_of_winningPair (hsame.symm.trans hp)
    have heq : crStrategy w x = .eq := Std.OrientedCmp.isLE_antisymm
      (isLE_winningPair hp howner) (Ordering.isLE_iff_ne_gt.mpr (hinv.not_gt w hw p x hbefore))
    -- but the only holder of `w` is the owner that removes it
    obtain rfl : w = x := Std.LawfulEqCmp.eq_of_compare heq
    obtain rfl : p = o := (honly p).mp hbefore
    rw [get?_withoutOwner, if_pos rfl] at hafter
    cases hafter

/-- If every owner raises its opinions, the winners are on show after every step. -/
theorem isWinner_handleAll_of_raising {log : List (Opinion K V)} (h : Raising crStrategy log)
    (k : K) :
    IsWinner crStrategy (currentOpinion log k)
      ((handleAll crStrategy log : MergedMap H T K V).get k) := by
  rw [← opinion_handleAll_eq (H := H) (T := T) crStrategy]
  induction log using List.reverseRecOn generalizing k with
  | nil => exact isWinner_init k
  | append_singleton log op ih =>
    have hwin := ih h.of_append
    rw [handleAll_concat]
    refine (isWinner_onNewOpinion_iff _ op hwin).mpr ?_ k
    refine not_leavesStale_of_notBelow (hwin op.key) ?_
    rw [opinion_handleAll]
    exact h.last

/-- Two logs on which every owner raises its opinions lead to the same map as soon as every owner
ends with the same opinions. -/
theorem Raising.get_handleAll_eq {log log' : List (Opinion K V)} (h : Raising crStrategy log)
    (h' : Raising crStrategy log')
    (hcurrent : ∀ k o, currentOpinion log' k o = currentOpinion log k o) (k : K) :
    (handleAll crStrategy log' : MergedMap H' T' K V).get k =
      (handleAll crStrategy log : MergedMap H T K V).get k := by
  have hwin' := isWinner_handleAll_of_raising (H := H') (T := T') h' k
  rw [funext (hcurrent k)] at hwin'
  exact hwin'.unique (isWinner_handleAll_of_raising h k)

omit [Std.TransCmp crStrategy] [Std.LawfulEqCmp crStrategy] in
/-- Logs with the same current opinions lead to maps of the same size. -/
theorem size_handleAll_eq {log log' : List (Opinion K V)}
    (hcurrent : ∀ k o, currentOpinion log' k o = currentOpinion log k o) :
    (handleAll crStrategy log' : MergedMap H' T' K V).size =
      (handleAll crStrategy log : MergedMap H T K V).size := by
  rw [size_handleAll, size_handleAll]
  simp only [hcurrent]

/-- If every owner raises its opinions, then two participants that receive the opinions of each
owner on each key in the order of that owner, and the opinions of different owners in any order
whatever, show the same value for every key and have the same size. -/
theorem get_handleAll_eq_of_stream {log log' : List (Opinion K V)}
    (hraise : Raising crStrategy log) (hstream : ∀ k o, stream log' k o = stream log k o) :
    (∀ k, (handleAll crStrategy log' : MergedMap H' T' K V).get k =
      (handleAll crStrategy log : MergedMap H T K V).get k) ∧
    (handleAll crStrategy log' : MergedMap H' T' K V).size =
      (handleAll crStrategy log : MergedMap H T K V).size := by
  have hraise' : Raising crStrategy log' := fun k o => by
    rw [hstream]
    exact hraise k o
  have hcurrent : ∀ k o, currentOpinion log' k o = currentOpinion log k o := fun k o => by
    rw [currentOpinion_eq_stream, currentOpinion_eq_stream, hstream]
  exact ⟨hraise.get_handleAll_eq hraise' hcurrent, size_handleAll_eq hcurrent⟩

/-- `node1` takes its opinion back before it publishes a lower one. -/
def restartingLog : List (Opinion ℕ ℕ) :=
  [⟨0, some 10, "node1"⟩, ⟨0, none, "node1"⟩, ⟨0, some 3, "node1"⟩]

/-- The restarting sample lowers nothing. -/
theorem raising_restartingLog :
    Raising compare (restartingLog ++ [⟨0, some 5, "node2"⟩]) := by
  intro k o
  by_cases hnode1 : (0, "node1") = (k, o)
  · obtain ⟨rfl, rfl⟩ := Prod.mk.inj hnode1
    have hstream : stream (restartingLog ++ [⟨0, some 5, "node2"⟩]) 0 "node1" =
      [some 10, none, some 3] := by decide
    simp [hstream, NotBelow]
  · -- no other owner speaks twice
    have hsub : (stream (restartingLog ++ [⟨0, some 5, "node2"⟩]) k o).Sublist [some 5] := by
      have hnone : stream restartingLog k o = [] := by
        simpa [stream, restartingLog, subject] using hnode1
      rw [stream, List.filter_append, List.map_append, ← stream, hnone]
      exact (List.filter_sublist (l := [_])).map Opinion.value
    exact ((List.pairwise_singleton _ _).sublist hsub).isChain

theorem get_handleAll_restartingLog :
    (∀ k, (handleAll compare ([⟨0, some 5, "node2"⟩] ++ restartingLog) :
        MergedMap AssocMap AssocMap ℕ ℕ).get k =
      (handleAll compare (restartingLog ++ [⟨0, some 5, "node2"⟩]) :
        MergedMap AssocMap AssocMap ℕ ℕ).get k) ∧
    (handleAll compare ([⟨0, some 5, "node2"⟩] ++ restartingLog) :
        MergedMap AssocMap AssocMap ℕ ℕ).size =
      (handleAll compare (restartingLog ++ [⟨0, some 5, "node2"⟩]) :
        MergedMap AssocMap AssocMap ℕ ℕ).size :=
  get_handleAll_eq_of_stream raising_restartingLog
    (stream_append_comm (by decide))

end MergedMap

namespace KafkaBus

open MergedMap KeyedLog ArpMergedMap

section Compacted

variable {H T H' T' : Type → Type → Type}
variable [FiniteMap H] [FiniteMap T] [FiniteMap H'] [FiniteMap T']
variable {K V : Type} [DecidableEq K] [DecidableEq V]
variable {crStrategy : V → V → Ordering} [Std.TransCmp crStrategy] [Std.LawfulEqCmp crStrategy]

/-- If no owner ever publishes a value below an earlier one of its own, then two participants that
read any compactions, by Kafka key, of logs with the same streams show the same value for every
key and have the same size. -/
theorem get_handleAll_eq_of_compacts {keyAsString : K → String}
    (hinj : Function.Injective keyAsString) (hfree : ∀ k, '-' ∉ (keyAsString k).toList)
    {log log' read read' : List (Opinion K V)} (hsteady : Steady crStrategy log)
    (hstream : ∀ k o, stream log' k o = stream log k o)
    (hread : Compacts (kafkaKey keyAsString) log read)
    (hread' : Compacts (kafkaKey keyAsString) log' read') :
    (∀ k, (handleAll crStrategy read' : MergedMap H' T' K V).get k =
      (handleAll crStrategy read : MergedMap H T K V).get k) ∧
    (handleAll crStrategy read' : MergedMap H' T' K V).size =
      (handleAll crStrategy read : MergedMap H T K V).size := by
  -- compaction keeps the condition on the owners, and where each owner ends
  have hraise : Raising crStrategy read := (hsteady.sublist hread.sublist).raising
  have hraise' : Raising crStrategy read' :=
    ((hsteady.of_stream_eq hstream).sublist hread'.sublist).raising
  have hcurrent : ∀ k o, currentOpinion read' k o = currentOpinion read k o := fun k o => by
    rw [currentOpinion_of_compacts hinj hfree hread', currentOpinion_of_compacts hinj hfree hread,
      currentOpinion_eq_stream, currentOpinion_eq_stream, hstream]
  exact ⟨hraise.get_handleAll_eq hraise' hcurrent, size_handleAll_eq hcurrent⟩

end Compacted

theorem get_handleAll_supersedingLog :
    (∀ k, (handleAll compare (raisingLog sampleAddress) :
        MergedMap AssocMap AssocMap (Octets 4) ℕ).get k =
      (handleAll compare (supersedingLog.drop 1 ++ supersedingLog.take 1) :
        MergedMap AssocMap AssocMap (Octets 4) ℕ).get k) ∧
    (handleAll compare (raisingLog sampleAddress) :
        MergedMap AssocMap AssocMap (Octets 4) ℕ).size =
      (handleAll compare (supersedingLog.drop 1 ++ supersedingLog.take 1) :
        MergedMap AssocMap AssocMap (Octets 4) ℕ).size := by
  have hsteady : Steady compare (supersedingLog.drop 1 ++ supersedingLog.take 1) := by
    rw [steady_iff]
    simp [supersedingLog, subject, NotBelow, Nat.isLE_compare]
  have hstream : ∀ k o, stream supersedingLog k o =
      stream (supersedingLog.drop 1 ++ supersedingLog.take 1) k o :=
    stream_append_comm (by decide : ∀ op ∈ supersedingLog.take 1, ∀ op' ∈ supersedingLog.drop 1,
      subject op ≠ subject op')
  refine get_handleAll_eq_of_compacts lawful_dottedFormats.ipToString_injective
    lawful_dottedFormats.not_mem_ipToString hsteady hstream (.refl _) ?_
  exact .keep _ (.drop _ ⟨_, List.mem_singleton_self _, rfl⟩ (.keep _ .nil))

end KafkaBus
