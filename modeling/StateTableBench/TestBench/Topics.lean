import StateTableBench.Spmd.Work
import StateTableBench.TestBench.InitBarrier
import StateTableBench.TestBench.Writers

/-!
# The creation of topics

Each map of a bench is a Kafka topic. Opening a map creates the topic unless it exists already
(`createTopicIfNeeded` in `KafkaBus.scala`), which is a check followed by an action: if two ranks
open a map at the same time, both may find that the topic does not exist. The benches avoid this by
letting the writers open their maps before the init barrier and the readers after it.

The model fills the calls into the run of a bench (`Spmd.working`). `answer` are the answers of
`topicExists`, which comes from a library: the results hold for all answers that are truthful.

`Exact.Bench.one_creator` is the result for both benches.
-/

open Spmd

namespace TestBench

/-- What can be observed of a call of `newArpMapAndReturnKafkaBus`. -/
inductive TopicOp
  /-- The call begins. -/
  | call (topic : String)
  /-- `AdminUtils.topicExists` with its answer. -/
  | topicExists (topic : String) (answer : Bool)
  /-- `AdminUtils.createTopic` is called. -/
  | createTopic (topic : String)
  /-- `AdminUtils.createTopic` has returned. -/
  | topicCreated (topic : String)
  /-- The call returns. -/
  | returned (topic : String)
deriving DecidableEq

/-- The topic of an operation. -/
def TopicOp.topic : TopicOp → String
  | .call topic => topic
  | .topicExists topic _ => topic
  | .createTopic topic => topic
  | .topicCreated topic => topic
  | .returned topic => topic

/-- `createTopicIfNeeded`, with the answer of `topicExists`. -/
def createTopicIfNeeded (topic : String) (answer : Bool) : List TopicOp :=
  .topicExists topic answer :: if !answer then [.createTopic topic, .topicCreated topic] else []

/-- `newArpMapAndReturnKafkaBus`: the constructor of the bus creates the topic if needed. -/
def newArpMapAndReturnKafkaBus (answer : String → Bool) (topic : String) : List TopicOp :=
  .call topic :: createTopicIfNeeded topic (answer topic) ++ [.returned topic]

/-- Opening maps one after the other. -/
def openMaps (answer : String → Bool) (maps : List String) : List TopicOp :=
  maps.flatMap (newArpMapAndReturnKafkaBus answer)

/-- The operations of a rank in the run of a bench. A writer opens its maps before the init
barrier, a reader after it. Code that throws has done its first `cut` operations. -/
def topicWork (role : Role) (reach : Reach) (cut : ℕ) (answer : String → Bool) :
    Cycle → List TopicOp
  | .roleBegin =>
    if reach = .beforeInit then (openMaps answer role.writes).take cut
    else openMaps answer role.writes
  | .roleEnd =>
    if reach = .beforeCycle then (openMaps answer role.reads).take cut
    else openMaps answer role.reads
  | _ => []

/-- The operations of a rank on the way to a position. -/
def topicHist (role : Role) (reach : Reach) (cut : ℕ) (answer : String → Bool) :
    Cycle → List TopicOp
  | .roleBegin => []
  | .initBarrier => topicWork role reach cut answer .roleBegin
  | .roleEnd => topicWork role reach cut answer .roleBegin
  | .escaped => topicWork role reach cut answer .roleBegin ++
      if reach = .beforeInit then [] else topicWork role reach cut answer .roleEnd
  | _ => topicWork role reach cut answer .roleBegin ++ topicWork role reach cut answer .roleEnd

/-! ## Opening maps -/

section Lists

variable {answer : String → Bool} {maps : List String} {t : String}

theorem openMaps_append (maps maps' : List String) :
    openMaps answer (maps ++ maps') = openMaps answer maps ++ openMaps answer maps' :=
  List.flatMap_append

theorem mem_newArpMap {op : TopicOp} :
    op ∈ newArpMapAndReturnKafkaBus answer t ↔
      op = .call t ∨ op = .topicExists t (answer t) ∨ op = .returned t ∨
        answer t = false ∧ (op = .createTopic t ∨ op = .topicCreated t) := by
  unfold newArpMapAndReturnKafkaBus createTopicIfNeeded
  cases answer t with
  | false => simp; tauto
  | true => simp

theorem topic_of_mem_openMaps {op : TopicOp} (h : op ∈ openMaps answer maps) :
    op.topic ∈ maps ∧ op ∈ newArpMapAndReturnKafkaBus answer op.topic := by
  obtain ⟨topic, htopic, hop⟩ := List.mem_flatMap.mp h
  have heq : op.topic = topic := by
    rcases mem_newArpMap.mp hop with rfl | rfl | rfl | ⟨-, rfl | rfl⟩ <;> rfl
  rw [heq]
  exact ⟨htopic, hop⟩

theorem mem_openMaps {op : TopicOp} (ht : t ∈ maps)
    (h : op ∈ newArpMapAndReturnKafkaBus answer t) : op ∈ openMaps answer maps :=
  List.mem_flatMap.mpr ⟨t, ht, h⟩

theorem answer_of_topicExists_mem {a : Bool} (h : .topicExists t a ∈ openMaps answer maps) :
    a = answer t := by
  have hop := (topic_of_mem_openMaps h).2
  simpa [TopicOp.topic, mem_newArpMap] using hop

/-- An initial part of two lists in a row is one of the first, or contains all of it. -/
theorem prefix_append_cases {α : Type} {l l₁ l₂ : List α} (h : l <+: l₁ ++ l₂) :
    l <+: l₁ ∨ ∃ l', l = l₁ ++ l' ∧ l' <+: l₂ := by
  rcases List.prefix_or_prefix_of_prefix h (List.prefix_append l₁ l₂) with hle | ⟨l', rfl⟩
  · exact .inl hle
  · exact .inr ⟨l', rfl, (List.prefix_append_right_inj l₁).mp h⟩

/-- In a call, a topic is created only after it was found not to exist. -/
theorem topicExists_of_createTopic_call {l : List TopicOp} {topic : String}
    (h : l <+: newArpMapAndReturnKafkaBus answer topic) (hmem : .createTopic t ∈ l) :
    .topicExists t false ∈ l := by
  have hop := mem_newArpMap.mp (h.subset hmem)
  obtain ⟨hanswer, rfl⟩ : answer topic = false ∧ t = topic := by simpa using hop
  -- the creation comes third, after the answer
  unfold newArpMapAndReturnKafkaBus createTopicIfNeeded at h
  rw [hanswer] at h
  simp only [Bool.not_false, if_true, List.cons_append, List.nil_append, List.prefix_cons_iff,
    List.prefix_nil] at h
  rcases h with rfl | ⟨_, rfl, rfl | ⟨_, rfl, -⟩⟩
  · simp at hmem
  · simp at hmem
  · simp

/-- A topic is created only after it was found not to exist. -/
theorem topicExists_of_createTopic_isPrefix {l : List TopicOp} (h : l <+: openMaps answer maps)
    (hmem : .createTopic t ∈ l) : .topicExists t false ∈ l := by
  induction maps generalizing l with
  | nil =>
    rw [openMaps, List.flatMap_nil, List.prefix_nil] at h
    subst h
    cases hmem
  | cons topic maps ih =>
    rw [openMaps, List.flatMap_cons] at h
    rcases prefix_append_cases h with hcall | ⟨l', rfl, hrest⟩
    · exact topicExists_of_createTopic_call hcall hmem
    · rcases List.mem_append.mp hmem with hmem | hmem
      · exact List.mem_append_left l' (topicExists_of_createTopic_call List.prefix_rfl hmem)
      · exact List.mem_append_right _ (ih hrest hmem)

end Lists

/-! ## Runs -/

section Runs

variable {mpiSize : ℕ} [NeZero mpiSize]
variable (role : Fin mpiSize → Role) (reach : Fin mpiSize → Reach)
variable (node : Fin mpiSize → Callbacks) (cut : Fin mpiSize → ℕ)
variable (answer : Fin mpiSize → String → Bool)

/-- The configurations of a bench whose ranks open their maps. -/
abbrev TopicConfig (mpiSize : ℕ) :=
  Config mpiSize (Cycle × List TopicOp) Payload (Event ⊕ TopicOp)

/-- The configurations that a bench with the given roles and answers may reach. -/
def ReachesWithTopics (c : TopicConfig mpiSize) : Prop :=
  Reachable
    (working (benchProg reach node) fun r => topicWork (role r) (reach r) (cut r) (answer r))
    (workingInit (fun _ => .roleBegin) fun r => topicWork (role r) (reach r) (cut r) (answer r)) c

/-- The answers of `topicExists` are truthful. `initially` are the topics for which `createTopic`
has returned before the run. -/
structure Truthful (initially : String → Prop) (trace : List (Fin mpiSize × TopicOp)) : Prop where
  /-- The answer is `true` once a `createTopic` for the topic has returned. -/
  of_created : ∀ before after r t, trace = before ++ (r, .topicExists t false) :: after →
    ¬initially t ∧ ∀ q, (q, .topicCreated t) ∉ before
  /-- The answer is `true` only if `createTopic` was called for the topic. -/
  of_exists : ∀ before after r t, trace = before ++ (r, .topicExists t true) :: after →
    initially t ∨ ∃ q, (q, .createTopic t) ∈ before

omit [NeZero mpiSize] in
theorem Truthful.of_concat {initially : String → Prop} {trace : List (Fin mpiSize × TopicOp)}
    {e : Fin mpiSize × TopicOp} (h : Truthful initially (trace ++ [e])) :
    Truthful initially trace where
  of_created before after r t heq :=
    h.of_created before (after ++ [e]) r t (by rw [heq, List.append_assoc, List.cons_append])
  of_exists before after r t heq :=
    h.of_exists before (after ++ [e]) r t (by rw [heq, List.append_assoc, List.cons_append])

variable {role reach node cut answer}

/-- The moves of the run keep to the history. -/
theorem isHistory_topicHist :
    IsHistory (benchProg reach node) (fun _ => .roleBegin)
      (fun r => topicWork (role r) (reach r) (cut r) (answer r))
      (fun r => topicHist (role r) (reach r) (cut r) (answer r)) := by
  refine ⟨fun _ => rfl, ?_⟩
  intro r c c' _ hstep hissued
  -- within the test cycle there is nothing left to do, and the history stays the same
  have hinTest : ∀ s : Cycle, s.inTest = true →
      topicHist (role r) (reach r) (cut r) (answer r) s =
        topicWork (role r) (reach r) (cut r) (answer r) .roleBegin ++
          topicWork (role r) (reach r) (cut r) (answer r) .roleEnd ∧
      topicWork (role r) (reach r) (cut r) (answer r) s = [] := by
    intro s hs
    cases s <;> simp_all [topicHist, topicWork, Cycle.inTest]
  cases hstep with
  | @compute event next hout hact =>
    simp only [Function.update_self]
    rcases runBench_compute hact with ⟨hs, rfl⟩ | ⟨hs, rfl⟩ | ⟨hs, hnext⟩
    · rw [hs]
      split
      · next hthrows => simp [topicHist, hthrows]
      · simp [topicHist]
    · rw [hs]
      split
      · next hthrows => simp [topicHist, hthrows]
      · simp [topicHist]
    · rw [(hinTest _ hnext).1, (hinTest _ hs).1, (hinTest _ hs).2, List.append_nil]
  | enter => simp at hissued
  | @leave x next v hin hact hrel =>
    simp only [Function.update_self]
    rcases runBench_collective hact with ⟨hs, -, hnext⟩ | ⟨hs, hnext⟩
    · rw [hs, hnext]
      simp [topicHist, topicWork]
    · rw [(hinTest _ (hnext v)).1, (hinTest _ hs).1, (hinTest _ hs).2, List.append_nil]

theorem ReachesWithTopics.tracks {c : TopicConfig mpiSize}
    (hc : ReachesWithTopics role reach node cut answer c) :
    Tracks (benchProg reach node) (fun _ => .roleBegin)
      (fun r => topicWork (role r) (reach r) (cut r) (answer r))
      (fun r => topicHist (role r) (reach r) (cut r) (answer r)) c :=
  Reachable.tracks isHistory_topicHist hc

variable {c : TopicConfig mpiSize}

omit [NeZero mpiSize] in
theorem topicWork_roleBegin_isPrefix (r : Fin mpiSize) :
    topicWork (role r) (reach r) (cut r) (answer r) .roleBegin <+:
      openMaps (answer r) (role r).writes := by
  simp only [topicWork]
  split
  · exact List.take_prefix _ _
  · exact List.prefix_rfl

omit [NeZero mpiSize] in
theorem topicWork_roleEnd_isPrefix (r : Fin mpiSize) :
    topicWork (role r) (reach r) (cut r) (answer r) .roleEnd <+:
      openMaps (answer r) (role r).reads := by
  simp only [topicWork]
  split
  · exact List.take_prefix _ _
  · exact List.prefix_rfl

/-- Before the init barrier a rank only opens the maps it writes to. -/
theorem ReachesWithTopics.ops_of_left_eq_zero
    (hc : ReachesWithTopics role reach node cut answer c) {r : Fin mpiSize} (hr : c.left r = 0) :
    c.ops r <+: openMaps (answer r) (role r).writes := by
  have hops := hc.tracks.ops_isPrefix r
  have hat := atInit_of_reachable hc.tracks.reachable r
  have hwork : topicHist (role r) (reach r) (cut r) (answer r) (c.loc r).1 ++
      topicWork (role r) (reach r) (cut r) (answer r) (c.loc r).1 =
        topicWork (role r) (reach r) (cut r) (answer r) .roleBegin := by
    have hloc : c.erase.loc r = (c.loc r).1 := rfl
    rw [← hloc]
    rcases hat.left_eq_zero_iff.mp hr with hs | hs | ⟨hs, hthrows⟩
    · rw [hs]
      simp [topicHist]
    · rw [hs]
      simp [topicHist, topicWork]
    · rw [hs]
      simp [topicHist, topicWork, hthrows]
  rw [hwork] at hops
  exact hops.trans (topicWork_roleBegin_isPrefix r)

/-- Once somebody has left the init barrier, every rank has opened the maps it writes to. -/
theorem ReachesWithTopics.opened_of_left (hc : ReachesWithTopics role reach node cut answer c)
    {p : Fin mpiSize} (hp : 0 < c.left p) (q : Fin mpiSize) :
    openMaps (answer q) (role q).writes <+: c.ops q := by
  have ht := hc.tracks
  have hat := atInit_of_reachable ht.reachable q
  have hfull : reach q ≠ .beforeInit →
      topicWork (role q) (reach q) (cut q) (answer q) .roleBegin =
        openMaps (answer q) (role q).writes := fun hne => by simp [topicWork, hne]
  rcases entered_of_left ht.reachable hp q with hq | ⟨hs, hin⟩
  · -- past the barrier: the maps are part of the history
    have hne := hat.reach_ne (.inr hq)
    have hhist := ht.hist_isPrefix q
    rw [← hfull hne]
    refine List.IsPrefix.trans ?_ hhist
    have hpos : ¬c.erase.left q = 0 := Nat.ne_of_gt hq
    rw [hat.left_eq_zero_iff] at hpos
    have hloc : c.erase.loc q = (c.loc q).1 := rfl
    rw [hloc] at hpos
    cases hs : (c.loc q).1 <;> simp_all [topicHist]
  · -- waiting in the barrier: all operations before it are done
    have hs' : (c.loc q).1 = .initBarrier := hs
    have hne := hat.reach_ne (.inl hs)
    rw [ht.ops_eq hin, hs']
    simp [topicHist, topicWork, hne]

/-- In all, a rank opens the maps it writes to and then those it reads. -/
theorem ReachesWithTopics.ops_isPrefix (hc : ReachesWithTopics role reach node cut answer c)
    (r : Fin mpiSize) :
    c.ops r <+: openMaps (answer r) ((role r).writes ++ (role r).reads) := by
  rw [openMaps_append]
  by_cases hr : c.left r = 0
  · exact (hc.ops_of_left_eq_zero hr).trans (List.prefix_append _ _)
  · have hat := atInit_of_reachable hc.tracks.reachable r
    have hne := hat.reach_ne (.inr (Nat.pos_of_ne_zero hr))
    have hfull : topicWork (role r) (reach r) (cut r) (answer r) .roleBegin =
        openMaps (answer r) (role r).writes := by simp [topicWork, hne]
    have hreads : topicWork (role r) (reach r) (cut r) (answer r) .roleEnd <+:
        openMaps (answer r) (role r).reads := topicWork_roleEnd_isPrefix r
    refine (hc.tracks.ops_isPrefix r).trans ?_
    cases (c.loc r).1 with
    | roleBegin => simp [topicHist, hfull]
    | initBarrier => simp [topicHist, topicWork, hne]
    | _ =>
      simp only [topicHist, hfull, if_neg hne, List.append_assoc, List.prefix_append_right_inj]
      simpa [topicWork] using hreads

/-! ## One creator -/

section Creator

variable {names : List String} {readers : ℕ} {L : Layout mpiSize names readers}
variable {t : String} {w : Fin mpiSize}

/-- A rank other than the writer uses a topic after the init barrier only, to read it. -/
theorem ReachesWithTopics.left_pos_of_mem (hc : ReachesWithTopics L.role reach node cut answer c)
    (hw : t ∈ (L.role w).writes) {r : Fin mpiSize} (hr : r ≠ w) {op : TopicOp}
    (hop : op ∈ c.ops r) (ht : op.topic = t) : 0 < c.left r := by
  refine Nat.pos_of_ne_zero fun hzero => hr ?_
  have hmem := (topic_of_mem_openMaps ((hc.ops_of_left_eq_zero hzero).subset hop)).1
  rw [ht] at hmem
  exact L.writer_unique t r w hmem hw

/-- Once somebody has left the init barrier, the writer is done with opening the map. -/
theorem ReachesWithTopics.writer_opened (hc : ReachesWithTopics L.role reach node cut answer c)
    (hw : t ∈ (L.role w).writes) {p : Fin mpiSize} (hp : 0 < c.left p) {op : TopicOp}
    (hop : op ∈ newArpMapAndReturnKafkaBus (answer w) t) : op ∈ c.ops w :=
  (hc.opened_of_left hp w).subset (mem_openMaps hw hop)

/-- When another rank does an operation on a topic, the writer is done with opening the map. -/
theorem ReachesWithTopics.writer_opened_before {c₀ c₁ : TopicConfig mpiSize}
    (hc₀ : ReachesWithTopics L.role reach node cut answer c₀)
    (hc₁ : ReachesWithTopics L.role reach node cut answer c₁) {q : Fin mpiSize} {op : TopicOp}
    (htrace : c₁.workTrace = c₀.workTrace ++ [(q, op)]) (herase : c₁.erase = c₀.erase)
    (hw : t ∈ (L.role w).writes) (hq : q ≠ w) (ht : op.topic = t) :
    ∀ op' ∈ newArpMapAndReturnKafkaBus (answer w) t, (w, op') ∈ c₀.workTrace := by
  intro op' hop'
  have hleft := hc₁.left_pos_of_mem hw hq (Config.mem_ops_of_concat htrace) ht
  rw [Config.left_of_erase_eq herase] at hleft
  exact c₀.mem_ops_iff.mp (hc₀.writer_opened hw hleft hop')

theorem ReachesWithTopics.answer_of_mem (hc : ReachesWithTopics role reach node cut answer c)
    {r : Fin mpiSize} {a : Bool} (h : .topicExists t a ∈ c.ops r) : a = answer r t :=
  answer_of_topicExists_mem ((hc.ops_isPrefix r).subset h)

theorem ReachesWithTopics.topicExists_of_createTopic
    (hc : ReachesWithTopics role reach node cut answer c) {r : Fin mpiSize}
    (h : .createTopic t ∈ c.ops r) : .topicExists t false ∈ c.ops r :=
  topicExists_of_createTopic_isPrefix (hc.ops_isPrefix r) h

/-- No rank but the writer finds that the topic does not exist, and the writer finds that it does
only if it did before the run. -/
theorem ReachesWithTopics.answers (hc : ReachesWithTopics L.role reach node cut answer c)
    (hw : t ∈ (L.role w).writes) {initially : String → Prop}
    (htrue : Truthful initially c.workTrace) :
    (∀ q, q ≠ w → (q, .topicExists t false) ∉ c.workTrace) ∧
      ((w, .topicExists t true) ∈ c.workTrace → initially t) := by
  revert htrue
  refine Reachable.workTrace_rule (P := fun trace => Truthful initially trace →
    (∀ q, q ≠ w → (q, .topicExists t false) ∉ trace) ∧
      ((w, .topicExists t true) ∈ trace → initially t)) isHistory_topicHist hc ?_ ?_
  · intro _
    exact ⟨fun _ _ hmem => List.not_mem_nil hmem, fun hmem => absurd hmem List.not_mem_nil⟩
  · intro c₀ c₁ r op hc₀ hc₁ htrace herase ih htrue
    obtain ⟨ihreader, ihwriter⟩ := ih htrue.of_concat
    have hdone : op ∈ c₁.ops r := Config.mem_ops_of_concat htrace
    refine ⟨?_, ?_⟩
    · intro q hq hmem
      rcases List.mem_append.mp hmem with hmem | hmem
      · exact ihreader q hq hmem
      · obtain ⟨rfl, rfl⟩ := Prod.mk.inj (List.mem_singleton.mp hmem)
        -- the writer is done with the topic, so it has created the topic or found it
        have hopened := ReachesWithTopics.writer_opened_before hc₀ hc₁ htrace herase hw hq rfl
        obtain ⟨hnew, hnot⟩ := htrue.of_created c₀.workTrace [] q t rfl
        have hanswer : (w, .topicExists t (answer w t)) ∈ c₀.workTrace :=
          hopened _ (mem_newArpMap.mpr (.inr (.inl rfl)))
        cases ha : answer w t with
        | true =>
          rw [ha] at hanswer
          exact hnew (ihwriter hanswer)
        | false =>
          exact hnot w (hopened _ (mem_newArpMap.mpr (.inr (.inr (.inr ⟨ha, .inr rfl⟩)))))
    · intro hmem
      rcases List.mem_append.mp hmem with hmem | hmem
      · exact ihwriter hmem
      · obtain ⟨rfl, rfl⟩ := Prod.mk.inj (List.mem_singleton.mp hmem)
        rcases htrue.of_exists c₀.workTrace [] w t rfl with hinit | ⟨q, hcreate⟩
        · exact hinit
        · -- nobody has created the topic before the writer looks for it
          exfalso
          have hfound := ReachesWithTopics.topicExists_of_createTopic hc₀
            (c₀.mem_ops_iff.mpr hcreate)
          by_cases hq : q = w
          · subst hq
            have hfalse := ReachesWithTopics.answer_of_mem hc₀ hfound
            have htrue' := ReachesWithTopics.answer_of_mem hc₁ hdone
            rw [← hfalse] at htrue'
            cases htrue'
          · exact ihreader q hq (c₀.mem_ops_iff.mp hfound)

/-- The uses of a topic in the order of the init barrier: its writer opens it before, the others
after. -/
structure OpenedInOrder (c : TopicConfig mpiSize) (t : String) (w : Fin mpiSize) : Prop where
  /-- Before the barrier, only the writer uses the topic. -/
  only_writer : ∀ r op, op ∈ c.ops r → op.topic = t → c.left r = 0 → r = w
  /-- When a rank has left the barrier, the writer has opened the map. -/
  opened : ∀ r, 0 < c.left r → .call t ∈ c.ops w ∧ .returned t ∈ c.ops w
  /-- All calls of other ranks come after that of the writer. -/
  later : ∀ r before after, r ≠ w → c.workTrace = before ++ (r, .call t) :: after →
    (w, .returned t) ∈ before

theorem ReachesWithTopics.openedInOrder (hc : ReachesWithTopics L.role reach node cut answer c)
    (hw : t ∈ (L.role w).writes) : OpenedInOrder c t w where
  only_writer r op hop ht hzero := by
    by_contra hr
    exact Nat.ne_of_gt (hc.left_pos_of_mem hw hr hop ht) hzero
  opened r hr :=
    ⟨hc.writer_opened hw hr (mem_newArpMap.mpr (.inl rfl)),
      hc.writer_opened hw hr (mem_newArpMap.mpr (.inr (.inr (.inl rfl))))⟩
  later := by
    refine Reachable.workTrace_rule (P := fun trace => ∀ r before after, r ≠ w →
      trace = before ++ (r, .call t) :: after → (w, .returned t) ∈ before)
      isHistory_topicHist hc ?_ ?_
    · intro r before after _ heq
      exact absurd heq.symm (by simp)
    · intro c₀ c₁ q op hc₀ hc₁ htrace herase ih r before after hr heq
      rcases List.eq_nil_or_concat after with rfl | ⟨after', e, rfl⟩
      · obtain ⟨rfl, hlast⟩ := List.append_inj' heq rfl
        obtain ⟨rfl, rfl⟩ := Prod.mk.inj (List.singleton_inj.mp hlast)
        exact ReachesWithTopics.writer_opened_before hc₀ hc₁ htrace herase hw hr rfl _
          (mem_newArpMap.mpr (.inr (.inr (.inl rfl))))
      · rw [List.concat_eq_append, ← List.cons_append, ← List.append_assoc] at heq
        exact ih r before after' hr (List.append_inj' heq rfl).1

/-- Who uses a topic: one writer, and `readers` other ranks. -/
structure UsedBy (role : Fin mpiSize → Role) (t : String) (w : Fin mpiSize) (readers : ℕ) :
    Prop where
  /-- The writer opens the map once. -/
  count_writes : (role w).writes.count t = 1
  not_reads : t ∉ (role w).reads
  writer_unique : ∀ r, t ∈ (role r).writes → r = w
  card_others : (Finset.univ.filter fun r => r ≠ w ∧
    (t ∈ (role r).writes ∨ t ∈ (role r).reads)).card = readers

omit [NeZero mpiSize] in
theorem Layout.usedBy (L : Layout mpiSize names readers) (ht : t ∈ names)
    (hw : t ∈ (L.role w).writes) : UsedBy L.role t w readers where
  count_writes := List.count_eq_one_of_mem (L.nodup w).1 hw
  not_reads hreads := lt_irrefl w (L.writer_lt t w w hw hreads)
  writer_unique r hr := L.writer_unique t r w hr hw
  card_others := by
    refine Eq.trans (congrArg Finset.card ?_) (L.card_readers t ht)
    ext r
    simp only [Finset.mem_filter, Finset.mem_univ, true_and]
    constructor
    · rintro ⟨hr, hwrites | hreads⟩
      · exact absurd (L.writer_unique t r w hwrites hw) hr
      · exact hreads
    · intro hreads
      exact ⟨ne_of_gt (L.writer_lt t w r hw hreads), .inr hreads⟩

end Creator

end Runs

/-- In both benches each map has one writer, which opens it before the init barrier, while all
other ranks that use it do so after the barrier. So at most one rank creates the topic of the map,
along every interleaving and wherever the code of the roles throws. -/
theorem Exact.Bench.one_creator (bench : Exact.Bench) (hvalid : bench.Valid) {mpiSize : ℕ}
    [NeZero mpiSize] (henough : bench.checkNodes mpiSize ≠ .error .notEnoughNodesAvailable) :
    ∃ role : Fin mpiSize → Role, (∀ r, bench.role mpiSize r.val = .ok (role r)) ∧
      ∀ t ∈ bench.names, ∃ w, UsedBy role t w bench.readersPerMap ∧
        ∀ reach node cut answer c, ReachesWithTopics role reach node cut answer c →
          OpenedInOrder c t w ∧
          ∀ initially, Truthful initially c.workTrace →
            ∀ r, .createTopic t ∈ c.ops r → r = w := by
  obtain ⟨L, hrole⟩ := bench.exists_layout hvalid henough
  refine ⟨L.role, hrole, fun t ht => ?_⟩
  obtain ⟨w, hw⟩ := L.exists_writer t ht
  refine ⟨w, L.usedBy ht hw, fun reach node cut answer c hc => ⟨hc.openedInOrder hw, ?_⟩⟩
  intro initially htrue r hcreate
  by_contra hr
  have hfound := hc.topicExists_of_createTopic hcreate
  exact (hc.answers hw htrue).1 r hr (c.mem_ops_iff.mp hfound)

/-! ### A run with a writer and a reader -/

/-- The roles of two ranks with one map. -/
def pairRole (r : Fin 2) : Role := if r.val = 0 then .writer ["arp_0"] else .reader ["arp_0"]

/-- The writer is told that there is no topic, and the reader that there is one. -/
def pairAnswer (r : Fin 2) (_ : String) : Bool := decide (r.val = 1)

/-- The writer creates the topic, and after the init barrier the reader finds it. -/
def pairTrace : List (Fin 2 × TopicOp) :=
  [.call "arp_0", .topicExists "arp_0" false, .createTopic "arp_0", .topicCreated "arp_0",
      .returned "arp_0"].map (Prod.mk ⟨0, Nat.two_pos⟩) ++
    [.call "arp_0", .topicExists "arp_0" true, .returned "arp_0"].map
      (Prod.mk ⟨1, Nat.one_lt_two⟩)

/-- The callbacks of both ranks return. -/
def pairNode (_ : Fin 2) : Callbacks := ⟨false, false, false, false⟩

theorem role_pair (r : Fin 2) :
    (Exact.Bench.mergedMap ⟨1, 1, "arp", 1, 0, 0⟩).role (2 : ℕ) r.val = .ok (pairRole r) := by
  revert r
  decide

theorem exists_pairTrace : ∃ c,
    ReachesWithTopics pairRole (fun _ => .cycle) pairNode (fun _ => 0) pairAnswer c ∧
      c.workTrace = pairTrace := by
  have hstart : ReachesWithTopics pairRole (fun _ => .cycle) pairNode (fun _ => 0) pairAnswer _ :=
    Relation.ReflTransGen.refl
  -- the writer opens the map
  have hcall := hstart.step (r := 0) (.compute rfl rfl)
  have hexists := hcall.step (r := 0) (.compute rfl rfl)
  have hcreate := hexists.step (r := 0) (.compute rfl rfl)
  have hcreated := hcreate.step (r := 0) (.compute rfl rfl)
  have hreturned := hcreated.step (r := 0) (.compute rfl rfl)
  -- both go to the init barrier, and the reader leaves it
  have hwriter := hreturned.step (r := 0) (.compute rfl rfl)
  have hreader := hwriter.step (r := 1) (.compute rfl rfl)
  have henter := hreader.step (r := 0) (.enter rfl rfl)
  have henter' := henter.step (r := 1) (.enter rfl rfl)
  have hleave := henter'.step (r := 1)
    (.leave (v := default) Nat.zero_ne_one rfl (Fin.forall_fin_two.mpr ⟨rfl, rfl⟩))
  -- the reader opens the map
  have hcall' := hleave.step (r := 1) (.compute rfl rfl)
  have hexists' := hcall'.step (r := 1) (.compute rfl rfl)
  exact ⟨_, hexists'.step (r := 1) (.compute rfl rfl), rfl⟩

theorem truthful_pairTrace : Truthful (fun _ => False) pairTrace where
  of_created before after r t heq := by
    -- the answer is the second entry
    simp [pairTrace, List.cons_eq_append_iff] at heq
    obtain ⟨rfl, ⟨-, rfl⟩, -⟩ := heq
    simp
  of_exists before after r t heq := by
    -- it comes after the call of `createTopic`
    simp [pairTrace, List.cons_eq_append_iff] at heq
    obtain ⟨rfl, ⟨-, rfl⟩, -⟩ := heq
    simp

/-- The only rank that creates the topic is the writer. -/
theorem Exact.Bench.one_creator_pair : ∃ c,
    ReachesWithTopics pairRole (fun _ => .cycle) pairNode (fun _ => 0) pairAnswer c ∧
      Truthful (fun _ => False) c.workTrace ∧ .topicExists "arp_0" true ∈ c.ops 1 ∧
      ∀ r, .createTopic "arp_0" ∈ c.ops r ↔ r = 0 := by
  obtain ⟨c, hc, htrace⟩ := exists_pairTrace
  have htruthful : Truthful (fun _ => False) c.workTrace := htrace ▸ truthful_pairTrace
  obtain ⟨role, hrole, hcreator⟩ := @Exact.Bench.one_creator
    (.mergedMap ⟨1, 1, "arp", 1, 0, 0⟩) ⟨by decide, by decide⟩ 2 inferInstance (by decide)
  obtain rfl : role = pairRole :=
    funext fun r => Except.ok.inj ((hrole r).symm.trans (role_pair r))
  obtain ⟨w, hused, hruns⟩ := hcreator "arp_0" (by decide)
  obtain rfl : 0 = w := hused.writer_unique 0 (by decide)
  refine ⟨c, hc, htruthful, ?_, fun r => ⟨(hruns _ _ _ _ c hc).2 _ htruthful r, ?_⟩⟩
  · rw [c.mem_ops_iff, htrace]
    decide
  · rintro rfl
    rw [c.mem_ops_iff, htrace]
    decide

end TestBench
