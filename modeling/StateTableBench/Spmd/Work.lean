import StateTableBench.Spmd.Defs

/-!
# Programs that work between their collectives

A program says when a rank computes and when it takes part in a collective. `working prog work`
is the same program with operations filled in: in the local state `s`, rank `r` first does the
operations `work r s`, one after another, each a step of its own that other ranks may come between.

* `Config.erase` — a configuration without the operations; `Reachable.tracks` says that erasing
  leads to configurations that are reachable without them;
* `Config.ops c r` — the operations that rank `r` has done so far. If `hist r s` are the
  operations done on the way to `s`, then those done and those still to do in `s` make up
  `hist r s ++ work r s`.
-/

namespace Spmd

variable {n : ℕ} {σ β ε ω : Type}

/-- The program `prog` with the operations `work r s` done by rank `r` in the local state `s`. The
local state is extended by the operations still to do. -/
def working (prog : Fin n → σ → Act n σ β ε) (work : Fin n → σ → List ω) (r : Fin n)
    (s : σ × List ω) : Act n (σ × List ω) β (ε ⊕ ω) :=
  match s.2 with
  | op :: ops => .compute (some (.inr op)) (s.1, ops)
  | [] =>
    match prog r s.1 with
    | .compute event next => .compute (event.map .inl) (next, work r next)
    | .barrier next => .barrier (next, work r next)
    | .bcast root mine next => .bcast root mine fun v => (next v, work r (next v))
    | .halt => .halt

/-- Every rank starts with the operations of its first local state. -/
def workingInit (init : Fin n → σ) (work : Fin n → σ → List ω) (r : Fin n) : σ × List ω :=
  (init r, work r (init r))

namespace Config

variable (c : Config n (σ × List ω) β (ε ⊕ ω))

/-- The configuration of the program without operations. -/
def erase : Config n σ β ε where
  loc r := (c.loc r).1
  issued := c.issued
  left := c.left
  trace := c.trace.filterMap fun e => e.2.getLeft?.map (Prod.mk e.1)

/-- The operations done by all ranks, in the order in which they were done. -/
def workTrace : List (Fin n × ω) := c.trace.filterMap fun e => e.2.getRight?.map (Prod.mk e.1)

/-- The operations done by rank `r`. -/
def ops (r : Fin n) : List ω :=
  c.workTrace.filterMap fun e => if e.1 = r then some e.2 else none

/-- A change of the local state of one rank. -/
theorem erase_loc_update (r : Fin n) (x : σ × List ω) :
    (fun q => (Function.update c.loc r x q).1) = Function.update c.erase.loc r x.1 :=
  Function.comp_update Prod.fst c.loc r x

variable {c} in
/-- An operation is erased. -/
theorem erase_of_op {r : Fin n} {s : σ} (hs : c.erase.loc r = s) (ops : List ω) (op : ω) :
    erase { c with
      loc := Function.update c.loc r (s, ops)
      trace := c.trace ++ [(r, .inr op)] } = c.erase := by
  have hloc : (fun q => (Function.update c.loc r (s, ops) q).1) = c.erase.loc := by
    rw [erase_loc_update, ← hs, Function.update_eq_self]
  unfold erase at hloc ⊢
  rw [hloc, List.filterMap_append]
  simp

/-- A computation of the underlying program is kept. -/
theorem erase_of_compute (r : Fin n) (event : Option ε) (next : σ) (ops : List ω) :
    erase { c with
      loc := Function.update c.loc r (next, ops)
      trace := c.trace ++ ((event.map Sum.inl).map (Prod.mk r)).toList } =
      { c.erase with
        loc := Function.update c.erase.loc r next
        trace := c.erase.trace ++ (event.map (Prod.mk r)).toList } := by
  rw [← erase_loc_update c r (next, ops)]
  unfold erase
  cases event <;> simp

/-- And so is the return from a collective. -/
theorem erase_of_leave (r : Fin n) (next : σ) (ops : List ω) (left : Fin n → ℕ) :
    erase { c with loc := Function.update c.loc r (next, ops), left := left } =
      { c.erase with loc := Function.update c.erase.loc r next, left := left } := by
  rw [← erase_loc_update c r (next, ops)]
  rfl

/-- The operations of a rank are read off the trace alone. -/
theorem ops_congr {c c' : Config n (σ × List ω) β (ε ⊕ ω)} (h : c'.workTrace = c.workTrace)
    (r : Fin n) : c'.ops r = c.ops r := by
  rw [ops, h, ops]

/-- The rank that did the last operation. -/
theorem ops_of_concat {c c' : Config n (σ × List ω) β (ε ⊕ ω)} {r : Fin n} {op : ω}
    (h : c'.workTrace = c.workTrace ++ [(r, op)]) : c'.ops r = c.ops r ++ [op] := by
  simp [ops, h]

/-- And the others. -/
theorem ops_of_concat_of_ne {c c' : Config n (σ × List ω) β (ε ⊕ ω)} {r q : Fin n} {op : ω}
    (h : c'.workTrace = c.workTrace ++ [(r, op)]) (hq : q ≠ r) : c'.ops q = c.ops q := by
  simp [ops, h, hq.symm]

/-- The collectives are the same without the operations. -/
theorem left_of_erase_eq {c c' : Config n (σ × List ω) β (ε ⊕ ω)} (h : c'.erase = c.erase)
    (r : Fin n) : c'.left r = c.left r :=
  congrFun (congrArg Config.left h : c'.erase.left = c.erase.left) r

/-- The last operation was done. -/
theorem mem_ops_of_concat {c c' : Config n (σ × List ω) β (ε ⊕ ω)} {r : Fin n} {op : ω}
    (h : c'.workTrace = c.workTrace ++ [(r, op)]) : op ∈ c'.ops r := by
  rw [ops_of_concat h]
  exact List.mem_append_right _ (List.mem_singleton.mpr rfl)

/-- The operations of a rank are in the common trace. -/
theorem mem_ops_iff {r : Fin n} {op : ω} : op ∈ c.ops r ↔ (r, op) ∈ c.workTrace := by
  unfold ops
  rw [List.mem_filterMap]
  constructor
  · rintro ⟨⟨q, op'⟩, hmem, heq⟩
    split at heq
    · next hq =>
      obtain rfl := Option.some.inj heq
      obtain rfl : q = r := hq
      exact hmem
    · cases heq
  · intro hmem
    exact ⟨(r, op), hmem, if_pos rfl⟩

end Config

variable {prog : Fin n → σ → Act n σ β ε} {init : Fin n → σ} {work : Fin n → σ → List ω}

section Inversion

variable {r : Fin n} {s : σ} {ops : List ω}

/-- A computation is an operation, or one of the underlying program after all operations. -/
theorem working_compute {event : Option (ε ⊕ ω)} {next : σ × List ω}
    (h : working prog work r (s, ops) = .compute event next) :
    (∃ op ops', ops = op :: ops' ∧ event = some (.inr op) ∧ next = (s, ops')) ∨
      ops = [] ∧ ∃ event' next', prog r s = .compute event' next' ∧ event = event'.map .inl ∧
        next = (next', work r next') := by
  cases ops with
  | cons op ops' =>
    obtain ⟨rfl, rfl⟩ := Act.compute.inj h
    exact .inl ⟨op, ops', rfl, rfl, rfl⟩
  | nil =>
    right
    unfold working at h
    cases hact : prog r s with
    | compute event' next' =>
      simp only [hact] at h
      obtain ⟨rfl, rfl⟩ := Act.compute.inj h
      exact ⟨rfl, event', next', rfl, rfl, rfl⟩
    | barrier next' =>
      simp only [hact] at h
      cases h
    | bcast root mine next' =>
      simp only [hact] at h
      cases h
    | halt =>
      simp only [hact] at h
      cases h

/-- A collective is one of the underlying program, after all operations. -/
theorem working_collective {x : Collective n β} {next : β → σ × List ω}
    (h : (working prog work r (s, ops)).collective? = some (x, next)) :
    ops = [] ∧ ∃ next', (prog r s).collective? = some (x, next') ∧
      ∀ v, next v = (next' v, work r (next' v)) := by
  cases ops with
  | cons op ops' => cases h
  | nil =>
    refine ⟨rfl, ?_⟩
    unfold working at h
    cases hact : prog r s with
    | compute event' next' =>
      simp only [hact] at h
      cases h
    | barrier next' =>
      simp only [hact] at h
      obtain ⟨rfl, rfl⟩ := Prod.mk.inj (Option.some.inj h)
      exact ⟨_, rfl, fun _ => rfl⟩
    | bcast root mine next' =>
      simp only [hact] at h
      obtain ⟨rfl, rfl⟩ := Prod.mk.inj (Option.some.inj h)
      exact ⟨_, rfl, fun _ => rfl⟩
    | halt =>
      simp only [hact] at h
      cases h

end Inversion

/-- A configuration with operations, seen beside the one without. `hist r s` are the operations
that rank `r` has done when it gets to `s`. -/
structure Tracks (prog : Fin n → σ → Act n σ β ε) (init : Fin n → σ) (work : Fin n → σ → List ω)
    (hist : Fin n → σ → List ω) (c : Config n (σ × List ω) β (ε ⊕ ω)) : Prop where
  reachable : Reachable prog init c.erase
  /-- What is done and what is still to do. -/
  ops_append : ∀ r, c.ops r ++ (c.loc r).2 = hist r (c.loc r).1 ++ work r (c.loc r).1
  /-- What is still to do belongs to the present local state. -/
  pending_suffix : ∀ r, (c.loc r).2 <:+ work r (c.loc r).1
  /-- A rank enters a collective after its operations only. -/
  idle : ∀ r, ¬c.Outside r → (c.loc r).2 = []

/-- `hist` follows the moves of the program: what is done on the way to a new local state is what
was done on the way to the old one, and the operations of the old one. -/
def IsHistory (prog : Fin n → σ → Act n σ β ε) (init : Fin n → σ) (work : Fin n → σ → List ω)
    (hist : Fin n → σ → List ω) : Prop :=
  (∀ r, hist r (init r) = []) ∧
  ∀ r c c', Reachable prog init c → StepBy prog r c c' → c'.issued r = c.issued r →
    hist r (c'.loc r) = hist r (c.loc r) ++ work r (c.loc r)

section Step

variable {hist : Fin n → σ → List ω} {r : Fin n} {c c' : Config n (σ × List ω) β (ε ⊕ ω)}

/-- The step without operations that a step corresponds to. -/
theorem Tracks.erase_step (h : Tracks prog init work hist c)
    (hstep : StepBy (working prog work) r c c') :
    (∃ op ops, c.loc r = ((c.loc r).1, op :: ops) ∧ c'.loc r = ((c.loc r).1, ops) ∧
      c'.workTrace = c.workTrace ++ [(r, op)] ∧ c'.erase = c.erase) ∨
    ((c.loc r).2 = [] ∧ c'.workTrace = c.workTrace ∧ StepBy prog r c.erase c'.erase ∧
      (c'.issued r = c.issued r ∧ (c'.loc r).2 = work r (c'.loc r).1 ∧ c'.Outside r ∨
        c'.issued r ≠ c.issued r ∧ c'.loc r = c.loc r)) := by
  obtain ⟨s, pending, hloc⟩ : ∃ s pending, c.loc r = (s, pending) := ⟨_, _, rfl⟩
  have hs : c.erase.loc r = s := congrArg Prod.fst hloc
  cases hstep with
  | @compute event next hout hact =>
    rw [hloc] at hact
    rcases working_compute hact with
      ⟨op, ops, rfl, rfl, rfl⟩ | ⟨rfl, event', next', hprog, rfl, rfl⟩
    · -- an operation is not a step of the underlying program
      refine .inl ⟨op, ops, by rw [hloc], by simp [hloc], ?_, Config.erase_of_op hs ops op⟩
      simp [Config.workTrace]
    · right
      rw [← hs] at hprog
      refine ⟨congrArg Prod.snd hloc, ?_, ?_, .inl ⟨rfl, by simp, hout⟩⟩
      · cases event' <;> simp [Config.workTrace]
      · rw [Config.erase_of_compute]
        exact StepBy.compute hout hprog
  | @enter x next hout hact =>
    rw [hloc] at hact
    obtain ⟨rfl, next', hprog, -⟩ := working_collective hact
    right
    rw [← hs] at hprog
    exact ⟨congrArg Prod.snd hloc, rfl, StepBy.enter hout hprog, .inr ⟨by simp, rfl⟩⟩
  | @leave x next v hin hact hrel =>
    rw [hloc] at hact
    obtain ⟨rfl, next', hprog, hnext⟩ := working_collective hact
    right
    rw [← hs] at hprog
    -- a rank that leaves a collective has left all that it has issued
    have hlen : c.left r + 1 = (c.issued r).length :=
      ((h.reachable.coherent.pending r).resolve_left hin).1
    refine ⟨congrArg Prod.snd hloc, rfl, ?_, .inl ⟨rfl, by simp [hnext], ?_⟩⟩
    · rw [hnext, Config.erase_of_leave]
      exact StepBy.leave hin hprog hrel
    · unfold Config.Outside
      simpa using hlen

/-- A step does no operation of another rank. -/
theorem Tracks.ops_of_ne (h : Tracks prog init work hist c)
    (hstep : StepBy (working prog work) r c c') {q : Fin n} (hq : q ≠ r) : c'.ops q = c.ops q := by
  rcases h.erase_step hstep with ⟨op, -, -, -, htrace, -⟩ | ⟨-, htrace, -⟩
  · exact Config.ops_of_concat_of_ne htrace hq
  · exact Config.ops_congr htrace q

/-- At the start nothing was done. -/
theorem tracks_start (hhist : IsHistory prog init work hist) :
    Tracks prog init work hist (.start (workingInit init work)) where
  reachable := Relation.ReflTransGen.refl
  ops_append r := by
    have hstart := hhist.1 r
    simp [Config.start, Config.ops, Config.workTrace, workingInit, hstart]
  pending_suffix _ := List.suffix_rfl
  idle r hin := absurd rfl hin

/-- What a rank has done and has still to do is the history of its local state. -/
theorem Tracks.step_ops_append (h : Tracks prog init work hist c)
    (hhist : IsHistory prog init work hist) (hstep : StepBy (working prog work) r c c')
    (q : Fin n) :
    c'.ops q ++ (c'.loc q).2 = hist q (c'.loc q).1 ++ work q (c'.loc q).1 := by
  by_cases hq : q = r
  · subst hq
    have hdone := h.ops_append q
    rcases h.erase_step hstep with ⟨op, ops, hloc, hloc', htrace, -⟩ |
      ⟨hnil, htrace, hbase, ⟨hissued, hpending, -⟩ | ⟨-, hloc⟩⟩
    · rw [hloc] at hdone
      rw [Config.ops_of_concat htrace, hloc', List.append_assoc]
      exact hdone
    · -- the rank gets to a new local state, with all its operations still to do
      have hmove := hhist.2 q c.erase c'.erase h.reachable hbase hissued
      rw [hnil, List.append_nil] at hdone
      rw [Config.ops_congr htrace, hpending, hdone]
      exact congrArg (· ++ work q (c'.loc q).1) hmove.symm
    · rw [Config.ops_congr htrace, hloc]
      exact hdone
  · rw [h.ops_of_ne hstep hq, hstep.loc_of_ne hq]
    exact h.ops_append q

/-- What is still to do gets shorter, or belongs to a new local state. -/
theorem Tracks.step_pending_suffix (h : Tracks prog init work hist c)
    (hstep : StepBy (working prog work) r c c') (q : Fin n) :
    (c'.loc q).2 <:+ work q (c'.loc q).1 := by
  by_cases hq : q = r
  · subst hq
    have hsuffix := h.pending_suffix q
    rcases h.erase_step hstep with ⟨op, ops, hloc, hloc', -⟩ |
      ⟨-, -, -, ⟨-, hpending, -⟩ | ⟨-, hloc⟩⟩
    · rw [hloc] at hsuffix
      rw [hloc']
      exact (List.suffix_cons op ops).trans hsuffix
    · rw [hpending]
    · rw [hloc]
      exact hsuffix
  · rw [hstep.loc_of_ne hq]
    exact h.pending_suffix q

/-- A rank in a collective has no operations left to do. -/
theorem Tracks.step_idle (h : Tracks prog init work hist c)
    (hstep : StepBy (working prog work) r c c') (q : Fin n) (hin : ¬c'.Outside q) :
    (c'.loc q).2 = [] := by
  by_cases hq : q = r
  · subst hq
    rcases h.erase_step hstep with ⟨op, ops, hloc, -, -, herase⟩ |
      ⟨hnil, -, -, ⟨-, -, hout⟩ | ⟨-, hloc⟩⟩
    · have hold : ¬c.erase.Outside q := by
        rw [← herase]
        exact hin
      have hidle := h.idle q hold
      rw [hloc] at hidle
      cases hidle
    · exact absurd hout hin
    · rw [hloc]
      exact hnil
  · unfold Config.Outside at hin
    rw [hstep.left_of_ne hq, hstep.issued_of_ne hq] at hin
    rw [hstep.loc_of_ne hq]
    exact h.idle q hin

/-- Every step keeps the history. -/
theorem Tracks.step (h : Tracks prog init work hist c) (hhist : IsHistory prog init work hist)
    (hstep : StepBy (working prog work) r c c') : Tracks prog init work hist c' where
  reachable := by
    rcases h.erase_step hstep with ⟨_, _, -, -, -, herase⟩ | ⟨-, -, hbase, -⟩
    · rw [herase]
      exact h.reachable
    · exact h.reachable.step hbase
  ops_append := h.step_ops_append hhist hstep
  pending_suffix := h.step_pending_suffix hstep
  idle := h.step_idle hstep

end Step

/-- Along every run with operations, erasing them gives a run without, and the operations done are
those of the history. -/
theorem Reachable.tracks {hist : Fin n → σ → List ω} (hhist : IsHistory prog init work hist)
    {c : Config n (σ × List ω) β (ε ⊕ ω)}
    (hc : Reachable (working prog work) (workingInit init work) c) :
    Tracks prog init work hist c :=
  hc.inv (tracks_start hhist) fun _ _ _ h hstep => h.step hhist hstep

section Ops

variable {hist : Fin n → σ → List ω} {c : Config n (σ × List ω) β (ε ⊕ ω)}

/-- What holds of the operations of all ranks is proved operation by operation. -/
theorem Reachable.workTrace_rule (hhist : IsHistory prog init work hist)
    (hc : Reachable (working prog work) (workingInit init work) c)
    {P : List (Fin n × ω) → Prop} (hnil : P [])
    (hop : ∀ (c₀ c₁ : Config n (σ × List ω) β (ε ⊕ ω)) (r : Fin n) (op : ω),
      Reachable (working prog work) (workingInit init work) c₀ →
      Reachable (working prog work) (workingInit init work) c₁ →
      c₁.workTrace = c₀.workTrace ++ [(r, op)] → c₁.erase = c₀.erase →
      P c₀.workTrace → P (c₀.workTrace ++ [(r, op)])) : P c.workTrace := by
  have hinv := hc.inv (I := fun c => Reachable (working prog work) (workingInit init work) c ∧
    P c.workTrace) ⟨Relation.ReflTransGen.refl, hnil⟩ fun r c₀ c₁ h hstep => ?_
  · exact hinv.2
  · refine ⟨h.1.step hstep, ?_⟩
    rcases (h.1.tracks hhist).erase_step hstep with ⟨op, _, -, -, htrace, herase⟩ | ⟨-, htrace, -⟩
    · rw [htrace]
      exact hop c₀ c₁ r op h.1 (h.1.step hstep) htrace herase h.2
    · rw [htrace]
      exact h.2

/-- The operations done so far are an initial part of those up to the next move. -/
theorem Tracks.ops_isPrefix (h : Tracks prog init work hist c) (r : Fin n) :
    c.ops r <+: hist r (c.loc r).1 ++ work r (c.loc r).1 :=
  ⟨_, h.ops_append r⟩

/-- The operations on the way to the present local state are done. -/
theorem Tracks.hist_isPrefix (h : Tracks prog init work hist c) (r : Fin n) :
    hist r (c.loc r).1 <+: c.ops r := by
  obtain ⟨done, hdone⟩ := h.pending_suffix r
  refine ⟨done, ?_⟩
  have happend := h.ops_append r
  rw [← hdone, ← List.append_assoc] at happend
  exact (List.append_cancel_right happend).symm

/-- A rank in a collective has done all operations of its local state. -/
theorem Tracks.ops_eq (h : Tracks prog init work hist c) {r : Fin n} (hin : ¬c.Outside r) :
    c.ops r = hist r (c.loc r).1 ++ work r (c.loc r).1 := by
  have happend := h.ops_append r
  rwa [h.idle r hin, List.append_nil] at happend

end Ops

end Spmd
