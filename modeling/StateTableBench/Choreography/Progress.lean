import StateTableBench.Choreography.Defs
import Mathlib.Algebra.BigOperators.Fin
import Mathlib.Algebra.Order.BigOperators.Group.Finset

/-!
# Programs that enact a choreography

If each rank does, operation by operation, what its script in a choreography says (`Enacts`), then
along every interleaving and for every choice of the operations that are buffered

* every operation hands over the values of the choreography (`OnScript`, `Reachable.onScript`);
* some rank can make a step until all have come to their ends (`Enacts.halted_of_stuck`), and
* every run is finite (`Enacts.terminates`).

The argument for the second part is the usual one: the first interaction that some rank has not
begun cannot be blocked, as all ranks have begun everything before it.
-/

namespace Choreography

variable {n : ℕ} {σ β : Type}

/-- From the local state `s` on, rank `r` performs the operations of `todo r s`, if they hand over
the values that stand there; `work` bounds the computations until the next operation. -/
structure Enacts (prog : Fin n → σ → Act n σ β) (todo : Fin n → σ → List (Op n β × List β))
    (work : σ → ℕ) (bound : ℕ) : Prop where
  compute : ∀ {r s next}, prog r s = .compute next →
    todo r next = todo r s ∧ work next < work s
  perform : ∀ {r s op next}, prog r s = .perform op next →
    ∃ vs rest, todo r s = (op, vs) :: rest ∧ todo r (next vs) = rest
  halt : ∀ {r s}, prog r s = .halt → todo r s = []
  work_le : ∀ s, work s ≤ bound

/-- Where the ranks are in the choreography `L`. -/
structure OnScript (prog : Fin n → σ → Act n σ β) (todo : Fin n → σ → List (Op n β × List β))
    (L : List (Interaction n β)) (c : Config n σ β) : Prop where
  /-- A rank is outside, or it is in the last operation it has begun. -/
  pending : ∀ r, c.Outside r ∨ c.done r + 1 = (c.begun r).length ∧
    ∃ op next, prog r (c.loc r) = .perform op next ∧ (c.begun r)[c.done r]? = some op
  begun : ∀ r, c.begun r <+: ops r L
  todo_eq : ∀ r, todo r (c.loc r) = (script r L).drop (c.done r)

variable {eager : Fin n → ℕ → Prop} {prog : Fin n → σ → Act n σ β}
variable {todo : Fin n → σ → List (Op n β × List β)} {work : σ → ℕ} {bound : ℕ}
variable {init : Fin n → σ} {L L₁ L₂ : List (Interaction n β)} {c c' : Config n σ β} {r : Fin n}
variable {op : Op n β} {vs vs' : List β} {x : Interaction n β}

/-! ## When an operation may be finished -/

/-- A longer list has the same entries. -/
theorem getElem?_mono {α : Type} {l l' : List α} (h : l <+: l') {i : ℕ} {a : α}
    (ha : l[i]? = some a) : l'[i]? = some a := by
  obtain ⟨hi, rfl⟩ := List.getElem?_eq_some_iff.mp ha
  exact List.prefix_iff_getElem?.mp h i hi

/-- All ranks have been in the same number of collectives. -/
theorem length_collective (q r : Fin n) :
    (L.filterMap (Interaction.collective q)).length =
      (L.filterMap (Interaction.collective r)).length := by
  induction L with
  | nil => rfl
  | cons x L ih =>
    rw [List.filterMap_cons, List.filterMap_cons]
    cases x with
    | message => exact ih
    | barrier => exact congrArg (· + 1) ih
    | reduce => exact congrArg (· + 1) ih

/-- A rank that has begun as much has begun all of the first part. -/
theorem take_begun (hbegun : c.begun r <+: ops r (L₁ ++ L₂))
    (hlen : (script r L₁).length ≤ (c.begun r).length) :
    (c.begun r).take (script r L₁).length = ops r L₁ := by
  obtain ⟨tail, htail⟩ := hbegun
  rw [← length_ops] at hlen ⊢
  have htake := congrArg (List.take (ops r L₁).length) htail
  rwa [List.take_append_of_le_length hlen, ops_append, List.take_left] at htake

/-- What an operation hands over is what the script says. -/
theorem Config.Releases.eq (hbegun : ∀ q, c.begun q <+: ops q L)
    (hlen : c.done r < (c.begun r).length) (hscript : (script r L)[c.done r]? = some (op, vs))
    (h : c.Releases eager r (c.done r) op vs') : vs' = vs := by
  obtain ⟨L₁, x, L₂, rfl, hx, hi⟩ := exists_of_getElem?_script hscript
  have hbefore : (c.begun r).take (c.done r) = ops r L₁ := by
    rw [← hi] at hlen ⊢
    exact take_begun (hbegun r) hlen.le
  simp only [Releases, hbefore] at h
  cases x with
  | message src dst hne v =>
    simp only [Interaction.op?] at hx
    split_ifs at hx with hs hd
    · obtain ⟨rfl, rfl⟩ := Prod.mk.inj (Option.some.inj hx)
      exact h.1
    · obtain ⟨rfl, rfl⟩ := Prod.mk.inj (Option.some.inj hx)
      obtain ⟨w, rfl, hw⟩ := h
      rw [receivesFrom_ops] at hw
      -- the message is the one that the script of the sender has in this place
      have hsent := getElem?_mono ((hbegun src).filterMap (Op.valueTo r)) hw
      have hvalues : (ops src (L₁ ++ .message src dst hne v :: L₂)).filterMap (Op.valueTo r) =
          L₁.filterMap (Interaction.value src r) ++
            v :: L₂.filterMap (Interaction.value src r) := by
        rw [← sentTo, sentTo_ops]
        simp [Interaction.value, hd]
      rw [hvalues, List.getElem?_append_right le_rfl] at hsent
      simpa using hsent.symm
  | barrier =>
    obtain ⟨rfl, rfl⟩ := Prod.mk.inj (Option.some.inj hx)
    exact h.1
  | reduce root all =>
    obtain ⟨rfl, rfl⟩ := Prod.mk.inj (Option.some.inj hx)
    simp only at h
    split_ifs at h ⊢ with hroot
    · obtain ⟨all', rfl, hall⟩ := h
      congr 1
      funext q
      have hq := getElem?_mono ((hbegun q).filterMap Op.collective) (hall q)
      have hvalues : (ops q (L₁ ++ .reduce root all :: L₂)).filterMap Op.collective =
          L₁.filterMap (Interaction.collective q) ++
            some (root, all q) :: L₂.filterMap (Interaction.collective q) := by
        rw [← collectives, collectives_ops]
        simp [Interaction.collective]
      rw [collectives_ops, length_collective r q, hvalues,
        List.getElem?_append_right le_rfl] at hq
      simpa using hq.symm
    · exact h.1

/-- An operation may be finished once all ranks have begun the interaction. -/
theorem releases_of_begun (hL : L = L₁ ++ x :: L₂) (hbegun : ∀ q, c.begun q <+: ops q L)
    (hall : ∀ q, (script q (L₁ ++ [x])).length ≤ (c.begun q).length)
    (hop : x.op? r = some (op, vs)) : c.Releases eager r (script r L₁).length op vs := by
  have hL' : L = (L₁ ++ [x]) ++ L₂ := by rw [hL, List.append_assoc]; rfl
  have hbegan : ∀ q, ops q (L₁ ++ [x]) <+: c.begun q := fun q => by
    have hsplit : ops q (L₁ ++ [x] ++ L₂) = ops q (L₁ ++ [x]) ++ ops q L₂ := ops_append
    have hother : ops q (L₁ ++ [x]) <+: ops q L := by
      rw [hL', hsplit]
      exact List.prefix_append _ _
    exact List.prefix_of_prefix_length_le hother (hbegun q) (by rw [length_ops]; exact hall q)
  have hbefore : (c.begun r).take (script r L₁).length = ops r L₁ := by
    have hbegunR : c.begun r <+: ops r (L₁ ++ x :: L₂) := hL ▸ hbegun r
    refine take_begun hbegunR (le_trans ?_ (hall r))
    rw [script_append, List.length_append]
    exact Nat.le_add_right _ _
  simp only [Config.Releases, hbefore]
  cases x with
  | message src dst hne v =>
    simp only [Interaction.op?] at hop
    split_ifs at hop with hs hd
    · obtain ⟨rfl, rfl⟩ := Prod.mk.inj (Option.some.inj hop)
      refine ⟨rfl, .inr ?_⟩
      have hle : receivesFrom r (ops dst (L₁ ++ [.message src dst hne v])) ≤
          receivesFrom r (c.begun dst) := (hbegan dst).sublist.countP_le
      rw [receivesFrom_ops] at hle
      rw [sentTo_ops]
      simp [Interaction.value, hs] at hle ⊢
      omega
    · obtain ⟨rfl, rfl⟩ := Prod.mk.inj (Option.some.inj hop)
      refine ⟨v, rfl, ?_⟩
      rw [receivesFrom_ops]
      refine getElem?_mono ((hbegan src).filterMap (Op.valueTo r)) ?_
      rw [← sentTo, sentTo_ops]
      simp [Interaction.value, hd]
  | barrier =>
    obtain ⟨rfl, rfl⟩ := Prod.mk.inj (Option.some.inj hop)
    refine ⟨rfl, fun q => ?_⟩
    refine getElem?_mono ((hbegan q).filterMap Op.collective) ?_
    rw [← collectives, collectives_ops, collectives_ops, length_collective r q]
    simp [Interaction.collective]
  | reduce root all =>
    obtain ⟨rfl, rfl⟩ := Prod.mk.inj (Option.some.inj hop)
    have hcontribution : ∀ q, (collectives (c.begun q))[(collectives (ops r L₁)).length]? =
        some (some (root, all q)) := fun q => by
      refine getElem?_mono ((hbegan q).filterMap Op.collective) ?_
      rw [← collectives, collectives_ops, collectives_ops, length_collective r q]
      simp [Interaction.collective]
    simp only
    split_ifs with hroot
    · exact ⟨all, rfl, hcontribution⟩
    · exact ⟨rfl, .inr fun q => ⟨all q, hcontribution q⟩⟩

/-! ## Every run is on script -/

/-- At the start, all of the script is still to be done. -/
theorem onScript_start (hinit : ∀ r, todo r (init r) = script r L) :
    OnScript prog todo L (.start init) where
  pending _ := .inl rfl
  begun _ := List.nil_prefix
  todo_eq r := hinit r

namespace OnScript

/-- The entry of the script for the operation that a rank performs next. -/
theorem getElem?_script (h : OnScript prog todo L c) (henacts : Enacts prog todo work bound)
    {next : List β → σ} (hact : prog r (c.loc r) = .perform op next) :
    ∃ vs, (script r L)[c.done r]? = some (op, vs) ∧
      todo r (next vs) = (script r L).drop (c.done r + 1) := by
  obtain ⟨vs, rest, htodo, hnext⟩ := henacts.perform hact
  rw [h.todo_eq r] at htodo
  refine ⟨vs, ?_, ?_⟩
  · rw [← List.head?_drop, htodo]
    rfl
  · rw [hnext, ← List.tail_drop, htodo]
    rfl

/-- A step of a rank is the next one of its script. -/
theorem step (h : OnScript prog todo L c) (henacts : Enacts prog todo work bound)
    (hstep : StepBy eager prog r c c') : OnScript prog todo L c' := by
  refine ⟨fun q => ?_, fun q => ?_, fun q => ?_⟩
  all_goals by_cases hq : q = r
  · subst hq
    cases hstep with
    | compute hout _ => exact .inl hout
    | @begin op next hout hact =>
      have hdone : c.done q = (c.begun q).length := hout
      refine .inr ⟨?_, op, next, hact, ?_⟩
      · simp [hdone]
      · simp [hdone]
    | finish hin _ _ =>
      left
      show Function.update c.done q (c.done q + 1) q = (c.begun q).length
      rw [Function.update_self, ((h.pending q).resolve_left hin).1]
  · unfold Config.Outside
    rw [hstep.done_of_ne hq, hstep.begun_of_ne hq, hstep.loc_of_ne hq]
    exact h.pending q
  · subst hq
    cases hstep with
    | compute => exact h.begun q
    | finish => exact h.begun q
    | @begin op next hout hact =>
      -- the operation is the next one of the script
      have hdone : c.done q = (c.begun q).length := hout
      obtain ⟨vs, hget, -⟩ := h.getElem?_script henacts hact
      have hops : (ops q L)[(c.begun q).length]? = some op := by
        rw [ops, List.getElem?_map, ← hdone, hget]
        rfl
      show Function.update c.begun q (c.begun q ++ [op]) q <+: ops q L
      rw [Function.update_self, List.prefix_iff_eq_take.mp (h.begun q)]
      have htake := @List.take_add_one _ (ops q L) (c.begun q).length
      rw [hops, Option.toList_some] at htake
      rw [← htake]
      exact List.take_prefix _ _
  · rw [hstep.begun_of_ne hq]
    exact h.begun q
  · subst hq
    cases hstep with
    | @compute next hout hact =>
      have hnext : todo q next = todo q (c.loc q) := (henacts.compute hact).1
      simpa [hnext] using h.todo_eq q
    | begin => exact h.todo_eq q
    | @finish op next vs' hin hact hrel =>
      obtain ⟨vs, hget, hnext⟩ := h.getElem?_script henacts hact
      obtain ⟨hlen, op', next', hact', hbegun⟩ := (h.pending q).resolve_left hin
      obtain ⟨rfl, rfl⟩ := Act.perform.inj (hact.symm.trans hact')
      obtain rfl : vs' = vs := hrel.eq h.begun (by omega) hget
      simpa using hnext
  · rw [hstep.loc_of_ne hq, hstep.done_of_ne hq]
    exact h.todo_eq q

end OnScript

/-- So every reachable configuration is on the script. -/
theorem Reachable.onScript (henacts : Enacts prog todo work bound)
    (hinit : ∀ r, todo r (init r) = script r L) (hc : Reachable eager prog init c) :
    OnScript prog todo L c :=
  hc.inv (onScript_start hinit) fun _ _ _ h hstep => h.step henacts hstep

/-- What holds of the local state of a rank, if it is kept by computations and by operations that
hand over the values of the script. -/
theorem Reachable.localInv (henacts : Enacts prog todo work bound)
    (hinit : ∀ r, todo r (init r) = script r L) {I : Fin n → σ → Prop}
    (hstart : ∀ r, I r (init r))
    (hcompute : ∀ {r s next}, I r s → prog r s = .compute next → I r next)
    (hperform : ∀ {r s op next vs rest}, I r s → prog r s = .perform op next →
      todo r s = (op, vs) :: rest → I r (next vs))
    (hc : Reachable eager prog init c) (r : Fin n) : I r (c.loc r) := by
  induction hc generalizing r with
  | refl => exact hstart r
  | @tail c c' hc hstep ih =>
    obtain ⟨q, hstep⟩ := hstep
    by_cases hr : r = q
    · subst hr
      have hon := Reachable.onScript henacts hinit hc
      cases hstep with
      | compute hout hact => simpa using hcompute (ih r) hact
      | begin => exact ih r
      | @finish op next vs' hin hact hrel =>
        obtain ⟨vs, hget, -⟩ := hon.getElem?_script henacts hact
        obtain ⟨hlen, -⟩ := (hon.pending r).resolve_left hin
        obtain rfl : vs' = vs := hrel.eq hon.begun (by omega) hget
        obtain ⟨vs, rest, htodo, -⟩ := henacts.perform hact
        have hhead : (script r L)[c.done r]? = some (op, vs) := by
          rw [← List.head?_drop, ← hon.todo_eq r, htodo]
          rfl
        obtain ⟨-, rfl⟩ := Prod.mk.inj (Option.some.inj (hget.symm.trans hhead))
        simpa using hperform (ih r) hact htodo
    · rw [hstep.loc_of_ne hr]
      exact ih r

/-! ## Nobody waits forever -/

/-- Either all ranks have begun everything, or there is a first interaction that somebody has not
begun. -/
theorem all_begun_or (c : Config n σ β) (L : List (Interaction n β)) :
    (∀ q, (script q L).length ≤ (c.begun q).length) ∨
      ∃ L₁ x L₂ r, L = L₁ ++ x :: L₂ ∧ (∀ q, (script q L₁).length ≤ (c.begun q).length) ∧
        (c.begun r).length < (script r (L₁ ++ [x])).length := by
  induction L using List.reverseRecOn with
  | nil => exact .inl fun q => Nat.zero_le _
  | append_singleton L x ih =>
    rcases ih with hall | ⟨L₁, y, L₂, r, rfl, hall, hlt⟩
    · by_cases hnext : ∀ q, (script q (L ++ [x])).length ≤ (c.begun q).length
      · exact .inl hnext
      · obtain ⟨r, hr⟩ := not_forall.mp hnext
        exact .inr ⟨L, x, [], r, rfl, hall, not_le.mp hr⟩
    · exact .inr ⟨L₁, y, L₂ ++ [x], r, by simp, hall, hlt⟩

/-- A rank that is in an operation which all ranks have begun can finish it. -/
theorem OnScript.exists_finish (h : OnScript prog todo L c) (henacts : Enacts prog todo work bound)
    (hin : ¬c.Outside r) (hL : L = L₁ ++ L₂)
    (hall : ∀ q, (script q L₁).length ≤ (c.begun q).length)
    (hpassed : c.done r < (script r L₁).length) : ∃ c', Step eager prog c c' := by
  obtain ⟨-, op, next, hact, -⟩ := (h.pending r).resolve_left hin
  obtain ⟨vs, hget, -⟩ := h.getElem?_script henacts hact
  -- the interaction is one of those that all ranks have begun
  have hget₁ : (script r L₁)[c.done r]? = some (op, vs) := by
    rwa [hL, script_append, List.getElem?_append_left hpassed] at hget
  obtain ⟨M₁, y, M₂, rfl, hy, hlen⟩ := exists_of_getElem?_script hget₁
  have hbegunY : ∀ q, (script q (M₁ ++ [y])).length ≤ (c.begun q).length := fun q => by
    refine le_trans ?_ (hall q)
    have hsplit : script q (M₁ ++ y :: M₂) = script q (M₁ ++ [y]) ++ script q M₂ := by
      rw [← script_append, List.append_assoc]
      rfl
    rw [hsplit, List.length_append]
    exact Nat.le_add_right _ _
  have hL' : L = M₁ ++ y :: (M₂ ++ L₂) := by rw [hL]; simp
  have hrel : c.Releases eager r (c.done r) op vs := by
    rw [← hlen]
    exact releases_of_begun hL' h.begun hbegunY hy
  exact ⟨_, r, .finish hin hact hrel⟩

/-- A rank that still has operations to begin, and is in none, can make a step. -/
theorem OnScript.exists_step_of_outside (h : OnScript prog todo L c)
    (henacts : Enacts prog todo work bound) (hout : c.Outside r)
    (hlt : c.done r < (script r L).length) : ∃ c', Step eager prog c c' := by
  cases hact : prog r (c.loc r) with
  | compute next => exact ⟨_, r, .compute hout hact⟩
  | perform op next => exact ⟨_, r, .begin hout hact⟩
  | halt =>
    have hnil := congrArg List.length ((h.todo_eq r).symm.trans (henacts.halt hact))
    rw [List.length_drop, List.length_nil] at hnil
    omega

/-- As long as some rank has not come to its end, some rank can make a step. -/
theorem OnScript.exists_step (h : OnScript prog todo L c) (henacts : Enacts prog todo work bound)
    (hr : ¬Halted prog c r) : ∃ c', Step eager prog c c' := by
  rcases all_begun_or c L with hall | ⟨L₁, x, L₂, q, hL, hall, hlt⟩
  · by_cases hout : c.Outside r
    · cases hact : prog r (c.loc r) with
      | compute next => exact ⟨_, r, .compute hout hact⟩
      | perform op next => exact ⟨_, r, .begin hout hact⟩
      | halt => exact absurd ⟨hout, hact⟩ hr
    · obtain ⟨hlen, -⟩ := (h.pending r).resolve_left hout
      have hle : (c.begun r).length ≤ (script r L).length := by
        rw [← length_ops]
        exact (h.begun r).length_le
      exact h.exists_finish henacts hout (List.append_nil L).symm hall (by omega)
  · have hsplit : script q L = script q (L₁ ++ [x]) ++ script q L₂ := by
      rw [hL, ← script_append]
      simp
    have hlen := congrArg List.length hsplit
    rw [List.length_append] at hlen
    by_cases hout : c.Outside q
    · have hdone : c.done q = (c.begun q).length := hout
      exact h.exists_step_of_outside henacts hout (by omega)
    · obtain ⟨hpending, -⟩ := (h.pending q).resolve_left hout
      have hbegunL : (c.begun q).length = (script q L₁).length := by
        have hone : (script q [x]).length ≤ 1 := by
          rw [script_cons, script_nil, List.append_nil]
          cases x.op? q <;> simp
        have hbefore := hall q
        rw [script_append, List.length_append] at hlt
        omega
      exact h.exists_finish henacts hout hL hall (by omega)

/-- If no rank can make a step, all ranks have come to their ends, with their scripts done. -/
theorem Enacts.halted_of_stuck (henacts : Enacts prog todo work bound)
    (hinit : ∀ r, todo r (init r) = script r L) (hc : Reachable eager prog init c)
    (hstuck : Stuck eager prog c) (r : Fin n) : Halted prog c r ∧ c.begun r = ops r L := by
  have hon := Reachable.onScript henacts hinit hc
  have hhalted : Halted prog c r := by
    by_contra hne
    obtain ⟨c', hstep⟩ := hon.exists_step henacts hne
    exact hstuck c' hstep
  obtain ⟨hout, hact⟩ := hhalted
  refine ⟨⟨hout, hact⟩, (hon.begun r).eq_of_length_le ?_⟩
  have hdone : c.done r = (c.begun r).length := hout
  have hnil := congrArg List.length ((hon.todo_eq r).symm.trans (henacts.halt hact))
  rw [List.length_drop, List.length_nil] at hnil
  rw [length_ops]
  omega

/-! ## Every run is finite -/

/-- What rank `r` still has to do: its operations count twice, as they are begun and finished, and
there may be `bound` computations before each. -/
def remaining (L : List (Interaction n β)) (work : σ → ℕ) (bound : ℕ) (c : Config n σ β)
    (r : Fin n) : ℕ :=
  (2 * (script r L).length - ((c.begun r).length + c.done r)) * (bound + 1) + work (c.loc r)

/-- Each step leaves the rank less to do. -/
theorem OnScript.remaining_lt (h : OnScript prog todo L c)
    (henacts : Enacts prog todo work bound) (hstep : StepBy eager prog r c c') :
    remaining L work bound c' r < remaining L work bound c r := by
  have hlen : (c.begun r).length ≤ (script r L).length := by
    rw [← length_ops]
    exact (h.begun r).length_le
  cases hstep with
  | compute hout hact =>
    simp only [remaining, Function.update_self]
    exact Nat.add_lt_add_left (henacts.compute hact).2 _
  | @begin op next hout hact =>
    have hdone : c.done r = (c.begun r).length := hout
    obtain ⟨vs, hget, -⟩ := h.getElem?_script henacts hact
    have hlt : c.done r < (script r L).length := (List.getElem?_eq_some_iff.mp hget).1
    simp only [remaining, Function.update_self, List.length_append, List.length_singleton]
    refine Nat.add_lt_add_right (Nat.mul_lt_mul_of_pos_right ?_ (Nat.succ_pos _)) _
    omega
  | @finish op next vs hin hact hrel =>
    obtain ⟨hpending, -⟩ := (h.pending r).resolve_left hin
    have hwork : work (next vs) ≤ bound := henacts.work_le _
    simp only [remaining, Function.update_self]
    obtain ⟨k, hk⟩ : ∃ k, 2 * (script r L).length - ((c.begun r).length + c.done r) = k + 1 :=
      ⟨_, (Nat.succ_pred_eq_of_pos (by omega)).symm⟩
    have hk' : 2 * (script r L).length - ((c.begun r).length + (c.done r + 1)) = k := by omega
    rw [hk, hk', Nat.add_mul]
    omega

/-- Every step of a run leaves less to do. -/
theorem Enacts.terminates (henacts : Enacts prog todo work bound)
    (hinit : ∀ r, todo r (init r) = script r L) :
    ∃ μ : Config n σ β → ℕ, ∀ c c', Reachable eager prog init c → Step eager prog c c' →
      μ c' < μ c := by
  refine ⟨fun c => ∑ r, remaining L work bound c r, ?_⟩
  rintro c c' hc ⟨r, hstep⟩
  have hon := Reachable.onScript henacts hinit hc
  refine Finset.sum_lt_sum (fun q _ => ?_) ⟨r, Finset.mem_univ r, hon.remaining_lt henacts hstep⟩
  by_cases hq : q = r
  · exact hq ▸ (hon.remaining_lt henacts hstep).le
  · simp only [remaining, hstep.begun_of_ne hq, hstep.done_of_ne hq, hstep.loc_of_ne hq, le_refl]

end Choreography
