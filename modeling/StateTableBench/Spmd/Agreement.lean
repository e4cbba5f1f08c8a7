import StateTableBench.Spmd.Termination

/-!
# No rank is left alone

`NoRankLeftAlone` says that all ranks issue the same sequence of collectives along every run: the
collectives of two ranks agree position by position, nobody enters a collective that a rank which
has come to its end did not enter, and no run gets stuck before all ranks have come to their end.

* Programs that follow a complete plan have this property (`Follows.noRankLeftAlone`), and so
  does a single rank (`noRankLeftAlone_of_subsingleton`).
* Two ranks that part ways after a common plan do not: one of them comes to its end while the
  other enters a collective (`Follows.not_noRankLeftAlone_of_halt`), or they enter collectives of
  different kinds (`Follows.not_noRankLeftAlone_of_kind_ne`).
-/

namespace Spmd

variable {n : ℕ} {σ β ε : Type}

/-- All ranks issue the same sequence of collectives, in every interleaving. -/
structure NoRankLeftAlone (prog : Fin n → σ → Act n σ β ε) (init : Fin n → σ) : Prop where
  same_kind : ∀ c, Reachable prog init c → ∀ (p q : Fin n) (i : ℕ) (x y : Collective n β),
    (c.issued p)[i]? = some x → (c.issued q)[i]? = some y → x.kind = y.kind
  not_skipped : ∀ c, Reachable prog init c → ∀ p q, Halted prog c p →
    (c.issued q).length ≤ (c.issued p).length
  no_deadlock : ∀ c, Reachable prog init c → Stuck prog c → ∀ r, Halted prog c r

variable {prog : Fin n → σ → Act n σ β ε} {init : Fin n → σ} {P : Plan n σ β}
variable {c : Config n σ β ε} {p q r : Fin n}

/-- On a complete plan all ranks issue the same collectives, and nobody waits for ever. -/
theorem Follows.noRankLeftAlone [Inhabited β] (hf : Follows prog init P)
    (hcomplete : Complete prog P) : NoRankLeftAlone prog init where
  same_kind c hc p q i x y hx hy := by
    have honplan := hf.onPlan hc
    have hi : i < P.len := (List.getElem?_eq_some_iff.mp hx).1.trans_le
      (hf.length_issued_le hcomplete hc p)
    rw [(honplan.fits p i x hi hx).kind_eq, (honplan.fits q i y hi hy).kind_eq]
  not_skipped c hc p q hp := by
    have honplan := hf.onPlan hc
    have hle := hf.left_le_len hcomplete hc p
    -- a rank that follows the plan halts only at its end
    have hend : ¬c.left p < P.len := fun hlt =>
      hf.not_halt hlt (honplan.at_left p hle) hp.2
    have hlen : c.left p = (c.issued p).length := hp.1
    have hq := hf.length_issued_le hcomplete hc q
    omega
  no_deadlock c hc hstuck r := (hf.halted_of_stuck hcomplete hc hstuck r).2

/-- A single rank is never stuck before its end. -/
theorem halted_of_stuck_of_subsingleton [Inhabited β] [Subsingleton (Fin n)]
    (hc : Coherent prog c) (hstuck : Stuck prog c) (r : Fin n) : Halted prog c r := by
  rcases hc.pending r with hout | ⟨hin, x, next, hact, hx⟩
  · refine ⟨hout, ?_⟩
    cases hact : prog r (c.loc r) with
    | halt => rfl
    | compute event next => exact absurd ⟨r, .compute hout hact⟩ (hstuck _)
    | barrier next => exact absurd ⟨r, .enter hout (by rw [hact]; rfl)⟩ (hstuck _)
    | bcast root mine next => exact absurd ⟨r, .enter hout (by rw [hact]; rfl)⟩ (hstuck _)
  · have hin' : ¬c.Outside r := by
      unfold Config.Outside
      omega
    -- everybody, that is `r`, has entered the collective
    have hrel : ∃ v, c.Releases (c.left r) x v := by
      cases x with
      | barrier => exact ⟨default, fun q => by rwa [Subsingleton.elim q r]⟩
      | bcast root mine =>
        refine ⟨mine, ?_⟩
        show (c.issued root)[c.left r]? = some (.bcast root mine)
        rwa [Subsingleton.elim root r] at hx ⊢
    obtain ⟨v, hv⟩ := hrel
    exact absurd ⟨r, .leave hin' hact hv⟩ (hstuck _)

/-- A single rank is never left alone. -/
theorem noRankLeftAlone_of_subsingleton [Inhabited β] [Subsingleton (Fin n)] :
    NoRankLeftAlone prog init where
  same_kind c _ p q i x y hx hy := by
    rw [Subsingleton.elim p q] at hx
    rw [Option.some.inj (hx.symm.trans hy)]
  not_skipped c _ p q _ := by rw [Subsingleton.elim p q]
  no_deadlock _ hc hstuck := halted_of_stuck_of_subsingleton hc.coherent hstuck

/-! ## Ranks that part ways -/

/-- Rank `r` gets from one local state to another by computing only. -/
def LocalRun (prog : Fin n → σ → Act n σ β ε) (r : Fin n) : σ → σ → Prop :=
  Relation.ReflTransGen fun s s' => ∃ event, prog r s = .compute event s'

/-- A rank that follows a plan computes its way to an action that is no computation. -/
theorem Follows.exists_localRun (hf : Follows prog init P) {i : ℕ} (hi : i ≤ P.len) {s : σ}
    (hat : P.At r i s) :
    ∃ s', LocalRun prog r s s' ∧ P.At r i s' ∧ ∀ event next, prog r s' ≠ .compute event next := by
  -- induction on the computations left
  induction hwork : P.work s using Nat.strong_induction_on generalizing s with
  | _ m ih =>
    by_cases hact : ∃ event next, prog r s = .compute event next
    · obtain ⟨event, next, hact⟩ := hact
      obtain ⟨hnext, hlt⟩ := hf.compute hi hat hact
      obtain ⟨s', hrun, hs'⟩ := ih _ (hwork ▸ hlt) hnext rfl
      exact ⟨s', Relation.ReflTransGen.head ⟨event, hact⟩ hrun, hs'⟩
    · refine ⟨s, Relation.ReflTransGen.refl, hat, fun event next h => hact ⟨event, next, h⟩⟩

/-- Other ranks do not notice the computations of `r`. -/
theorem Reachable.localRun (hc : Reachable prog init c) (hout : c.Outside r) {s : σ}
    (h : LocalRun prog r (c.loc r) s) :
    ∃ c', Reachable prog init c' ∧ c'.loc = Function.update c.loc r s ∧
      c'.issued = c.issued ∧ c'.left = c.left := by
  induction h with
  | refl => exact ⟨c, hc, (Function.update_eq_self r c.loc).symm, rfl, rfl⟩
  | @tail s s' _ hstep ih =>
    obtain ⟨c', hc', hloc, hissued, hleft⟩ := ih
    obtain ⟨event, hact⟩ := hstep
    have hout' : c'.Outside r := by
      unfold Config.Outside
      rw [hissued, hleft]
      exact hout
    have hs : c'.loc r = s := by rw [hloc, Function.update_self]
    refine ⟨_, hc'.step (.compute hout' (by rw [hs]; exact hact)), ?_, hissued, hleft⟩
    show Function.update c'.loc r s' = _
    rw [hloc, Function.update_idem]

/-- Rank `r` is at the end of the plan, and its next action is no computation. -/
structure AtEnd (prog : Fin n → σ → Act n σ β ε) (P : Plan n σ β) (c : Config n σ β ε)
    (r : Fin n) : Prop where
  outside : c.Outside r
  length_issued : (c.issued r).length = P.len
  at_len : P.At r P.len (c.loc r)
  not_compute : ∀ event next, prog r (c.loc r) ≠ .compute event next

/-- Steps of other ranks leave a rank at the end of the plan. -/
theorem AtEnd.step_of_ne (h : AtEnd prog P c q) {c' : Config n σ β ε} (hstep : StepBy prog r c c')
    (hne : q ≠ r) : AtEnd prog P c' q := by
  obtain ⟨hout, hlen, hat, hstop⟩ := h
  unfold Config.Outside at hout
  rw [← hstep.left_of_ne hne, ← hstep.issued_of_ne hne] at hout
  rw [← hstep.issued_of_ne hne] at hlen
  rw [← hstep.loc_of_ne hne] at hat hstop
  exact ⟨hout, hlen, hat, hstop⟩

/-- A rank at the end of the plan enters a further collective. -/
theorem AtEnd.enter (h : AtEnd prog P c r) {x : Collective n β} {next : β → σ}
    (hact : (prog r (c.loc r)).collective? = some (x, next)) :
    ∃ c', StepBy prog r c c' ∧ (c'.issued r)[P.len]? = some x := by
  refine ⟨_, .enter h.outside hact, ?_⟩
  show (Function.update c.issued r (c.issued r ++ [x]) r)[P.len]? = some x
  rw [Function.update_self, ← h.length_issued, List.getElem?_concat_length]

section PartWays

variable [Inhabited β] (hf : Follows prog init P) (hpq : p ≠ q)

include hf hpq

/-- Two ranks can be brought to the end of the plan and on to their next collective. -/
theorem Follows.exists_atEnd : ∃ c, Reachable prog init c ∧ AtEnd prog P c p ∧
    AtEnd prog P c q := by
  obtain ⟨c, hc, hend⟩ := hf.exists_reachable_left_eq
  have honplan := hf.onPlan hc
  have hat : ∀ r, P.At r P.len (c.loc r) := fun r => by
    have h := honplan.at_left r (hend r).1.le
    rwa [(hend r).1] at h
  have hlen : ∀ r, (c.issued r).length = P.len := fun r => (hend r).2.symm.trans (hend r).1
  obtain ⟨sp, hrunp, hatp, hstopp⟩ := hf.exists_localRun le_rfl (hat p)
  obtain ⟨sq, hrunq, hatq, hstopq⟩ := hf.exists_localRun le_rfl (hat q)
  -- first `p` computes, then `q`
  obtain ⟨c₁, hc₁, hloc₁, hissued₁, hleft₁⟩ := hc.localRun (hend p).2 hrunp
  have hout₁ : ∀ r, c₁.Outside r := by
    intro r
    unfold Config.Outside
    rw [hissued₁, hleft₁]
    exact (hend r).2
  have hlocq : c₁.loc q = c.loc q := by rw [hloc₁, Function.update_of_ne hpq.symm]
  obtain ⟨c₂, hc₂, hloc₂, hissued₂, hleft₂⟩ := hc₁.localRun (hout₁ q) (by rwa [hlocq])
  have hout₂ : ∀ r, c₂.Outside r := by
    intro r
    unfold Config.Outside
    rw [hissued₂, hleft₂]
    exact hout₁ r
  have hlen₂ : ∀ r, (c₂.issued r).length = P.len := by
    intro r
    rw [hissued₂, hissued₁]
    exact hlen r
  have hp₂ : c₂.loc p = sp := by
    rw [hloc₂, Function.update_of_ne hpq, hloc₁, Function.update_self]
  have hq₂ : c₂.loc q = sq := by rw [hloc₂, Function.update_self]
  refine ⟨c₂, hc₂, ⟨hout₂ p, hlen₂ p, ?_, ?_⟩, ⟨hout₂ q, hlen₂ q, ?_, ?_⟩⟩
  · rwa [hp₂]
  · rwa [hp₂]
  · rwa [hq₂]
  · rwa [hq₂]

/-- One rank comes to its end behind the plan, and another one enters a further collective. -/
theorem Follows.not_noRankLeftAlone_of_halt
    (hp : ∀ s, P.At p P.len s → (∀ event next, prog p s ≠ .compute event next) → prog p s = .halt)
    (hq : ∀ s, P.At q P.len s → (∀ event next, prog q s ≠ .compute event next) →
      ∃ x next, (prog q s).collective? = some (x, next)) :
    ¬NoRankLeftAlone prog init := by
  intro halone
  obtain ⟨c, hc, hendp, hendq⟩ := hf.exists_atEnd hpq
  obtain ⟨x, next, hact⟩ := hq _ hendq.at_len hendq.not_compute
  -- `q` enters the collective that `p` skips
  obtain ⟨c', hstep, hx⟩ := hendq.enter hact
  have hendp' := hendp.step_of_ne hstep hpq
  have hhalt : Halted prog c' p := ⟨hendp'.outside, hp _ hendp'.at_len hendp'.not_compute⟩
  have hskip := halone.not_skipped c' (hc.step hstep) p q hhalt
  have hlt : P.len < (c'.issued q).length := (List.getElem?_eq_some_iff.mp hx).1
  rw [hendp'.length_issued] at hskip
  omega

/-- Two ranks enter collectives of different kinds behind the plan. -/
theorem Follows.not_noRankLeftAlone_of_kind_ne {k l : Option (Fin n)} (hkl : k ≠ l)
    (hp : ∀ s, P.At p P.len s → (∀ event next, prog p s ≠ .compute event next) →
      ∃ x next, (prog p s).collective? = some (x, next) ∧ x.kind = k)
    (hq : ∀ s, P.At q P.len s → (∀ event next, prog q s ≠ .compute event next) →
      ∃ x next, (prog q s).collective? = some (x, next) ∧ x.kind = l) :
    ¬NoRankLeftAlone prog init := by
  intro halone
  obtain ⟨c, hc, hendp, hendq⟩ := hf.exists_atEnd hpq
  obtain ⟨x, nextp, hactp, hx⟩ := hp _ hendp.at_len hendp.not_compute
  obtain ⟨y, nextq, hactq, hy⟩ := hq _ hendq.at_len hendq.not_compute
  -- both enter their next collective
  obtain ⟨c₁, hstepp, hxp⟩ := hendp.enter hactp
  have hendq₁ := hendq.step_of_ne hstepp hpq.symm
  rw [← hstepp.loc_of_ne hpq.symm] at hactq
  obtain ⟨c₂, hstepq, hyq⟩ := hendq₁.enter hactq
  have hxp₂ := hstepq.issued_mono hxp
  have hkind := halone.same_kind c₂ ((hc.step hstepp).step hstepq) p q P.len x y hxp₂ hyq
  exact hkl (hx.symm.trans (hkind.trans hy))

end PartWays

end Spmd
