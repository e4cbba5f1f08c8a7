import StateTableBench.ZoomStorage.Ports

/-!
# Connecting devices

`connectToRouter` and `connectToBridge` create a port for each of two devices, and update the first
one with the key of the second one. Each of the three calls of the client may fail.

`allOrNothing_iff`: nothing is undone if a later call fails, and the second port is never linked to
the first one. So the devices are connected, or nothing is changed, only if the first call fails.
-/

open FiniteMap

namespace ZoomStorage

variable {U K M A : Type}

namespace Entity

/-- The key of an object, if it is set. -/
def getId : Entity U K M A → Option U
  | .router object => object.id
  | .bridge object => object.id
  | .routerPort object => object.id
  | .bridgePort object => object.id
  | .message _ => none

/-- Only ports have a peer. -/
def setPeerId (peerId : Option U) : Entity U K M A → Entity U K M A
  | .routerPort object => .routerPort { object with peerId := peerId }
  | .bridgePort object => .bridgePort { object with peerId := peerId }
  | object => object

end Entity

section Service

variable {S : Type → Type → Type} [FiniteMap S] [DecidableEq U] (lib : Library U K M A)

/-- `ZoomStorageService.linkPorts` -/
def linkPorts (failure : Option Exn) (port : Entity U K M A) (peerPortId : Option U)
    (s : Zoom S U K A) : Except Exn (Zoom S U K A) :=
  update lib (fun _ => lib.toProto) failure (port.setPeerId peerPortId) s

/-- `connectToRouter` and `connectToBridge`, which attach the second port with `attach`. The calls
of the client fail as `failures` says. An exception is thrown with what is stored by then. The first
port has the address `random`. -/
def connect (random : M) (failures : ℕ → Option Exn) (randomUUID : ℕ → U) (routerId : U)
    (attach : Option Exn → U → Zoom S U K A → Except Exn (Entity U K M A × Zoom S U K A))
    (s : Zoom S U K A) : Except (Exn × Zoom S U K A) (Zoom S U K A) :=
  match attachNewPortToRouter lib (fun _ => lib.toProto) random (failures 0) (randomUUID 0) routerId
    s with
  | .error e => .error (e, s)
  | .ok (port, s₁) =>
    -- from here on the first port is in the store
    match attach (failures 1) (randomUUID 1) s₁ with
    | .error e => .error (e, s₁)
    | .ok (target, s₂) =>
      -- only the first port gets a peer
      match linkPorts lib (failures 2) port target.getId s₂ with
      | .error e => .error (e, s₂)
      | .ok s₃ => .ok s₃

/-- `ZoomStorageService.connectToRouter`; `randomMac` are the addresses of the two ports. -/
def connectToRouter (randomMac : ℕ → M) (failures : ℕ → Option Exn) (randomUUID : ℕ → U)
    (routerId targetRouterId : U) (s : Zoom S U K A) :
    Except (Exn × Zoom S U K A) (Zoom S U K A) :=
  connect lib (randomMac 0) failures randomUUID routerId (fun failure id =>
    attachNewPortToRouter lib (fun _ => lib.toProto) (randomMac 1) failure id targetRouterId) s

/-- `ZoomStorageService.connectToBridge`; only a port of a router has a random address. -/
def connectToBridge (random : M) (failures : ℕ → Option Exn) (randomUUID : ℕ → U)
    (routerId targetBridgeId : U) (s : Zoom S U K A) :
    Except (Exn × Zoom S U K A) (Zoom S U K A) :=
  connect lib random failures randomUUID routerId
    (fun failure id => attachNewPortToBridge lib (fun _ => lib.toProto) failure id targetBridgeId) s

/-- There are exactly two new ports, which are attached as `first` and `second` say and which are
each other's peers. -/
structure Connected (first second : Topology.Port K A → Prop) (s s' : Zoom S U K A) : Prop where
  routers : s'.routers = s.routers
  networks : s'.networks = s.networks
  ports : ∃ id₁ id₂ p₁ p₂, id₁ ≠ id₂ ∧ get? s.ports id₁ = none ∧ get? s.ports id₂ = none ∧
    get? s'.ports id₁ = some p₁ ∧ get? s'.ports id₂ = some p₂ ∧ first p₁ ∧ second p₂ ∧
    p₁.peerId.map lib.fromProto = some id₂ ∧ p₂.peerId.map lib.fromProto = some id₁ ∧
    ∀ id, id ≠ id₁ → id ≠ id₂ → get? s'.ports id = get? s.ports id

/-- The devices are connected, or an exception is thrown and nothing has changed. -/
def AllOrNothing (first second : Topology.Port K A → Prop) (s : Zoom S U K A) :
    Except (Exn × Zoom S U K A) (Zoom S U K A) → Prop
  | .ok s' => Connected lib first second s s'
  | .error (_, s') => s'.Same s

end Service

/-! ## What is left behind -/

section Links

variable {S : Type → Type → Type} [FiniteMap S] [DecidableEq U] {lib : Library U K M A}
variable {failures : ℕ → Option Exn} {randomUUID : ℕ → U} {routerId : U}
variable {first second : Topology.Port K A → Prop} {s s' : Zoom S U K A} {random : M}

/-- A port that has been created is a change. -/
theorem not_same_of_isSome (id : U) (hs : get? s.ports id = none)
    (hs' : (get? s'.ports id).isSome = true) : ¬s'.Same s := by
  intro hsame
  obtain ⟨p, hp⟩ := Option.isSome_iff_exists.mp hs'
  have hold : get? s.ports id = some p := (hsame id (.port p)).mp hp
  rw [hs] at hold
  cases hold

/-- If the second one of the only ports that may be new has no peer, the devices are not
connected. -/
theorem not_connected (id₁ id₂ : U) {p : Topology.Port K A}
    (honly : ∀ id, (get? s'.ports id).isSome = true → (get? s.ports id).isSome = true ∨ id = id₁ ∨
      id = id₂)
    (hp : get? s'.ports id₂ = some p) (hpeer : p.peerId = none) :
    ¬Connected lib first second s s' := by
  intro hconnected
  obtain ⟨a, b, p₁, p₂, hne, ha, hb, hp₁, hp₂, -, -, hpeer₁, hpeer₂, -⟩ := hconnected.ports
  -- a port with a peer is not the second one
  have hpeer_ne : ∀ id q, get? s'.ports id = some q →
      ∀ id', q.peerId.map lib.fromProto = some id' → id ≠ id₂ := by
    rintro id q hq id' hpeer' rfl
    obtain rfl := Option.some.inj (hp.symm.trans hq)
    rw [hpeer] at hpeer'
    cases hpeer'
  -- so a new port with a peer is the first one, which both would have to be
  have hfirst : ∀ id q, get? s.ports id = none → get? s'.ports id = some q →
      ∀ id', q.peerId.map lib.fromProto = some id' → id = id₁ := by
    intro id q hfree hq id' hpeer'
    rcases honly id (by rw [hq]; rfl) with hold | rfl | rfl
    · rw [hfree] at hold
      cases hold
    · rfl
    · exact absurd rfl (hpeer_ne _ q hq id' hpeer')
  exact hne ((hfirst a p₁ ha hp₁ b hpeer₁).trans (hfirst b p₂ hb hp₂ a hpeer₂).symm)

/-- A link is a write of the message of the port. -/
theorem eq_of_linkPorts {failure : Option Exn} {port : Entity U K M A} {peerPortId : Option U}
    {message : Topology.Port K A} {id : U}
    (h : linkPorts lib failure port peerPortId s = .ok s')
    (hport : (port.setPeerId peerPortId).toProto lib (fun _ => lib.toProto) = .ok (.port message))
    (hid : message.id.map lib.fromProto = some id) :
    s' = { s with ports := put s.ports id message } := by
  obtain ⟨key, hkey, rfl⟩ := Option.map_eq_some_iff.mp hid
  obtain ⟨message', hmessage', hupdate⟩ := Run.bind_eq_ok_iff.mp h
  obtain rfl := Except.ok.inj (hport.symm.trans hmessage')
  obtain ⟨key', hkey', hrest⟩ := Run.bind_eq_ok_iff.mp (attempt_eq_ok_iff.mp hupdate).2
  obtain rfl := Option.some.inj ((nonNull_eq_ok_iff.mp hkey').symm.trans hkey)
  obtain ⟨m, hm, hreturn⟩ := Run.bind_eq_ok_iff.mp hrest
  obtain ⟨-, rfl⟩ := updateIn_eq_ok_iff.mp hm
  cases hreturn
  rfl

section Attach

variable {attach : Option Exn → U → Zoom S U K A → Except Exn (Entity U K M A × Zoom S U K A)}

/-- After the first port has been created the devices are not connected, and there is something left
behind. -/
theorem not_allOrNothing_connect {port : Entity U K M A} {s₁ : Zoom S U K A}
    (hattach : ∀ failure id s port s', attach failure id s = .ok (port, s') →
      get? s.ports id = none ∧ ∃ p, p.peerId = none ∧ s' = { s with ports := put s.ports id p })
    (hfirst : attachNewPortToRouter lib (fun _ => lib.toProto) random (failures 0) (randomUUID 0)
      routerId s = .ok (port, s₁)) :
    ¬AllOrNothing lib first second s
      (connect lib random failures randomUUID routerId attach s) := by
  obtain ⟨-, hfree, hport, hs₁⟩ :=
    (attachNewPortToRouter_eq_ok_iff fun _ => lib.fromProto_toProto).mp hfirst
  have hold : (get? s₁.ports (randomUUID 0)).isSome = true := by
    rw [hs₁, get?_put_self]
    rfl
  rw [connect, hfirst]
  dsimp only
  cases hsecond : attach (failures 1) (randomUUID 1) s₁ with
  -- the second port is not created, and the first one is left behind
  | error e => exact not_same_of_isSome _ hfree hold
  | ok result =>
    obtain ⟨target, s₂⟩ := result
    obtain ⟨hfree₁, p, hpeer, hs₂⟩ := hattach _ _ _ _ _ hsecond
    -- the key of the first port is in use
    have hne : randomUUID 0 ≠ randomUUID 1 := by
      intro heq
      rw [heq, hfree₁] at hold
      cases hold
    dsimp only
    cases hlink : linkPorts lib (failures 2) port target.getId s₂ with
    | error e =>
      -- both ports are left behind
      refine not_same_of_isSome _ hfree ?_
      rw [hs₂, get?_put_of_ne _ _ _ _ hne]
      exact hold
    | ok s₃ =>
      rw [hport] at hlink
      -- the update does not write the second port, so that has no peer
      obtain ⟨m, hs₃⟩ : ∃ m, s₃ = { s₂ with ports := put s₂.ports (randomUUID 0) m } :=
        ⟨_, eq_of_linkPorts hlink rfl (congrArg some (lib.fromProto_toProto _))⟩
      refine not_connected (randomUUID 0) (randomUUID 1) ?_ ?_ hpeer
      · intro id hsome
        simp only [hs₃, hs₂, hs₁, get?_put] at hsome
        split_ifs at hsome with h₀ h₁
        · exact .inr (.inl h₀)
        · exact .inr (.inr h₁)
        · exact .inl hsome
      · rw [hs₃, get?_put_of_ne _ _ _ _ hne.symm, hs₂, get?_put_self]

/-- Only a failure of the first call leaves nothing behind. -/
theorem allOrNothing_connect_iff
    (hattach : ∀ failure id s port s', attach failure id s = .ok (port, s') →
      get? s.ports id = none ∧ ∃ p, p.peerId = none ∧ s' = { s with ports := put s.ports id p }) :
    AllOrNothing lib first second s (connect lib random failures randomUUID routerId attach s) ↔
      failures 0 ≠ none ∨ (get? s.ports (randomUUID 0)).isSome = true := by
  cases hfirst : attachNewPortToRouter lib (fun _ => lib.toProto) random (failures 0) (randomUUID 0)
      routerId s with
  | error e =>
    -- nothing has been written when the first call fails
    refine iff_of_true ?_ ?_
    · rw [connect, hfirst]
      exact fun id message => Iff.rfl
    · by_contra hnot
      rw [not_or, not_not, Option.not_isSome_iff_eq_none] at hnot
      cases hfirst.symm.trans <| (attachNewPortToRouter_eq_ok_iff
        fun _ => lib.fromProto_toProto).mpr ⟨hnot.1, hnot.2, rfl, rfl⟩
  | ok result =>
    obtain ⟨hfailure, hfree, -, -⟩ :=
      (attachNewPortToRouter_eq_ok_iff fun _ => lib.fromProto_toProto).mp hfirst
    exact iff_of_false (not_allOrNothing_connect hattach hfirst) (by simp [hfailure, hfree])

end Attach

/-- Connecting two routers, or a router and a bridge, is all or nothing exactly if the first call
of the client fails: because it is said to fail, or because the key is in use. -/
theorem allOrNothing_iff (lib : Library U K M A) (randomMac : ℕ → M) (failures : ℕ → Option Exn)
    (randomUUID : ℕ → U) (routerId targetId : U) (s : Zoom S U K A) :
    (AllOrNothing lib (·.routerId.map lib.fromProto = some routerId)
        (·.routerId.map lib.fromProto = some targetId) s
        (connectToRouter lib randomMac failures randomUUID routerId targetId s) ↔
      failures 0 ≠ none ∨ (get? s.ports (randomUUID 0)).isSome = true) ∧
    (AllOrNothing lib (·.routerId.map lib.fromProto = some routerId)
        (·.networkId.map lib.fromProto = some targetId) s
        (connectToBridge lib (randomMac 0) failures randomUUID routerId targetId s) ↔
      failures 0 ≠ none ∨ (get? s.ports (randomUUID 0)).isSome = true) := by
  constructor
  · refine allOrNothing_connect_iff fun failure id s port s' h => ?_
    obtain ⟨-, hfree, -, rfl⟩ :=
      (attachNewPortToRouter_eq_ok_iff fun _ => lib.fromProto_toProto).mp h
    exact ⟨hfree, newRouterPort lib (fun _ => lib.toProto) (randomMac 1) id targetId, rfl, rfl⟩
  · refine allOrNothing_connect_iff fun failure id s port s' h => ?_
    obtain ⟨-, hfree, -, rfl⟩ :=
      (attachNewPortToBridge_eq_ok_iff fun _ => lib.fromProto_toProto).mp h
    exact ⟨hfree, newBridgePort lib (fun _ => lib.toProto) id targetId, rfl, rfl⟩

/-- The two keys, one after the other. -/
def twoIds : ℕ → Uuid
  | 0 => .one
  | _ => .two

/-- All calls succeed, and only the first port has a peer; or only the first call succeeds, and its
port is left behind. -/
theorem not_allOrNothing_connectToRouter :
    let s : Zoom AssocMap Uuid Uuid Int32 := ⟨empty, empty, empty⟩
    let result := connectToRouter twoKeys (fun _ => ()) (fun _ => none) twoIds .one .two s
    let failed := connectToBridge twoKeys () (fun i => if i = 1 then some .storage else none) twoIds
      .one .two s
    ((∃ s', result = .ok s' ∧ (get? s'.ports .one).map (·.peerId) = some (some .two) ∧
        (get? s'.ports .two).map (·.peerId) = some none) ∧
      ¬AllOrNothing twoKeys (·.routerId.map twoKeys.fromProto = some .one)
        (·.routerId.map twoKeys.fromProto = some .two) s result) ∧
    (∃ s', failed = .error (.storage, s') ∧ (get? s'.ports .one).isSome = true) ∧
      ¬AllOrNothing twoKeys (·.routerId.map twoKeys.fromProto = some .one)
        (·.networkId.map twoKeys.fromProto = some .two) s failed := by
  refine ⟨⟨⟨_, rfl, by decide, by decide⟩, ?_⟩, ⟨_, rfl, by decide⟩, ?_⟩
  · exact not_allOrNothing_connect (fun failure id s port s' h => by
      obtain ⟨-, hfree, -, rfl⟩ :=
        (attachNewPortToRouter_eq_ok_iff fun _ => twoKeys.fromProto_toProto).mp h
      exact ⟨hfree, newRouterPort twoKeys (fun _ => twoKeys.toProto) () id .two, rfl, rfl⟩) rfl
  · exact not_same_of_isSome Uuid.one rfl rfl

end Links

end ZoomStorage
