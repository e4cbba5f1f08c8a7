import StateTableBench.ZoomStorage.Service

/-!
# Ports of devices

`attachNewPortToRouter` and `attachNewPortToBridge` create the ports of a device, and
`getPortsFromRouter` and `getPortsFromBridge` should find them. These compare the keys with `==`,
which is the identity of objects, and one of the two has just been allocated.

`findsPorts_iff`: so no port is ever found, and the result is right only if there are none.
-/

open FiniteMap

namespace ZoomStorage

variable {U K M A : Type}

/-- A message object: where it is, and what it contains. -/
structure Ref (K : Type) where
  address : ℕ
  message : K

/-- The converters for message objects, the next of which is allocated at `heap`. -/
def Library.refs (lib : Library U K M A) (heap : ℕ) : Library U (Ref K) M A :=
  { lib with
    toProto := fun uuid => ⟨heap, lib.toProto uuid⟩
    fromProto := fun key => lib.fromProto key.message
    fromProto_toProto := lib.fromProto_toProto }

/-- The message objects for the fields of a message are allocated one after the other. -/
def Library.allocate (lib : Library U K M A) (heap i : ℕ) : U → Ref K :=
  (lib.refs (heap + i)).toProto

section Service

variable {S : Type → Type → Type} [FiniteMap S] [DecidableEq U]

/-- `attachNewPortToRouter` and `attachNewPortToBridge` for a new port. -/
def attachNewPort (lib : Library U K M A) (new : ℕ → U → K) (failure : Option Exn) (id : U)
    (port : Entity U K M A) (s : Zoom S U K A) : Except Exn (Entity U K M A × Zoom S U K A) :=
  match create lib new failure id port s with
  | .error .referenceConflict => .error .storage
  | result => result

/-- `ZoomStorageService.attachNewPortToRouter`; `random` is the address of the new port. -/
def attachNewPortToRouter (lib : Library U K M A) (new : ℕ → U → K) (random : M)
    (failure : Option Exn) (id routerId : U) (s : Zoom S U K A) :
    Except Exn (Entity U K M A × Zoom S U K A) :=
  attachNewPort lib new failure id
    (.routerPort { RouterPort.init lib random with deviceId := some routerId }) s

/-- `ZoomStorageService.attachNewPortToBridge` -/
def attachNewPortToBridge (lib : Library U K M A) (new : ℕ → U → K) (failure : Option Exn)
    (id bridgeId : U) (s : Zoom S U K A) : Except Exn (Entity U K M A × Zoom S U K A) :=
  attachNewPort lib new failure id
    (.bridgePort { adminStateUp := lib.portUp, deviceId := some bridgeId }) s

variable (lib : Library U K M A) (heap : ℕ)

/-- The loop of `getPortsFromRouter` and `getPortsFromBridge`. -/
def getPortsFrom {P : Type} (device : Topology.Port (Ref K) A → Option (Ref K))
    (fromProto : Topology.Port (Ref K) A → Except Exn P) (deviceId : U)
    (s : Zoom S U (Ref K) A) : Except Exn (List P) :=
  let id := (lib.refs heap).toProto deviceId
  let src := getAllAsList s.ports
  -- `==` compares the references, not the keys
  let list := src.filter fun p => (device p).any fun key => key.address == id.address
  match list.mapM fromProto with
  | .ok list => .ok list
  | .error _ => .error .storage

/-- `ZoomStorageService.getPortsFromRouter`; `random` is the address of the new port for a
message. -/
def getPortsFromRouter (random : Topology.Port (Ref K) A → M) (routerId : U)
    (s : Zoom S U (Ref K) A) : Except Exn (List (RouterPort U M)) :=
  getPortsFrom lib heap (·.routerId) (fun p => RouterPort.fromProto (lib.refs heap) (random p) p)
    routerId s

/-- `ZoomStorageService.getPortsFromBridge` -/
def getPortsFromBridge (bridgeId : U) (s : Zoom S U (Ref K) A) : Except Exn (List (BridgePort U)) :=
  getPortsFrom lib heap (·.networkId) (fun p => .ok (BridgePort.fromProto (lib.refs heap) p))
    bridgeId s

end Service

/-! ## Attaching a port -/

section Attach

variable {S : Type → Type → Type} [FiniteMap S] [DecidableEq U]
variable {lib : Library U K M A} {new : ℕ → U → K} {failure : Option Exn} {id deviceId : U}
variable {s s' : Zoom S U K A} {port port' : Entity U K M A} {message : Topology.Port K A}
variable {random : M}

/-- The message of a new port of a router. -/
def newRouterPort (lib : Library U K M A) (new : ℕ → U → K) (random : M) (id routerId : U) :
    Topology.Port K A where
  id := some (new 0 id)
  adminStateUp := some lib.portUp
  tunnelKey := some (0 : Int32).toInt64
  routerId := some (new 6 routerId)
  portMac := some (lib.macToString random)
  portAddress := some (lib.ipToProto 0)

/-- The message of a new port of a bridge. -/
def newBridgePort (lib : Library U K M A) (new : ℕ → U → K) (id bridgeId : U) :
    Topology.Port K A where
  id := some (new 0 id)
  adminStateUp := some lib.portUp
  tunnelKey := some (0 : Int32).toInt64
  networkId := some (new 6 bridgeId)

/-- A port is created under a key at which there is none. -/
theorem createPort_eq_ok_iff (hid : message.id.map lib.fromProto = some id) :
    s.create lib failure (.port message) = .ok s' ↔
      failure = none ∧ get? s.ports id = none ∧
        s' = { s with ports := put s.ports id message } := by
  obtain ⟨key, hkey, rfl⟩ := Option.map_eq_some_iff.mp hid
  rw [Zoom.create, attempt_eq_ok_iff, Zoom.write]
  refine and_congr_right fun _ => ?_
  constructor
  · intro h
    obtain ⟨key', hkey', hrest⟩ := Run.bind_eq_ok_iff.mp h
    obtain rfl := Option.some.inj ((nonNull_eq_ok_iff.mp hkey').symm.trans hkey)
    obtain ⟨m, hm, hreturn⟩ := Run.bind_eq_ok_iff.mp hrest
    obtain ⟨hfree, rfl⟩ := createIn_eq_ok_iff.mp hm
    cases hreturn
    exact ⟨hfree, rfl⟩
  · rintro ⟨hfree, rfl⟩
    exact Run.bind_eq_ok_iff.mpr ⟨key, nonNull_eq_ok_iff.mpr hkey, Run.bind_eq_ok_iff.mpr
      ⟨_, createIn_eq_ok_iff.mpr ⟨hfree, rfl⟩, rfl⟩⟩

/-- When a new port is stored, and what is stored then. -/
theorem attachNewPort_eq_ok_iff (hport : (port.setId id).toProto lib new = .ok (.port message))
    (hid : message.id.map lib.fromProto = some id) :
    attachNewPort lib new failure id port s = .ok (port', s') ↔
      failure = none ∧ get? s.ports id = none ∧ port' = port.setId id ∧
        s' = { s with ports := put s.ports id message } := by
  -- an exception is passed on or wrapped
  have hcreate : attachNewPort lib new failure id port s = .ok (port', s') ↔
      create lib new failure id port s = .ok (port', s') := by
    unfold attachNewPort
    split
    · next h => simp [h]
    · exact Iff.rfl
  rw [hcreate, create_eq_ok_iff]
  constructor
  · rintro ⟨message', hmessage', hwrite, rfl⟩
    obtain rfl := Except.ok.inj (hport.symm.trans hmessage')
    obtain ⟨hfailure, hfree, rfl⟩ := (createPort_eq_ok_iff hid).mp hwrite
    exact ⟨hfailure, hfree, rfl, rfl⟩
  · rintro ⟨hfailure, hfree, rfl, rfl⟩
    exact ⟨_, hport, (createPort_eq_ok_iff hid).mpr ⟨hfailure, hfree, rfl⟩, rfl⟩

/-- A new router port needs a fresh id and a write that succeeds. -/
theorem attachNewPortToRouter_eq_ok_iff (hnew : ∀ i uuid, lib.fromProto (new i uuid) = uuid) :
    attachNewPortToRouter lib new random failure id deviceId s = .ok (port', s') ↔
      failure = none ∧ get? s.ports id = none ∧
        port' = .routerPort
          { RouterPort.init lib random with id := some id, deviceId := some deviceId } ∧
        s' = { s with ports := put s.ports id (newRouterPort lib new random id deviceId) } :=
  attachNewPort_eq_ok_iff rfl (congrArg some (hnew 0 id))

/-- A new bridge port needs a fresh id and a write that succeeds. -/
theorem attachNewPortToBridge_eq_ok_iff (hnew : ∀ i uuid, lib.fromProto (new i uuid) = uuid) :
    attachNewPortToBridge lib new failure id deviceId s = .ok (port', s') ↔
      failure = none ∧ get? s.ports id = none ∧
        port' = .bridgePort
          { id := some id, adminStateUp := lib.portUp, deviceId := some deviceId } ∧
        s' = { s with ports := put s.ports id (newBridgePort lib new id deviceId) } :=
  attachNewPort_eq_ok_iff rfl (congrArg some (hnew 0 id))

end Attach

/-! ## Finding the ports of a device -/

section FindsPorts

variable {S : Type → Type → Type} [FiniteMap S] [DecidableEq U]
variable {lib : Library U K M A} {heap : ℕ} {s : Zoom S U (Ref K) A} {deviceId : U}

/-- The ports in the store that have a device. -/
def portsOf (lib : Library U K M A) (device : Topology.Port (Ref K) A → Option (Ref K))
    (deviceId : U) (s : Zoom S U (Ref K) A) : List (Topology.Port (Ref K) A) :=
  (getAllAsList s.ports).filter fun p =>
    (device p).map (fun key => lib.fromProto key.message) = some deviceId

/-- The result is the list of these ports, in any order. -/
def FindsPorts {P : Type} (fromProto : Topology.Port (Ref K) A → Except Exn P)
    (ports : List (Topology.Port (Ref K) A)) (result : Except Exn (List P)) : Prop :=
  ∃ list decoded, result = .ok list ∧ ports.mapM fromProto = .ok decoded ∧ list.Perm decoded

/-- The devices of all ports in the store have been allocated before `heap`. -/
def Allocated (heap : ℕ) (s : Zoom S U (Ref K) A) : Prop :=
  ∀ p ∈ getAllAsList s.ports, (∀ key, p.routerId = some key → key.address < heap) ∧
    ∀ key, p.networkId = some key → key.address < heap

theorem eq_nil_of_mapM_eq_nil {α β : Type} {f : α → Except Exn β} {xs : List α}
    (h : xs.mapM f = .ok []) : xs = [] := by
  cases xs with
  | nil => rfl
  | cons x xs =>
    rw [List.mapM_cons] at h
    obtain ⟨y, -, hrest⟩ := Run.bind_eq_ok_iff.mp h
    obtain ⟨ys, -, hreturn⟩ := Run.bind_eq_ok_iff.mp hrest
    cases hreturn

omit [DecidableEq U] in
/-- The key that is compared with is not any of those in the store. -/
theorem getPortsFrom_eq_nil {P : Type} {device : Topology.Port (Ref K) A → Option (Ref K)}
    {fromProto : Topology.Port (Ref K) A → Except Exn P}
    (hs : ∀ p ∈ getAllAsList s.ports, ∀ key, device p = some key → key.address < heap) :
    getPortsFrom lib heap device fromProto deviceId s = .ok [] := by
  have hnone : (getAllAsList s.ports).filter (fun p => (device p).any fun key =>
      key.address == ((lib.refs heap).toProto deviceId).address) = [] := by
    -- an object in the store is older than the one that is compared with it
    rw [List.filter_eq_nil_iff]
    intro p hp
    cases hkey : device p with
    | none => simp
    | some key => simp [Library.refs, (hs p hp key hkey).ne]
  rw [getPortsFrom, hnone]
  rfl

/-- The empty list is right only if there are no ports. -/
theorem findsPorts_nil_iff {P : Type} {fromProto : Topology.Port (Ref K) A → Except Exn P}
    {ports : List (Topology.Port (Ref K) A)} :
    FindsPorts fromProto ports (.ok []) ↔ ports = [] := by
  constructor
  · rintro ⟨list, decoded, hlist, hdecoded, hperm⟩
    cases hlist
    exact eq_nil_of_mapM_eq_nil (hperm.nil_eq ▸ hdecoded)
  · rintro rfl
    exact ⟨[], [], rfl, rfl, .nil⟩

/-- The ports of a router, or of a bridge, are returned exactly if there are none. -/
theorem findsPorts_iff (lib : Library U K M A) (random : Topology.Port (Ref K) A → M) (heap : ℕ)
    (s : Zoom S U (Ref K) A) (hs : Allocated heap s) (deviceId : U) :
    (FindsPorts (fun p => RouterPort.fromProto (lib.refs heap) (random p) p)
        (portsOf lib (·.routerId) deviceId s) (getPortsFromRouter lib heap random deviceId s) ↔
          portsOf lib (·.routerId) deviceId s = []) ∧
      (FindsPorts (fun p => .ok (BridgePort.fromProto (lib.refs heap) p))
        (portsOf lib (·.networkId) deviceId s) (getPortsFromBridge lib heap deviceId s) ↔
          portsOf lib (·.networkId) deviceId s = []) := by
  have hrouter : getPortsFromRouter lib heap random deviceId s = .ok [] :=
    getPortsFrom_eq_nil fun p hp => (hs p hp).1
  have hbridge : getPortsFromBridge lib heap deviceId s = .ok [] :=
    getPortsFrom_eq_nil fun p hp => (hs p hp).2
  rw [hrouter, hbridge]
  exact ⟨findsPorts_nil_iff, findsPorts_nil_iff⟩

/-- The new port is allocated like all others. -/
theorem Allocated.put (id : U) {p : Topology.Port (Ref K) A} {heap' : ℕ} (hs : Allocated heap s)
    (hle : heap ≤ heap') (hrouter : ∀ key, p.routerId = some key → key.address < heap')
    (hnetwork : ∀ key, p.networkId = some key → key.address < heap') :
    Allocated heap' { s with ports := FiniteMap.put s.ports id p } := by
  intro q hq
  -- a port in the store is the new one, or it was there before
  obtain ⟨⟨id', q⟩, hmem, rfl⟩ := List.mem_map.mp hq
  have hget := mem_entries.mp hmem
  rw [get?_put] at hget
  split at hget
  · cases hget
    exact ⟨hrouter, hnetwork⟩
  · have hold := hs q (List.mem_map_of_mem (f := Prod.snd) (mem_entries.mpr hget))
    exact ⟨fun key hkey => (hold.1 key hkey).trans_le hle,
      fun key hkey => (hold.2 key hkey).trans_le hle⟩

/-- The store with one port, which is attached to the router `one`. -/
def oneRouterPort : Zoom AssocMap Uuid (Ref Uuid) Int32 where
  routers := FiniteMap.empty
  networks := FiniteMap.empty
  ports := FiniteMap.put FiniteMap.empty .one
    (newRouterPort (twoKeys.refs 0) (twoKeys.allocate 0) () .one .one)

theorem allocated_oneRouterPort : Allocated 7 oneRouterPort :=
  have hempty : Allocated 0
      (⟨FiniteMap.empty, FiniteMap.empty, FiniteMap.empty⟩ : Zoom AssocMap Uuid (Ref Uuid) Int32) :=
    fun p hp => nomatch hp
  hempty.put .one (Nat.zero_le 7) (by rintro key ⟨⟩; decide) (by rintro key ⟨⟩)

/-- The router `two` has no ports, and none are found. -/
theorem findsPorts_two :
    FindsPorts (RouterPort.fromProto (twoKeys.refs 7) ())
      (portsOf twoKeys (·.routerId) .two oneRouterPort)
      (getPortsFromRouter twoKeys 7 (fun _ => ()) .two oneRouterPort) :=
  (findsPorts_iff twoKeys (fun _ => ()) 7 oneRouterPort allocated_oneRouterPort .two).1.mpr
    (by decide)

/-- The port that has been attached to the router `one` is not found. -/
theorem not_findsPorts_one :
    attachNewPortToRouter (twoKeys.refs 0) (twoKeys.allocate 0) () none .one .one
        ⟨FiniteMap.empty, FiniteMap.empty, FiniteMap.empty⟩ =
      .ok (.routerPort { RouterPort.init twoKeys () with id := some .one, deviceId := some .one },
        oneRouterPort) ∧
      portsOf twoKeys (·.routerId) .one oneRouterPort =
        [newRouterPort (twoKeys.refs 0) (twoKeys.allocate 0) () .one .one] ∧
      ¬FindsPorts (RouterPort.fromProto (twoKeys.refs 7) ())
        (portsOf twoKeys (·.routerId) .one oneRouterPort)
        (getPortsFromRouter twoKeys 7 (fun _ => ()) .one oneRouterPort) := by
  refine ⟨rfl, rfl, ?_⟩
  rintro ⟨list, decoded, hlist, hdecoded, hperm⟩
  cases hlist
  cases hdecoded
  exact absurd hperm.length_eq (by decide)

end FindsPorts

end ZoomStorage
