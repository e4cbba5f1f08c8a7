import StateTableBench.Collections.FiniteMap
import StateTableBench.ZoomStorage.Conversions

/-!
# The operations of the Zoom storage

`ZoomStorageService` gets an object or a class, and finds out with a chain of tests which kind of
message it has to store or to read. Ports of routers and of bridges are stored as the same kind of
message.

`writeBack_iff`: what has been created can be read with its class and written back, and the messages
are what they were, unless it is a port of a router without an address: this is read with a random
one.
-/

open FiniteMap

namespace ZoomStorage

/-- The classes that are passed to the service. -/
inductive Class
  | object
  | router
  | bridge
  | port
  | routerPort
  | bridgePort
deriving DecidableEq

/-- `clazz.isAssignableFrom(other)` -/
def Class.isAssignableFrom : Class → Class → Bool
  | .object, _ => true
  | .port, .routerPort => true
  | .port, .bridgePort => true
  | clazz, other => decide (clazz = other)

variable {U K M A : Type}

/-- The messages that are stored. -/
inductive Message (K A : Type)
  | router (message : Topology.Router K)
  | network (message : Topology.Network K)
  | port (message : Topology.Port K A)

/-- The objects that are passed to the service or returned by it. -/
inductive Entity (U K M A : Type)
  | router (object : Router U)
  | bridge (object : Bridge U)
  | routerPort (object : RouterPort U M)
  | bridgePort (object : BridgePort U)
  | message (object : Message K A)

namespace Entity

/-- The class of an object. Messages do not extend any other class of the list. -/
def getClass : Entity U K M A → Class
  | .router _ => .router
  | .bridge _ => .bridge
  | .routerPort _ => .routerPort
  | .bridgePort _ => .bridgePort
  | .message _ => .object

def setId (id : U) : Entity U K M A → Entity U K M A
  | .router object => .router { object with id := some id }
  | .bridge object => .bridge { object with id := some id }
  | .routerPort object => .routerPort { object with id := some id }
  | .bridgePort object => .bridgePort { object with id := some id }
  | .message object => .message object

/-- The conversion that `create` and `update` select. -/
def toProto (lib : Library U K M A) (new : ℕ → U → K) :
    Entity U K M A → Except Exn (Message K A)
  | .router object => do return .router (← object.toProto new)
  | .bridge object => do return .network (← object.toProto new)
  | .routerPort object => do return .port (← object.toProto lib new)
  | .bridgePort object => do return .port (← object.toProto lib new)
  | .message _ => .error .unsupportedOperation

/-- `toProto(fromProto(toProto(object)))`, with the conversions for the class of the object. -/
def again (lib : Library U K M A) (new : ℕ → U → K) (random : M) :
    Entity U K M A → Except Exn (Message K A)
  | .router object => do
    let message ← object.toProto new
    (router (.fromProto lib message) : Entity U K M A).toProto lib new
  | .bridge object => do
    let message ← object.toProto new
    (bridge (.fromProto lib message) : Entity U K M A).toProto lib new
  | .routerPort object => do
    let message ← object.toProto lib new
    (routerPort (← RouterPort.fromProto lib random message)).toProto lib new
  | .bridgePort object => do
    let message ← object.toProto lib new
    (bridgePort (.fromProto lib message) : Entity U K M A).toProto lib new
  | .message _ => .error .unsupportedOperation

/-- The object is not a port of a router without an address. -/
def HasHwAddr : Entity U K M A → Prop
  | .routerPort object => object.hwAddr.isSome = true
  | _ => True

/-- A port of a router without an address gets one. -/
def withHwAddr (random : M) : Entity U K M A → Entity U K M A
  | .routerPort object => .routerPort { object with hwAddr := object.hwAddr.or (some random) }
  | object => object

end Entity

/-! ## The client -/

/-- What is stored by the `zoomClient`: the messages of each kind by their keys. -/
structure Zoom (S : Type → Type → Type) (U K A : Type) where
  routers : S U (Topology.Router K)
  networks : S U (Topology.Network K)
  ports : S U (Topology.Port K A)

namespace Zoom

variable {S : Type → Type → Type} [FiniteMap S] [DecidableEq U] {ν : Type}

/-- A call that fails throws and changes nothing. -/
def attempt {α : Type} (failure : Option Exn) (x : Except Exn α) : Except Exn α :=
  match failure with
  | some e => .error e
  | none => x

def createIn (id : U) (message : ν) (m : S U ν) : Except Exn (S U ν) :=
  if (get? m id).isSome then .error .objectExists else .ok (put m id message)

def updateIn (id : U) (message : ν) (m : S U ν) : Except Exn (S U ν) :=
  if (get? m id).isSome then .ok (put m id message) else .error .notFound

def deleteIn (id : U) (m : S U ν) : Except Exn (S U ν) :=
  if (get? m id).isSome then .ok (remove m id) else .error .notFound

def getIn (id : U) (m : S U ν) : Except Exn ν :=
  match get? m id with
  | some message => .ok message
  | none => .error .notFound

/-- A write of a message to the messages of its kind. -/
def write (fromProto : K → U) (op : ∀ ν : Type, U → ν → S U ν → Except Exn (S U ν))
    (message : Message K A) (s : Zoom S U K A) : Except Exn (Zoom S U K A) :=
  match message with
  | .router message => do
    let id ← nonNull message.id
    return { s with routers := ← op _ (fromProto id) message s.routers }
  | .network message => do
    let id ← nonNull message.id
    return { s with networks := ← op _ (fromProto id) message s.networks }
  | .port message => do
    let id ← nonNull message.id
    return { s with ports := ← op _ (fromProto id) message s.ports }

def create (lib : Library U K M A) (failure : Option Exn) (message : Message K A)
    (s : Zoom S U K A) : Except Exn (Zoom S U K A) :=
  attempt failure (write lib.fromProto (fun _ => createIn) message s)

def update (lib : Library U K M A) (failure : Option Exn) (message : Message K A)
    (s : Zoom S U K A) : Except Exn (Zoom S U K A) :=
  attempt failure (write lib.fromProto (fun _ => updateIn) message s)

end Zoom

/-! ## The service -/

section Service

variable {S : Type → Type → Type} [FiniteMap S] [DecidableEq U]
variable (lib : Library U K M A) (new : ℕ → U → K)

/-- `ZoomStorageService.create`; `id` is the value of `UUID.randomUUID()`. -/
def create (failure : Option Exn) (id : U) (object : Entity U K M A) (s : Zoom S U K A) :
    Except Exn (Entity U K M A × Zoom S U K A) := do
  let object := object.setId id
  let message ← object.toProto lib new
  match s.create lib failure message with
  | .ok s => return (object, s)
  -- this exception is wrapped, and all others are thrown as they are
  | .error .referenceConflict => .error .storage
  | .error e => .error e

/-- `ZoomStorageService.update` -/
def update (failure : Option Exn) (object : Entity U K M A) (s : Zoom S U K A) :
    Except Exn (Zoom S U K A) := do
  let message ← object.toProto lib new
  s.update lib failure message

/-- `ZoomStorageService.delete` -/
def delete (failure : Option Exn) (clazz : Class) (id : U) (s : Zoom S U K A) :
    Except Exn (Zoom S U K A) :=
  if Class.router.isAssignableFrom clazz then
    Zoom.attempt failure do return { s with routers := ← Zoom.deleteIn id s.routers }
  else if Class.bridge.isAssignableFrom clazz then
    Zoom.attempt failure do return { s with networks := ← Zoom.deleteIn id s.networks }
  -- the class `Port` and both of its subclasses
  else if Class.port.isAssignableFrom clazz then
    Zoom.attempt failure do return { s with ports := ← Zoom.deleteIn id s.ports }
  else .error .unsupportedOperation

/-- The exceptions that `get` and `getAll` throw. -/
def wrap {α : Type} : Except Exn α → Except Exn α
  | .ok x => .ok x
  | .error .unsupportedOperation => .error .unsupportedOperation
  | .error _ => .error .storage

/-- A port as `get` and `getAll` return it if they are not told its class. -/
def fromProtoPort (random : M) (p : Topology.Port K A) : Except Exn (Entity U K M A) :=
  if p.networkId.isSome then .ok (.bridgePort (.fromProto lib p))
  else do return .routerPort (← RouterPort.fromProto lib random p)

/-- `ZoomStorageService.get`; `random` is the address of a new port of a router. -/
def get (random : M) (clazz : Class) (id : U) (s : Zoom S U K A) : Except Exn (Entity U K M A) :=
  wrap <|
    if Class.router.isAssignableFrom clazz then do
      return .router (.fromProto lib (← Zoom.getIn id s.routers))
    else if Class.bridge.isAssignableFrom clazz then do
      return .bridge (.fromProto lib (← Zoom.getIn id s.networks))
    else if Class.routerPort.isAssignableFrom clazz then do
      return .routerPort (← RouterPort.fromProto lib random (← Zoom.getIn id s.ports))
    else if Class.bridgePort.isAssignableFrom clazz then do
      return .bridgePort (.fromProto lib (← Zoom.getIn id s.ports))
    -- only the class `Port` gets here
    else if Class.port.isAssignableFrom clazz then do
      fromProtoPort lib random (← Zoom.getIn id s.ports)
    else .error .unsupportedOperation

/-- `getAllAsList`: all messages of a kind. -/
def getAllAsList {ν : Type} (m : S U ν) : List ν := (entries m).map Prod.snd

/-- `ZoomStorageService.getAll`; `random` is the address of the new port for a message. -/
def getAll (random : Topology.Port K A → M) (clazz : Class) (s : Zoom S U K A) :
    Except Exn (List (Entity U K M A)) :=
  wrap <|
    -- the casts to `List<T>` are not checked
    if Class.router.isAssignableFrom clazz then
      .ok ((getAllAsList s.routers).map fun message => .message (.router message))
    else if Class.bridge.isAssignableFrom clazz then
      .ok ((getAllAsList s.networks).map fun message => .message (.network message))
    -- the test is the other way round than those of `delete` and `get`
    else if clazz.isAssignableFrom .port then
      (getAllAsList s.ports).mapM fun p => fromProtoPort lib (random p) p
    else .error .unsupportedOperation

end Service

/-! ## Reading and writing back -/

section WriteBack

variable {S : Type → Type → Type} [FiniteMap S] [DecidableEq U]

def Message.id : Message K A → Option K
  | .router message => message.id
  | .network message => message.id
  | .port message => message.id

/-- A message is stored under a key. -/
def Zoom.Holds (s : Zoom S U K A) (id : U) : Message K A → Prop
  | .router message => get? s.routers id = some message
  | .network message => get? s.networks id = some message
  | .port message => get? s.ports id = some message

/-- The same messages are stored under the same keys. -/
def Zoom.Same (s s' : Zoom S U K A) : Prop :=
  ∀ id message, s.Holds id message ↔ s'.Holds id message

variable {lib : Library U K M A} {new : ℕ → U → K} {id : U} {s s' : Zoom S U K A}
variable {message : Message K A} {random : M}

/-- An object is created under an unused id. -/
theorem createIn_eq_ok_iff {ν : Type} {x : ν} {m m' : S U ν} :
    Zoom.createIn id x m = .ok m' ↔ get? m id = none ∧ m' = put m id x := by
  unfold Zoom.createIn
  cases get? m id <;> simp [eq_comm]

/-- An object is updated under an id in use. -/
theorem updateIn_eq_ok_iff {ν : Type} {x : ν} {m m' : S U ν} :
    Zoom.updateIn id x m = .ok m' ↔ (∃ y, get? m id = some y) ∧ m' = put m id x := by
  unfold Zoom.updateIn
  cases get? m id <;> simp [eq_comm]

omit [FiniteMap S] [DecidableEq U] in
/-- A write succeeds if the storage does not fail and the operation does not throw. -/
theorem attempt_eq_ok_iff {α : Type} {failure : Option Exn} {x : Except Exn α} {y : α} :
    Zoom.attempt failure x = .ok y ↔ failure = none ∧ x = .ok y := by
  cases failure <;> simp [Zoom.attempt]

/-- An object is read if it is stored. -/
theorem getIn_eq_ok_iff {ν : Type} {x : ν} {m : S U ν} :
    Zoom.getIn id m = .ok x ↔ get? m id = some x := by
  unfold Zoom.getIn
  cases get? m id <;> simp

theorem get_router : get lib random .router id s =
    wrap do return .router (.fromProto lib (← Zoom.getIn id s.routers)) := rfl

theorem get_bridge : get lib random .bridge id s =
    wrap do return .bridge (.fromProto lib (← Zoom.getIn id s.networks)) := rfl

theorem get_routerPort : get lib random .routerPort id s =
    wrap do return .routerPort (← RouterPort.fromProto lib random (← Zoom.getIn id s.ports)) := rfl

theorem get_bridgePort : get lib random .bridgePort id s =
    wrap do return .bridgePort (.fromProto lib (← Zoom.getIn id s.ports)) := rfl

/-- What has been created is stored. -/
theorem Zoom.holds_create {failure : Option Exn} (hid : message.id.map lib.fromProto = some id)
    (h : s.create lib failure message = .ok s') : s'.Holds id message := by
  obtain ⟨rfl, h⟩ := attempt_eq_ok_iff.mp h
  obtain ⟨key, hkey, rfl⟩ := Option.map_eq_some_iff.mp hid
  cases message with
  | router message | network message | port message =>
    obtain ⟨key', hkey', hrest⟩ := Run.bind_eq_ok_iff.mp h
    -- each kind is stored under the key of its message
    obtain rfl := Option.some.inj ((nonNull_eq_ok_iff.mp hkey').symm.trans hkey)
    obtain ⟨m, hm, hreturn⟩ := Run.bind_eq_ok_iff.mp hrest
    cases hreturn
    obtain ⟨-, rfl⟩ := createIn_eq_ok_iff.mp hm
    exact get?_put_self _ _ _

/-- A message that is stored may be written again, and nothing changes. -/
theorem Zoom.exists_update_self (hid : message.id.map lib.fromProto = some id)
    (h : s.Holds id message) :
    ∃ s', s.update lib none message = .ok s' ∧ s'.Same s := by
  obtain ⟨key, hkey, rfl⟩ := Option.map_eq_some_iff.mp hid
  cases message with
  | router message | network message | port message =>
    refine ⟨_, Run.bind_eq_ok_iff.mpr ⟨key, nonNull_eq_ok_iff.mpr hkey, Run.bind_eq_ok_iff.mpr
      ⟨_, updateIn_eq_ok_iff.mpr ⟨⟨message, h⟩, rfl⟩, rfl⟩⟩, fun id' message' => ?_⟩
    -- the messages of the other kinds are not touched
    cases message' <;> first
      | exact Iff.rfl
      | simp only [Holds] at h ⊢
        rw [get?_put]
        split
        · next heq => rw [heq, h]
        · exact Iff.rfl

/-- Another message may be written over that of a port, and then there is a change. -/
theorem Zoom.exists_update_port {p p' : Topology.Port K A}
    (hid : p'.id.map lib.fromProto = some id) (h : get? s.ports id = some p) (hne : p' ≠ p) :
    ∃ s', s.update lib none (.port p') = .ok s' ∧ ¬s'.Same s := by
  obtain ⟨key, hkey, rfl⟩ := Option.map_eq_some_iff.mp hid
  refine ⟨_, Run.bind_eq_ok_iff.mpr ⟨key, nonNull_eq_ok_iff.mpr hkey, Run.bind_eq_ok_iff.mpr
    ⟨_, updateIn_eq_ok_iff.mpr ⟨⟨p, h⟩, rfl⟩, rfl⟩⟩, fun hsame => ?_⟩
  have hold : get? s.ports (lib.fromProto key) = some p' :=
    (hsame _ (.port p')).mp (get?_put_self _ _ _)
  exact hne (Option.some.inj (hold.symm.trans h))

omit [FiniteMap S] [DecidableEq U] in
/-- With the random address a port of a router has another message, if it had none. -/
theorem Entity.toProto_withHwAddr (random : M) {object : Entity U K M A}
    (h : object.toProto lib new = .ok message) :
    ∃ message', (object.withHwAddr random).toProto lib new = .ok message' ∧
      (message' = message ↔ object.HasHwAddr) := by
  cases object with
  | routerPort object =>
    obtain ⟨m, hm, hreturn⟩ := Run.bind_eq_ok_iff.mp h
    cases hreturn
    obtain ⟨p, hp, hmessage⟩ := Run.bind_eq_ok_iff.mp hm
    cases hmessage
    refine ⟨.port { p with
      routerId := object.deviceId.map (new 6)
      portMac := (object.hwAddr.or (some random)).map lib.macToString
      portAddress := some (lib.ipToProto object.portAddr) }, ?_, ?_⟩
    · simp only [withHwAddr, toProto, RouterPort.toProto, hp]
      rfl
    · cases haddr : object.hwAddr <;> simp [HasHwAddr, haddr]
  | _ => exact ⟨message, h, iff_of_true rfl trivial⟩

omit [FiniteMap S] [DecidableEq U] in
/-- Reading an object and converting it again is converting it with the random address. -/
theorem Entity.again_eq (hnew : ∀ i uuid, lib.fromProto (new i uuid) = uuid) (random : M)
    {object : Entity U K M A} (h : object.toProto lib new = .ok message) :
    object.again lib new random = (object.withHwAddr random).toProto lib new := by
  cases object with
  | router object =>
    obtain ⟨m, hm, -⟩ := Run.bind_eq_ok_iff.mp h
    rw [again, hm]
    change Entity.toProto lib new (.router (.fromProto lib m)) = _
    simp only [withHwAddr, toProto, Router.toProto_fromProto hnew hm]
  | bridge object =>
    obtain ⟨m, hm, -⟩ := Run.bind_eq_ok_iff.mp h
    rw [again, hm]
    change Entity.toProto lib new (.bridge (.fromProto lib m)) = _
    simp only [withHwAddr, toProto, Bridge.toProto_fromProto hnew hm]
  | routerPort object =>
    obtain ⟨m, hm, -⟩ := Run.bind_eq_ok_iff.mp h
    obtain ⟨port, hport, hagain⟩ := RouterPort.toProto_fromProto new hnew random hm
    rw [again, hm]
    change (RouterPort.fromProto lib random m >>= fun port =>
      Entity.toProto lib new (.routerPort port)) = _
    rw [hport]
    change Entity.toProto lib new (.routerPort port) = _
    simp only [withHwAddr, toProto, hagain]
  | bridgePort object =>
    obtain ⟨m, hm, -⟩ := Run.bind_eq_ok_iff.mp h
    rw [again, hm]
    change Entity.toProto lib new (.bridgePort (.fromProto lib m)) = _
    simp only [withHwAddr, toProto, BridgePort.toProto_fromProto hnew hm]
  | message object => cases h

/-- The message with the random address is written, and there is a change if it is another one. -/
theorem Zoom.exists_update (random : M) {object : Entity U K M A} {message' : Message K A}
    (h : object.toProto lib new = .ok message)
    (h' : (object.withHwAddr random).toProto lib new = .ok message')
    (hid : message.id.map lib.fromProto = some id) (hs : s.Holds id message) :
    ∃ s', s.update lib none message' = .ok s' ∧ (s'.Same s ↔ message' = message) := by
  by_cases heq : message' = message
  · obtain ⟨s', hs', hsame⟩ := exists_update_self hid hs
    exact ⟨s', heq ▸ hs', iff_of_true hsame heq⟩
  cases object with
  | routerPort object =>
    obtain ⟨m, hm, hreturn⟩ := Run.bind_eq_ok_iff.mp h
    cases hreturn
    obtain ⟨m', hm', hreturn'⟩ := Run.bind_eq_ok_iff.mp h'
    cases hreturn'
    -- the random address does not change the key
    have hid' : m'.id.map lib.fromProto = some id :=
      (congrArg _ (RouterPort.id_of_toProto hm')).trans
        ((congrArg _ (RouterPort.id_of_toProto hm)).symm.trans hid)
    obtain ⟨s', hs', hchange⟩ := exists_update_port hid' hs fun hport => heq (hport ▸ rfl)
    exact ⟨s', hs', iff_of_false hchange heq⟩
  | _ => exact absurd (Except.ok.inj (h'.symm.trans h)) heq

omit [DecidableEq U] in
/-- The message of an object that has an id. -/
theorem Entity.id_of_toProto (hnew : ∀ i uuid, lib.fromProto (new i uuid) = uuid)
    {object : Entity U K M A} (h : (object.setId id).toProto lib new = .ok message) :
    message.id.map lib.fromProto = some id := by
  cases object with
  | router object | bridge object =>
    obtain ⟨m, hm, hreturn⟩ := Run.bind_eq_ok_iff.mp h
    cases hreturn
    cases hm
    exact congrArg some (hnew 0 id)
  | routerPort object =>
    obtain ⟨m, hm, hreturn⟩ := Run.bind_eq_ok_iff.mp h
    cases hreturn
    simp [Message.id, RouterPort.id_of_toProto hm, hnew]
  | bridgePort object =>
    obtain ⟨m, hm, hreturn⟩ := Run.bind_eq_ok_iff.mp h
    cases hreturn
    obtain ⟨p, hp, hmessage⟩ := Run.bind_eq_ok_iff.mp hm
    cases hmessage
    simp [Message.id, Port.id_of_toProto hp, hnew]
  | message object => cases h

/-- An object is read with its class, and converted as if it had the random address, unless it has
one. -/
theorem exists_get (hnew : ∀ i uuid, lib.fromProto (new i uuid) = uuid) (random : M)
    {object : Entity U K M A} (h : object.toProto lib new = .ok message) (hs : s.Holds id message) :
    ∃ got, get lib random object.getClass id s = .ok got ∧
      got.toProto lib new = (object.withHwAddr random).toProto lib new := by
  cases object with
  | router object =>
    obtain ⟨m, hm, hreturn⟩ := Run.bind_eq_ok_iff.mp h
    cases hreturn
    -- the tests of `get` select the conversion for the class of the object
    refine ⟨.router (.fromProto lib m), ?_, ?_⟩
    · rw [Entity.getClass, get_router, getIn_eq_ok_iff.mpr hs]
      rfl
    · simp only [Entity.withHwAddr, Entity.toProto, Router.toProto_fromProto hnew hm]
  | bridge object =>
    obtain ⟨m, hm, hreturn⟩ := Run.bind_eq_ok_iff.mp h
    cases hreturn
    refine ⟨.bridge (.fromProto lib m), ?_, ?_⟩
    · rw [Entity.getClass, get_bridge, getIn_eq_ok_iff.mpr hs]
      rfl
    · simp only [Entity.withHwAddr, Entity.toProto, Bridge.toProto_fromProto hnew hm]
  | routerPort object =>
    obtain ⟨m, hm, hreturn⟩ := Run.bind_eq_ok_iff.mp h
    cases hreturn
    obtain ⟨port, hport, hagain⟩ := RouterPort.toProto_fromProto new hnew random hm
    refine ⟨.routerPort port, ?_, ?_⟩
    · rw [Entity.getClass, get_routerPort, getIn_eq_ok_iff.mpr hs]
      change wrap (RouterPort.fromProto lib random m >>= fun port =>
        .ok (Entity.routerPort port)) = _
      rw [hport]
      rfl
    · simp only [Entity.withHwAddr, Entity.toProto, hagain]
  | bridgePort object =>
    obtain ⟨m, hm, hreturn⟩ := Run.bind_eq_ok_iff.mp h
    cases hreturn
    refine ⟨.bridgePort (.fromProto lib m), ?_, ?_⟩
    · rw [Entity.getClass, get_bridgePort, getIn_eq_ok_iff.mpr hs]
      rfl
    · simp only [Entity.withHwAddr, Entity.toProto, BridgePort.toProto_fromProto hnew hm]
  | message object => cases h

/-- `create` sets the id, converts the object and stores the message. -/
theorem create_eq_ok_iff {failure : Option Exn} {object object' : Entity U K M A} :
    create lib new failure id object s = .ok (object', s') ↔
      ∃ message, (object.setId id).toProto lib new = .ok message ∧
        s.create lib failure message = .ok s' ∧ object' = object.setId id := by
  unfold create
  rw [Run.bind_eq_ok_iff]
  refine exists_congr fun message => and_congr_right fun _ => ?_
  -- an exception stays one, whether it is wrapped or not
  cases s.create lib failure message with
  | ok s₁ => simp [pure, Except.pure, eq_comm, and_comm]
  | error e => cases e <;> simp

/-- After `create`, `get` and `update` with what has been read leave the messages as they are,
exactly if a port of a router has an address. -/
theorem exists_get_update_iff {failure : Option Exn} {object object' : Entity U K M A}
    (random : M) (h : create lib (fun _ => lib.toProto) failure id object s = .ok (object', s')) :
    (∃ got s'', get lib random object.getClass id s' = .ok got ∧
        update lib (fun _ => lib.toProto) none got s' = .ok s'' ∧ s''.Same s') ↔
      object.HasHwAddr := by
  have hnew : ∀ (i : ℕ) uuid, lib.fromProto ((fun _ => lib.toProto) i uuid) = uuid :=
    fun _ => lib.fromProto_toProto
  obtain ⟨message, hmessage, hcreate, -⟩ := create_eq_ok_iff.mp h
  have hid := Entity.id_of_toProto hnew hmessage
  have hholds := Zoom.holds_create hid hcreate
  -- the object is read with its class, and a random address if it had none
  have hclass : (object.setId id).getClass = object.getClass := by cases object <;> rfl
  have haddr : (object.setId id).HasHwAddr ↔ object.HasHwAddr := by cases object <;> rfl
  obtain ⟨got, hgot, hagain⟩ := exists_get hnew random hmessage hholds
  obtain ⟨message', hmessage', hsame⟩ := Entity.toProto_withHwAddr random hmessage
  obtain ⟨s'', hupdate, hstore⟩ := Zoom.exists_update random hmessage hmessage' hid hholds
  have hwrite : update lib (fun _ => lib.toProto) none got s' = .ok s'' :=
    Run.bind_eq_ok_iff.mpr ⟨message', hagain.trans hmessage', hupdate⟩
  rw [← haddr, ← hsame, ← hstore, ← hclass]
  constructor
  · rintro ⟨got', s₁, hgot', hwrite', hs₁⟩
    obtain rfl := Except.ok.inj (hgot.symm.trans hgot')
    obtain rfl := Except.ok.inj (hwrite.symm.trans hwrite')
    exact hs₁
  · exact fun hs => ⟨got, s'', hgot, hwrite, hs⟩

/-- Converting an object to its message, reading it and converting it again gives the same message,
and an object that is created may be read with its class and written back without a change, exactly
if it is not a port of a router without an address. -/
theorem writeBack_iff (lib : Library U K M A) (random : M) :
    let new : ℕ → U → K := fun _ => lib.toProto
    (∀ (object : Entity U K M A) (message : Message K A), object.toProto lib new = .ok message →
      (object.again lib new random = .ok message ↔ object.HasHwAddr)) ∧
    ∀ (failure : Option Exn) (id : U) (object object' : Entity U K M A) (s s' : Zoom S U K A),
      create lib new failure id object s = .ok (object', s') →
        ((∃ got s'', get lib random object.getClass id s' = .ok got ∧
          update lib new none got s' = .ok s'' ∧ s''.Same s') ↔ object.HasHwAddr) := by
  have hnew : ∀ (i : ℕ) uuid, lib.fromProto ((fun _ => lib.toProto) i uuid) = uuid :=
    fun _ => lib.fromProto_toProto
  refine ⟨fun object message h => ?_, fun failure id object object' s s' h => ?_⟩
  · obtain ⟨message', hmessage', hsame⟩ := Entity.toProto_withHwAddr random h
    rw [Entity.again_eq hnew random h, hmessage', ← hsame]
    exact ⟨Except.ok.inj, congrArg Except.ok⟩
  · exact exists_get_update_iff random h

/-- A port of a router with all its fields. -/
def fullPort : RouterPort Uuid Unit where
  adminStateUp := false
  hostId := some .two
  inboundFilter := some .one
  outboundFilter := some .two
  interfaceName := some "eth0"
  peerId := some .two
  tunnelKey := -1
  vifId := some "0-0-0-0-1"
  deviceId := some .two
  hwAddr := some ()
  portAddr := 0x0a000001

theorem writeBack_fullPort :
    ∃ object' s' got s'',
      create twoKeys (fun _ => twoKeys.toProto) none .one (.routerPort fullPort)
        (⟨FiniteMap.empty, FiniteMap.empty, FiniteMap.empty⟩ : Zoom AssocMap Uuid Uuid Int32) =
        .ok (object', s') ∧
      get twoKeys () .routerPort .one s' = .ok got ∧
      update twoKeys (fun _ => twoKeys.toProto) none got s' = .ok s'' ∧ s''.Same s' := by
  obtain ⟨got, s'', h⟩ := ((writeBack_iff twoKeys ()).2 none .one (.routerPort fullPort) _
    (⟨FiniteMap.empty, FiniteMap.empty, FiniteMap.empty⟩ : Zoom AssocMap Uuid Uuid Int32) _
    rfl).mpr rfl
  exact ⟨_, _, got, s'', rfl, h⟩

/-- The same port with its address set to `null`. -/
def barePort : RouterPort Uuid Unit := { fullPort with id := some .one, hwAddr := none }

/-- It is read with a random address, which is then written. -/
theorem not_writeBack_barePort :
    (∃ message message', barePort.toProto twoKeys (fun _ => twoKeys.toProto) = .ok message ∧
      (Entity.routerPort barePort).again twoKeys (fun _ => twoKeys.toProto) () =
        .ok (.port message') ∧ message' ≠ message) ∧
    ∃ object' s' got s'',
      create twoKeys (fun _ => twoKeys.toProto) none .one (.routerPort barePort)
        (⟨FiniteMap.empty, FiniteMap.empty, FiniteMap.empty⟩ : Zoom AssocMap Uuid Uuid Int32) =
        .ok (object', s') ∧
      get twoKeys () .routerPort .one s' = .ok got ∧
      update twoKeys (fun _ => twoKeys.toProto) none got s' = .ok s'' ∧
      (get? s'.ports .one).map Topology.Port.portMac = some none ∧
      (get? s''.ports .one).map Topology.Port.portMac = some (some "02:00:00:00:00:01") :=
  ⟨⟨_, _, rfl, rfl, by decide⟩, _, _, _, _, rfl, rfl, rfl, rfl, rfl⟩

end WriteBack

end ZoomStorage
