import StateTableBench.Transition.Run
import Mathlib.Tactic.Common

/-!
# The objects of the Zoom storage and their messages

`ZoomStorageService` stores routers, bridges and ports as messages of the package `Topology`. There
is a pair of functions `fromProto` and `toProto` for each class. All fields of a message are
optional; those of an object are, unless they have a primitive type.

`Router.toProto_fromProto`, `Bridge.toProto_fromProto`, `BridgePort.toProto_fromProto` and
`RouterPort.toProto_fromProto`: an object that is read from a message is converted to the same
message again, but for the MAC address of a router port. If this is not set it is left out of the
message, and `new RouterPort()` draws a random one.
-/

namespace ZoomStorage

/-- What may be thrown. -/
inductive Exn
  | nullPointer
  | illegalArgument
  | unsupportedOperation
  | objectExists
  | notFound
  | referenceConflict
  | storage
deriving DecidableEq

/-! ## Objects and messages

The objects have keys in `U` (`java.util.UUID`) and addresses in `M` (`MAC`). The messages have keys
in `K` (`Commons.UUID`) and addresses in `A` (`Commons.IPAddress`). -/

variable {U K M A : Type}

structure Router (U : Type) where
  id : Option U := none
  name : Option String := none
  inboundFilter : Option U := none
  outboundFilter : Option U := none
  loadBalancer : Option U := none
  adminStateUp : Bool
deriving DecidableEq

structure Bridge (U : Type) where
  id : Option U := none
  name : Option String := none
  inboundFilter : Option U := none
  outboundFilter : Option U := none
  tunnelKey : Int32 := 0
  adminStateUp : Bool
  /-- The property `tenant_id`. -/
  tenantId : Option String := none
deriving DecidableEq

structure Port (U : Type) where
  id : Option U := none
  adminStateUp : Bool
  hostId : Option U := none
  inboundFilter : Option U := none
  outboundFilter : Option U := none
  interfaceName : Option String := none
  peerId : Option U := none
  tunnelKey : Int32 := 0
  /-- The property `vif_id`. -/
  vifId : Option String := none
  deviceId : Option U := none
deriving DecidableEq

structure BridgePort (U : Type) extends Port U where
  vlanId : Option Int16 := none
deriving DecidableEq

structure RouterPort (U M : Type) extends Port U where
  hwAddr : Option M
  /-- An `int`, which `getPortAddr` prints. -/
  portAddr : Int32 := 0
deriving DecidableEq

namespace Topology

structure Router (K : Type) where
  id : Option K := none
  name : Option String := none
  inboundFilterId : Option K := none
  outboundFilterId : Option K := none
  loadBalancerId : Option K := none
  adminStateUp : Option Bool := none
deriving DecidableEq

structure Network (K : Type) where
  id : Option K := none
  name : Option String := none
  inboundFilterId : Option K := none
  outboundFilterId : Option K := none
  tunnelKey : Option Int64 := none
  adminStateUp : Option Bool := none
  tenantId : Option String := none
deriving DecidableEq

structure Port (K A : Type) where
  id : Option K := none
  adminStateUp : Option Bool := none
  hostId : Option K := none
  inboundFilterId : Option K := none
  outboundFilterId : Option K := none
  interfaceName : Option String := none
  peerId : Option K := none
  tunnelKey : Option Int64 := none
  vifId : Option K := none
  networkId : Option K := none
  routerId : Option K := none
  vlanId : Option Int32 := none
  portMac : Option String := none
  portAddress : Option A := none
deriving DecidableEq

end Topology

/-- What is used of other libraries: the converters, each of which is inverse to its partner on
what the partner returns, and the values of `adminStateUp` in new objects. All other fields of a new
object are unset, but for the address that a router port draws. -/
structure Library (U K M A : Type) where
  /-- `UUIDUtil.toProto` -/
  toProto : U → K
  /-- `UUIDUtil.fromProto` -/
  fromProto : K → U
  fromProto_toProto : ∀ uuid, fromProto (toProto uuid) = uuid
  /-- `UUID.toString` -/
  uuidToString : U → String
  /-- `UUID.fromString`, which throws if there is no value. -/
  uuidFromString : String → Option U
  uuidFromString_uuidToString : ∀ uuid, uuidFromString (uuidToString uuid) = some uuid
  /-- `MAC.toString` -/
  macToString : M → String
  /-- `MAC.fromString`, which throws if there is no value. -/
  macFromString : String → Option M
  macFromString_macToString : ∀ mac, macFromString (macToString mac) = some mac
  /-- `IPAddressUtil.toProto` of the text that `getPortAddr` prints, `IPv4Addr.intToString`. -/
  ipToProto : Int32 → A
  /-- What `setPortAddr` stores, `IPv4Addr.stringToInt`, of the text of `IPAddressUtil.toIPv4Addr`;
  it throws if there is no value, since the address is not one of IPv4. -/
  ipFromProto : A → Option Int32
  ipFromProto_ipToProto : ∀ address, ipFromProto (ipToProto address) = some address
  routerUp : Bool
  bridgeUp : Bool
  portUp : Bool

/-! ## Conversions

The messages of the keys are new objects. `new i` allocates the one for the `i`-th field of a
message. -/

section Conversions

variable (lib : Library U K M A) (new : ℕ → U → K)

/-- A reference that must not be `null`. -/
def nonNull {α : Type} : Option α → Except Exn α
  | some x => .ok x
  | none => .error .nullPointer

/-- A text that must be parsed, if it is there. -/
def parsed {α β : Type} (parse : α → Option β) : Option α → Except Exn (Option β)
  | none => .ok none
  | some text =>
    match parse text with
    | some x => .ok (some x)
    | none => .error .illegalArgument

def Router.fromProto (router : Topology.Router K) : Router U where
  id := router.id.map lib.fromProto
  name := router.name
  inboundFilter := router.inboundFilterId.map lib.fromProto
  outboundFilter := router.outboundFilterId.map lib.fromProto
  loadBalancer := router.loadBalancerId.map lib.fromProto
  adminStateUp := router.adminStateUp.getD lib.routerUp

def Router.toProto (router : Router U) : Except Exn (Topology.Router K) := do
  -- a field of a message cannot be set to `null`
  let id ← nonNull router.id
  return {
    id := some (new 0 id)
    name := router.name
    inboundFilterId := router.inboundFilter.map (new 1)
    outboundFilterId := router.outboundFilter.map (new 2)
    loadBalancerId := router.loadBalancer.map (new 3)
    adminStateUp := some router.adminStateUp }

def Bridge.fromProto (bridge : Topology.Network K) : Bridge U where
  id := bridge.id.map lib.fromProto
  name := bridge.name
  inboundFilter := bridge.inboundFilterId.map lib.fromProto
  outboundFilter := bridge.outboundFilterId.map lib.fromProto
  -- a cast to `int`; the key that is stored is an `int64`
  tunnelKey := (bridge.tunnelKey.map Int64.toInt32).getD 0
  adminStateUp := bridge.adminStateUp.getD lib.bridgeUp
  tenantId := bridge.tenantId

def Bridge.toProto (bridge : Bridge U) : Except Exn (Topology.Network K) := do
  let id ← nonNull bridge.id
  return {
    id := some (new 0 id)
    name := bridge.name
    inboundFilterId := bridge.inboundFilter.map (new 1)
    outboundFilterId := bridge.outboundFilter.map (new 2)
    tunnelKey := some bridge.tunnelKey.toInt64
    adminStateUp := some bridge.adminStateUp
    tenantId := bridge.tenantId }

/-- The fields that all ports have. -/
def Port.fromProto (port : Topology.Port K A) : Port U where
  id := port.id.map lib.fromProto
  adminStateUp := port.adminStateUp.getD lib.portUp
  hostId := port.hostId.map lib.fromProto
  inboundFilter := port.inboundFilterId.map lib.fromProto
  outboundFilter := port.outboundFilterId.map lib.fromProto
  interfaceName := port.interfaceName
  peerId := port.peerId.map lib.fromProto
  tunnelKey := (port.tunnelKey.map Int64.toInt32).getD 0
  vifId := port.vifId.map fun vifId => lib.uuidToString (lib.fromProto vifId)

/-- `fromProtoBridgePort` -/
def BridgePort.fromProto (port : Topology.Port K A) : BridgePort U where
  -- the device of this kind of port is a network
  toPort := { Port.fromProto lib port with deviceId := port.networkId.map lib.fromProto }
  -- a cast to `short`
  vlanId := port.vlanId.map Int32.toInt16

/-- `new RouterPort()`, where `random` is the value of `MAC.random()`. -/
def RouterPort.init (random : M) : RouterPort U M where
  adminStateUp := lib.portUp
  hwAddr := some random

/-- `fromProtoRouterPort` -/
def RouterPort.fromProto (random : M) (port : Topology.Port K A) : Except Exn (RouterPort U M) := do
  let p : RouterPort U M := RouterPort.init lib random
  let hwAddr ← parsed lib.macFromString port.portMac
  let portAddr ← parsed lib.ipFromProto port.portAddress
  return {
    -- the device of this kind is a router
    toPort := { Port.fromProto lib port with deviceId := port.routerId.map lib.fromProto }
    hwAddr := hwAddr.or p.hwAddr
    portAddr := portAddr.getD p.portAddr }

def Port.toProto (port : Port U) : Except Exn (Topology.Port K A) := do
  let id ← nonNull port.id
  -- the only text among the common fields that is parsed
  let vifId ← parsed lib.uuidFromString port.vifId
  return {
    id := some (new 0 id)
    adminStateUp := some port.adminStateUp
    hostId := port.hostId.map (new 1)
    inboundFilterId := port.inboundFilter.map (new 2)
    outboundFilterId := port.outboundFilter.map (new 3)
    interfaceName := port.interfaceName
    peerId := port.peerId.map (new 4)
    tunnelKey := some port.tunnelKey.toInt64
    vifId := vifId.map (new 5) }

def BridgePort.toProto (port : BridgePort U) : Except Exn (Topology.Port K A) := do
  let p ← Port.toProto lib new port.toPort
  return { p with
    networkId := port.deviceId.map (new 6)
    vlanId := port.vlanId.map Int16.toInt32 }

def RouterPort.toProto (port : RouterPort U M) : Except Exn (Topology.Port K A) := do
  let p ← Port.toProto lib new port.toPort
  return { p with
    routerId := port.deviceId.map (new 6)
    portMac := port.hwAddr.map lib.macToString
    -- `getPortAddr` never returns `null`
    portAddress := some (lib.ipToProto port.portAddr) }

end Conversions

/-! ## Reading and converting again -/

section RoundTrip

variable {lib : Library U K M A} {new new' : ℕ → U → K}

/-- `nonNull` lets a value through and throws on null. -/
theorem nonNull_eq_ok_iff {α : Type} {o : Option α} {x : α} : nonNull o = .ok x ↔ o = some x := by
  cases o <;> simp [nonNull]

/-- A key is read as what it was allocated for. -/
theorem map_fromProto_new (hnew : ∀ i uuid, lib.fromProto (new i uuid) = uuid) (i : ℕ)
    (o : Option U) : (o.map (new i)).map lib.fromProto = o := by
  cases o with
  | none => rfl
  | some uuid => exact congrArg some (hnew i uuid)

/-- What has been parsed is parsed again from its text. -/
theorem parsed_map {α β : Type} {parse : α → Option β} {text : β → α}
    (htext : ∀ x, parse (text x) = some x) (o : Option β) :
    parsed parse (o.map text) = .ok o := by
  cases o with
  | none => rfl
  | some x =>
    rw [Option.map_some, parsed, htext]

/-- The router is read as it was. -/
theorem Router.fromProto_toProto (hnew : ∀ i uuid, lib.fromProto (new i uuid) = uuid)
    {router : Router U} {message : Topology.Router K} (h : router.toProto new = .ok message) :
    Router.fromProto lib message = router := by
  obtain ⟨id, hid, hmessage⟩ := Run.bind_eq_ok_iff.mp h
  cases hmessage
  simp only [fromProto, map_fromProto_new hnew, Option.map_some, hnew, Option.getD_some,
    ← nonNull_eq_ok_iff.mp hid]

/-- A bridge is read back from its message as it was. -/
theorem Bridge.fromProto_toProto (hnew : ∀ i uuid, lib.fromProto (new i uuid) = uuid)
    {bridge : Bridge U} {message : Topology.Network K} (h : bridge.toProto new = .ok message) :
    Bridge.fromProto lib message = bridge := by
  obtain ⟨id, hid, hmessage⟩ := Run.bind_eq_ok_iff.mp h
  cases hmessage
  simp only [fromProto, map_fromProto_new hnew, Option.map_some, hnew, Option.getD_some,
    Int32.toInt32_toInt64, ← nonNull_eq_ok_iff.mp hid]

/-- A port is read as it was, with its `vif_id` in the standard form, but without its device. -/
theorem Port.fromProto_toProto (hnew : ∀ i uuid, lib.fromProto (new i uuid) = uuid)
    {port : Port U} {message : Topology.Port K A} (h : Port.toProto lib new port = .ok message) :
    ∃ vifId, parsed lib.uuidFromString port.vifId = .ok vifId ∧
      Port.fromProto lib message =
        { port with vifId := vifId.map lib.uuidToString, deviceId := none } := by
  obtain ⟨id, hid, hrest⟩ := Run.bind_eq_ok_iff.mp h
  obtain ⟨vifId, hvifId, hmessage⟩ := Run.bind_eq_ok_iff.mp hrest
  cases hmessage
  refine ⟨vifId, hvifId, ?_⟩
  -- the text is printed from the key, so it may be another one than that of the port
  have hvif : (vifId.map (new 5)).map (fun key => lib.uuidToString (lib.fromProto key)) =
      vifId.map lib.uuidToString := by
    rw [← Function.comp_def lib.uuidToString, ← Option.map_map, map_fromProto_new hnew]
  simp only [fromProto, map_fromProto_new hnew, Option.map_some, hnew, Option.getD_some,
    Int32.toInt32_toInt64, ← nonNull_eq_ok_iff.mp hid, hvif]

/-- The message of a port has its id. -/
theorem Port.id_of_toProto {port : Port U} {message : Topology.Port K A}
    (h : Port.toProto lib new port = .ok message) : message.id = port.id.map (new 0) := by
  obtain ⟨id, hid, hrest⟩ := Run.bind_eq_ok_iff.mp h
  obtain ⟨vifId, -, hmessage⟩ := Run.bind_eq_ok_iff.mp hrest
  cases hmessage
  rw [nonNull_eq_ok_iff.mp hid]
  rfl

/-- The message of a router port has its id. -/
theorem RouterPort.id_of_toProto {port : RouterPort U M} {message : Topology.Port K A}
    (h : port.toProto lib new = .ok message) : message.id = port.id.map (new 0) := by
  obtain ⟨p, hp, hmessage⟩ := Run.bind_eq_ok_iff.mp h
  cases hmessage
  rw [← Port.id_of_toProto hp]

/-- The standard form of `vif_id` is converted to the same key. -/
theorem Port.toProto_eq {port : Port U} {vifId : Option U}
    (hvifId : parsed lib.uuidFromString port.vifId = .ok vifId) :
    Port.toProto lib new' { port with vifId := vifId.map lib.uuidToString } =
      (Port.toProto lib new' port : Except Exn (Topology.Port K A)) := by
  simp only [toProto, hvifId, parsed_map lib.uuidFromString_uuidToString]

/-- Reading a router and writing it back gives the same message. -/
theorem Router.toProto_fromProto (hnew : ∀ i uuid, lib.fromProto (new i uuid) = uuid)
    {router : Router U} {message : Topology.Router K} (h : router.toProto new = .ok message) :
    (Router.fromProto lib message).toProto new' = router.toProto new' := by
  rw [Router.fromProto_toProto hnew h]

/-- Reading a bridge and writing it back gives the same message. -/
theorem Bridge.toProto_fromProto (hnew : ∀ i uuid, lib.fromProto (new i uuid) = uuid)
    {bridge : Bridge U} {message : Topology.Network K} (h : bridge.toProto new = .ok message) :
    (Bridge.fromProto lib message).toProto new' = bridge.toProto new' := by
  rw [Bridge.fromProto_toProto hnew h]

/-- Reading a bridge port and writing it back gives the same message. -/
theorem BridgePort.toProto_fromProto (hnew : ∀ i uuid, lib.fromProto (new i uuid) = uuid)
    {port : BridgePort U} {message : Topology.Port K A} (h : port.toProto lib new = .ok message) :
    (BridgePort.fromProto lib message).toProto lib new' = port.toProto lib new' := by
  obtain ⟨p, hp, hmessage⟩ := Run.bind_eq_ok_iff.mp h
  cases hmessage
  obtain ⟨vifId, hvifId, hread⟩ := Port.fromProto_toProto hnew hp
  have hport : BridgePort.fromProto lib { p with
      networkId := port.deviceId.map (new 6)
      vlanId := port.vlanId.map Int16.toInt32 } =
      { port with vifId := vifId.map lib.uuidToString } := by
    -- a `short` is not changed by the casts
    have hvlan : (port.vlanId.map Int16.toInt32).map Int32.toInt16 = port.vlanId := by
      cases port.vlanId <;> simp
    -- the common fields are not touched by the others
    have hcommon : Port.fromProto lib { p with
        networkId := port.deviceId.map (new 6)
        vlanId := port.vlanId.map Int16.toInt32 } = Port.fromProto lib p := rfl
    simp only [fromProto, hcommon, hread, map_fromProto_new hnew, hvlan]
  rw [hport]
  simp only [toProto, Port.toProto_eq hvifId]

variable (new') in
/-- A port of a router is converted as if it had the random address, unless it has one. -/
theorem RouterPort.toProto_fromProto (hnew : ∀ i uuid, lib.fromProto (new i uuid) = uuid)
    (random : M) {port : RouterPort U M} {message : Topology.Port K A}
    (h : port.toProto lib new = .ok message) :
    ∃ port', RouterPort.fromProto lib random message = .ok port' ∧
      port'.toProto lib new' =
        { port with hwAddr := port.hwAddr.or (some random) }.toProto lib new' := by
  obtain ⟨p, hp, hmessage⟩ := Run.bind_eq_ok_iff.mp h
  cases hmessage
  obtain ⟨vifId, hvifId, hread⟩ := Port.fromProto_toProto hnew hp
  refine ⟨{ port with
    vifId := vifId.map lib.uuidToString, hwAddr := port.hwAddr.or (some random) }, ?_, ?_⟩
  -- the common fields are not touched by the others
  · have hcommon : Port.fromProto lib { p with
        routerId := port.deviceId.map (new 6)
        portMac := port.hwAddr.map lib.macToString
        portAddress := some (lib.ipToProto port.portAddr) } = Port.fromProto lib p := rfl
    have haddress : parsed lib.ipFromProto (some (lib.ipToProto port.portAddr)) =
        .ok (some port.portAddr) := by
      rw [parsed, lib.ipFromProto_ipToProto]
    rw [fromProto, parsed_map lib.macFromString_macToString, haddress, hcommon, hread,
      map_fromProto_new hnew]
    rfl
  · simp only [toProto, Port.toProto_eq hvifId]

end RoundTrip

/-! ## An instance -/

/-- Two keys. -/
inductive Uuid
  | one
  | two
deriving DecidableEq

def Uuid.toString : Uuid → String
  | .one => "00000000-0000-0000-0000-000000000001"
  | .two => "00000000-0000-0000-0000-000000000002"

/-- Leading zeros may be left out. -/
def Uuid.fromString (text : String) : Option Uuid :=
  if text ∈ [Uuid.one.toString, "0-0-0-0-1"] then some .one
  else if text ∈ [Uuid.two.toString, "0-0-0-0-2"] then some .two
  else none

/-- The converters for two keys, one MAC address and all IPv4 addresses. -/
def twoKeys : Library Uuid Uuid Unit Int32 where
  toProto uuid := uuid
  fromProto uuid := uuid
  fromProto_toProto _ := rfl
  uuidToString := Uuid.toString
  uuidFromString := Uuid.fromString
  uuidFromString_uuidToString uuid := by cases uuid <;> decide
  macToString _ := "02:00:00:00:00:01"
  macFromString text := if text = "02:00:00:00:00:01" then some () else none
  macFromString_macToString _ := rfl
  ipToProto address := address
  ipFromProto address := some address
  ipFromProto_ipToProto _ := rfl
  routerUp := true
  bridgeUp := true
  portUp := true

end ZoomStorage
