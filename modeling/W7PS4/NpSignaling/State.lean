-- SUMMARY: The state of NP signaling: ids, contexts, connections, packets and events, and the sections that run under the signaling mutex.
import W7PS4.Lib.StdMap
import Mathlib.Data.Int.Order.Basic
import Mathlib.Logic.Function.Basic

/-!
# NP signaling

The state is what `np_signaling_state.cpp` keeps in globals: contexts, connections, the
table from peers to connections, and the activations that wait for the dispatch thread.
Two logs stand for what leaves it: the events staged for the game's callbacks and the packets
sent. The functions here are the parts of the source that run under the mutex without a
break. Where the source leaves the mutex and takes it again, a function ends and returns
what was decided.

The maps are unordered. A loop that stops at the first match finds any match, so what
it finds is an argument, and a relation says which arguments are possible.
-/

namespace NpSignaling

/-! ## Online ids -/

def onlineIdMaxLength : Nat := 16

structure OrbisNpOnlineId where
  /-- 16 bytes. -/
  data : List UInt8
  term : UInt8
  dummy : List UInt8
deriving DecidableEq, Repr

structure OrbisNpId where
  handle : OrbisNpOnlineId
  opt : List UInt8
  reserved : List UInt8
deriving DecidableEq, Repr

/-- The bytes before the first zero. -/
def idString (data : List UInt8) : List UInt8 := (data.take onlineIdMaxLength).takeWhile (· ≠ 0)

def onlineIdToString (onlineId : OrbisNpOnlineId) : List UInt8 := idString onlineId.data

def onlineIdEqualsString (onlineId : OrbisNpOnlineId) (value : List UInt8) : Bool :=
  onlineIdToString onlineId == value

def setNpOnlineId (src : List UInt8) : OrbisNpOnlineId :=
  ⟨src.take onlineIdMaxLength ++ List.replicate (onlineIdMaxLength - src.length) 0, 0, [0, 0, 0]⟩

def npIdFromOnlineId (onlineId : OrbisNpOnlineId) : OrbisNpId :=
  ⟨onlineId, List.replicate 8 0, List.replicate 8 0⟩

def isAlnum (c : UInt8) : Bool :=
  (48 ≤ c && c ≤ 57) || (65 ≤ c && c ≤ 90) || (97 ≤ c && c ≤ 122)

/-- `sceNpIntIsValidOnlineId` of the handle. -/
def isValidNpId (npid : OrbisNpId) : Bool :=
  let name := onlineIdToString npid.handle
  npid.handle.term == 0 && 3 ≤ name.length && (name.head?.any isAlnum) &&
    name.tail.all fun c => isAlnum c || c == 95 || c == 45

/-! ## Contexts and connections -/

structure NpSignalingContext where
  /-- Whether a callback is set. -/
  callback : Bool
  active : Bool
  flags : UInt32
  compiledSdkVersion : Nat
  accountId : Nat
  platformType : Nat
  ownerNpid : OrbisNpId
  ownerOnlineId : OrbisNpOnlineId
  activateBudgetUs : Int
  activateLastUpdateUs : Int
deriving DecidableEq, Repr

inductive ConnState where
  | inactive
  | sendingOffer
  | waitOffer
  | connCheck
  | sendingAccept
  | waitAccept
  | established
deriving DecidableEq, Repr

inductive ConnStatus where
  | inactive
  | pending
  | active
deriving DecidableEq, Repr

def statusFromState : ConnState → ConnStatus
  | .established => .active
  | .inactive => .inactive
  | _ => .pending

structure ConnectionInfo where
  /-- Counts the connections that were ever created. -/
  serial : Nat
  connId : Int
  ctxId : Int
  addr : Nat
  port : Nat
  status : ConnStatus
  npid : OrbisNpId
  onlineId : OrbisNpOnlineId
  lastPeerRxUs : Int
  state : ConnState
  establishedFired : Bool
  establishedEventFired : Bool
  peerActivated : Bool
  locallyActivated : Bool
  peerActivatedFired : Bool
  peerEstablished : Bool
  mutualFired : Bool
  deadFired : Bool
  isInitiator : Bool
  timeoutCalloutArmed : Bool
  stepCalloutArmed : Bool
  deactivateLingering : Bool
deriving DecidableEq, Repr

namespace ConnectionInfo

def zeroOnlineId : OrbisNpOnlineId := setNpOnlineId []

/-- `ConnectionInfo ci{}` with the ids of the connection and its context. -/
def create (serial : Nat) (connId ctxId : Int) : ConnectionInfo where
  serial := serial
  connId := connId
  ctxId := ctxId
  addr := 0
  port := 0
  status := .inactive
  npid := npIdFromOnlineId zeroOnlineId
  onlineId := zeroOnlineId
  lastPeerRxUs := 0
  state := .inactive
  establishedFired := false
  establishedEventFired := false
  peerActivated := false
  locallyActivated := false
  peerActivatedFired := false
  peerEstablished := false
  mutualFired := false
  deadFired := false
  isInitiator := false
  timeoutCalloutArmed := false
  stepCalloutArmed := false
  deactivateLingering := false

variable (ci : ConnectionInfo)

/-- There is an address to send to. -/
def HasPeerAddress : Prop := ci.addr ≠ 0 ∧ ci.port ≠ 0

instance : Decidable ci.HasPeerAddress := inferInstanceAs (Decidable (_ ∧ _))

/-- Packets of the peer find the connection. -/
def Answers (fromId : List UInt8) : Prop :=
  ¬(ci.state = .inactive ∨ ci.deadFired) ∧ onlineIdEqualsString ci.onlineId fromId

instance (fromId : List UInt8) : Decidable (ci.Answers fromId) := inferInstanceAs (Decidable (_ ∧ _))

def armTimeoutCalloutLocked (calloutCtxActive : Bool) : ConnectionInfo :=
  if calloutCtxActive then { ci with timeoutCalloutArmed := true } else ci

def cancelTimeoutCalloutLocked : ConnectionInfo := { ci with timeoutCalloutArmed := false }

def armStepCalloutLocked (calloutCtxActive : Bool) : ConnectionInfo :=
  if calloutCtxActive then { ci with stepCalloutArmed := true } else ci

def cancelStepCalloutLocked : ConnectionInfo := { ci with stepCalloutArmed := false }

def cancelAllCalloutsLocked : ConnectionInfo := ci.cancelTimeoutCalloutLocked.cancelStepCalloutLocked

def setConnStateLocked (newState : ConnState) : ConnectionInfo :=
  { ci with state := newState, status := statusFromState newState }

def clearLingerAndTimeoutLocked : ConnectionInfo :=
  cancelTimeoutCalloutLocked { ci with deactivateLingering := false }

end ConnectionInfo

/-! ## Packets and events -/

inductive HandshakeKind where
  | offer
  | accept
  | check
  | checkAck
  /-- Any other byte. -/
  | unknown
deriving DecidableEq, Repr

structure SignalingHandshake where
  kind : HandshakeKind
  onlineIdFrom : List UInt8
  onlineIdTo : List UInt8
  fromConnId : Int
  mappedAddr : Nat
  nonce : Int
deriving DecidableEq, Repr

inductive ControlKind where
  | activationRequest
  | activationAck
  | close
  | established
  | unknown
deriving DecidableEq, Repr

inductive ControlReason where
  | terminate
  | deactivate
  | unknown
deriving DecidableEq, Repr

structure SignalingControl where
  kind : ControlKind
  onlineIdFrom : List UInt8
  onlineIdTo : List UInt8
  fromConnId : Int
  mappedAddr : Nat
  reason : ControlReason
deriving DecidableEq, Repr

inductive Packet where
  | handshake (pkt : SignalingHandshake)
  | control (pkt : SignalingControl)
deriving DecidableEq, Repr

structure SentPacket where
  packet : Packet
  addr : Nat
  port : Nat
deriving DecidableEq, Repr

inductive EventType where
  | dead
  | established
  | peerActivated
  | peerDeactivated
  | mutualActivated
deriving DecidableEq, Repr

inductive EventData where
  | ok
  | timeout
  | terminatedByPeer
  | terminatedByMyself
deriving DecidableEq, Repr

structure StagedEvent where
  ctxId : Int
  connId : Int
  /-- The connection that had the id. -/
  serial : Nat
  eventType : EventType
  eventData : EventData
deriving DecidableEq, Repr

structure PendingActivation where
  connId : Int
  peerOnlineId : List UInt8
  startHandshake : Bool
deriving DecidableEq, Repr

/-! ## The state -/

structure SignalingTables where
  initialized : Bool
  calloutCtxActive : Bool
  contexts : StdMap Int NpSignalingContext
  lastAssignedContextId : Nat
  connections : StdMap Int ConnectionInfo
  npidToConn : Int × OrbisNpId → Option Int
  connectionIdSeed : Nat
  pendingActivations : List PendingActivation
  nextSerial : Nat

/-- The tables, what sending and staging read, and the logs. -/
structure Signaling extends SignalingTables where
  externalIp : Nat
  dispatchStop : Bool
  staged : List StagedEvent
  sent : List SentPacket

namespace Signaling

/-- Before the first `sceNpSignalingInitialize`. -/
def start : Signaling :=
  ⟨⟨false, false, ∅, 0, ∅, fun _ => none, 0, [], 0⟩, 0, false, [], []⟩

variable (s : Signaling)

def isContextValidLocked (ctxId : Int) : Bool := (s.contexts.find? ctxId).any (·.active)

/-- The loop of `AllocateContextIdLocked`. -/
def findContextId : Nat → Nat → Option Nat
  | 0, _ => none
  | tries + 1, candidate =>
    if (s.contexts.find? (candidate : Int)).isNone then some candidate
    else findContextId tries (if candidate = 8 then 1 else candidate + 1)

def allocateContextIdLocked : Option Int × Signaling :=
  let candidate := if s.lastAssignedContextId = 8 then 1 else s.lastAssignedContextId + 1
  match s.findContextId 8 candidate with
  | some ctxId => (some (ctxId : Int), { s with lastAssignedContextId := ctxId })
  | none => (none, s)

/-- The loop of `AllocateConnectionIdLocked`: the id it finds and the seed it leaves. -/
def findConnectionId : Nat → Nat → Option Nat × Nat
  | 0, seed => (none, seed)
  | tries + 1, seed =>
    let next := if seed + 1 > 0x7fff then 1 else seed + 1
    if seed ≠ 0 ∧ (s.connections.find? (seed : Int)).isNone then (some seed, next)
    else findConnectionId tries next

/-- `rnd` is the number a random device returns if there is no seed yet. -/
def allocateConnectionIdLocked (rnd : Nat) : Option Int × Signaling :=
  let drawn := rnd / 0x4001 % 0x8000
  let seed := if s.connectionIdSeed = 0 then (if drawn = 0 then 1 else drawn) else s.connectionIdSeed
  let r := s.findConnectionId 0x10000 seed
  (r.1.map Nat.cast, { s with connectionIdSeed := r.2 })

def removeConnectionLocked (connId : Int) : Signaling :=
  match s.connections.find? connId with
  | none => s
  | some ci =>
    let key := (ci.ctxId, ci.npid)
    { s with
      npidToConn :=
        if s.npidToConn key = some connId then Function.update s.npidToConn key none else s.npidToConn
      connections := s.connections.erase connId }

/-- Remove the connections of a list. -/
def removeConnectionsLocked (connIds : List Int) : Signaling := connIds.foldl removeConnectionLocked s

/-- The ids of the connections for which `p` holds. -/
def connectionIds (p : ConnectionInfo → Bool) : List Int :=
  (s.connections.entries.filter fun e => p e.2).map Prod.fst

def removeContextConnectionsLocked (ctxId : Int) : Signaling :=
  s.removeConnectionsLocked (s.connectionIds fun ci => ci.ctxId = ctxId)

/-- Change the connection with the id, if there is one. -/
def modifyConnection (connId : Int) (f : ConnectionInfo → ConnectionInfo) : Signaling :=
  { s with connections := s.connections.modify connId f }

/-- `g_connections[connId] = ci`. -/
def insertConnection (connId : Int) (ci : ConnectionInfo) : Signaling :=
  { s with connections := s.connections.insert connId ci, nextSerial := s.nextSerial + 1 }

def setNpidToConn (key : Int × OrbisNpId) (connId : Int) : Signaling :=
  { s with npidToConn := Function.update s.npidToConn key (some connId) }

/-- What the lookup of a peer's connection by its online id may find; 0 stands for none. -/
def FindsPeer (fromId : List UInt8) (connId : Int) : Prop :=
  if connId = 0 then ∀ e ∈ s.connections.entries, ¬e.2.Answers fromId
  else ∃ ci ∈ s.connections.find? connId, ci.Answers fromId

instance (fromId : List UInt8) (connId : Int) : Decidable (s.FindsPeer fromId connId) :=
  inferInstanceAs (Decidable (if connId = 0 then _ else _))

/-- What the lookup of a context by its owner's online id may find; 0 stands for none. -/
def FindsOwner (toId : List UInt8) (ctxId : Int) : Prop :=
  if ctxId = 0 then ∀ e ∈ s.contexts.entries, ¬(e.2.active ∧ onlineIdEqualsString e.2.ownerOnlineId toId)
  else ∃ ctx ∈ s.contexts.find? ctxId, ctx.active ∧ onlineIdEqualsString ctx.ownerOnlineId toId

instance (toId : List UInt8) (ctxId : Int) : Decidable (s.FindsOwner toId ctxId) :=
  inferInstanceAs (Decidable (if ctxId = 0 then _ else _))

/-! ## Sending and staging -/

/-- The online id of the owner of the connection's context. -/
def ownerBytes (ci : ConnectionInfo) : List UInt8 :=
  match s.contexts.find? ci.ctxId with
  | some ctx => ctx.ownerOnlineId.data
  | none => List.replicate onlineIdMaxLength 0

def makeHandshakeLocked (ci : ConnectionInfo) (kind : HandshakeKind) (nonce : Int) : SignalingHandshake :=
  ⟨kind, s.ownerBytes ci, ci.onlineId.data, ci.connId, s.externalIp, nonce⟩

def makeControlLocked (ci : ConnectionInfo) (kind : ControlKind) : SignalingControl :=
  ⟨kind, s.ownerBytes ci, ci.onlineId.data, ci.connId, s.externalIp, .terminate⟩

def send (packet : Packet) (addr port : Nat) : Signaling :=
  { s with sent := s.sent ++ [⟨packet, addr, port⟩] }

/-- Send to the connection's peer, if there is an address. -/
def sendToPeer (ci : ConnectionInfo) (packet : Packet) : Signaling :=
  if ci.HasPeerAddress then s.send packet ci.addr ci.port else s

def sendHandshakeLocked (ci : ConnectionInfo) (pkt : SignalingHandshake) : Signaling :=
  s.sendToPeer ci (.handshake pkt)

def sendActivationRequestLocked (ci : ConnectionInfo) : Signaling :=
  s.sendToPeer ci (.control (s.makeControlLocked ci .activationRequest))

def sendControlCloseLocked (ci : ConnectionInfo) (reason : ControlReason) : Signaling :=
  s.sendToPeer ci (.control { s.makeControlLocked ci .close with reason := reason })

def stageBasicCallbackLocked (ctx : NpSignalingContext) (event : StagedEvent) : Signaling :=
  if !ctx.callback ∨ s.dispatchStop then s else { s with staged := s.staged ++ [event] }

def dispatchConnectionEvent (connId : Int) (eventType : EventType) (eventData : EventData) : Signaling :=
  match s.connections.find? connId with
  | none => s
  | some ci =>
    match s.contexts.find? ci.ctxId with
    | none => s
    | some ctx =>
      if ctx.active then
        s.stageBasicCallbackLocked ctx ⟨ci.ctxId, connId, ci.serial, eventType, eventData⟩
      else s

/-- The owner of the connection's context. -/
def localNpid (ci : ConnectionInfo) : OrbisNpId :=
  match s.contexts.find? ci.ctxId with
  | some owner => owner.ownerNpid
  | none => npIdFromOnlineId ConnectionInfo.zeroOnlineId

/-- One turn of the loop of `DispatchPeerActivatedEvent`. -/
def stagePeerActivated (connId : Int) (ci : ConnectionInfo) (localNpid : OrbisNpId)
    (e : Int × NpSignalingContext) : Signaling :=
  if e.1 = ci.ctxId ∨ !e.2.active then s
  else if e.2.ownerNpid = localNpid then
    s.stageBasicCallbackLocked e.2 ⟨e.1, connId, ci.serial, .peerActivated, .ok⟩
  else s

/-- The event goes to the other contexts of the same owner. -/
def dispatchPeerActivatedEvent (connId : Int) : Signaling :=
  match s.connections.find? connId with
  | none => s
  | some ci =>
    s.contexts.entries.foldl (fun s' e => s'.stagePeerActivated connId ci (s.localNpid ci) e) s

/-! ## Sending and staging leave the tables alone -/

variable {ci : ConnectionInfo} {connId : Int}

@[simp] theorem sendToPeer_tables {packet : Packet} :
    (s.sendToPeer ci packet).toSignalingTables = s.toSignalingTables := by
  unfold sendToPeer
  split <;> rfl

@[simp] theorem sendHandshakeLocked_tables {pkt : SignalingHandshake} :
    (s.sendHandshakeLocked ci pkt).toSignalingTables = s.toSignalingTables := s.sendToPeer_tables

@[simp] theorem sendActivationRequestLocked_tables :
    (s.sendActivationRequestLocked ci).toSignalingTables = s.toSignalingTables := s.sendToPeer_tables

@[simp] theorem sendControlCloseLocked_tables {reason : ControlReason} :
    (s.sendControlCloseLocked ci reason).toSignalingTables = s.toSignalingTables := s.sendToPeer_tables

@[simp] theorem stageBasicCallbackLocked_tables {ctx : NpSignalingContext} {event : StagedEvent} :
    (s.stageBasicCallbackLocked ctx event).toSignalingTables = s.toSignalingTables := by
  unfold stageBasicCallbackLocked
  split <;> rfl

@[simp] theorem dispatchConnectionEvent_tables {eventType : EventType} {eventData : EventData} :
    (s.dispatchConnectionEvent connId eventType eventData).toSignalingTables = s.toSignalingTables := by
  unfold dispatchConnectionEvent
  split
  · rfl
  split
  · rfl
  split
  · exact s.stageBasicCallbackLocked_tables
  · rfl

@[simp] theorem stagePeerActivated_tables {localNpid : OrbisNpId} {e : Int × NpSignalingContext} :
    (s.stagePeerActivated connId ci localNpid e).toSignalingTables = s.toSignalingTables := by
  unfold stagePeerActivated
  split
  · rfl
  split
  · exact s.stageBasicCallbackLocked_tables
  · rfl

@[simp] theorem dispatchPeerActivatedEvent_tables :
    (s.dispatchPeerActivatedEvent connId).toSignalingTables = s.toSignalingTables := by
  unfold dispatchPeerActivatedEvent
  cases s.connections.find? connId with
  | none => rfl
  | some ci =>
    simp only
    generalize s.localNpid ci = localNpid
    generalize s.contexts.entries = entries
    induction entries generalizing s with
    | nil => rfl
    | cons e entries ih => rw [List.foldl_cons, ih, stagePeerActivated_tables]

/-! ## Look-ups after changes -/

variable {s}

theorem find?_modifyConnection {connId c : Int} {f : ConnectionInfo → ConnectionInfo} :
    (s.modifyConnection connId f).connections.find? c =
      if c = connId then (s.connections.find? connId).map f else s.connections.find? c :=
  StdMap.find?_modify

theorem find?_modifyConnection_eq_some {connId c : Int} {f : ConnectionInfo → ConnectionInfo}
    (h : (s.modifyConnection connId f).connections.find? c = some ci) :
    s.connections.find? c = some ci ∧ c ≠ connId ∨
      ∃ ci', c = connId ∧ s.connections.find? connId = some ci' ∧ f ci' = ci := by
  rw [find?_modifyConnection] at h
  split at h
  · next heq => exact .inr ((Option.map_eq_some_iff.mp h).imp fun ci' h => ⟨heq, h⟩)
  · next hne => exact .inl ⟨h, hne⟩

/-- Where there is no connection there is nothing to change. -/
theorem modifyConnection_of_none (h : s.connections.find? connId = none)
    (f : ConnectionInfo → ConnectionInfo) : s.modifyConnection connId f = s := by
  unfold modifyConnection StdMap.modify
  rw [h]

theorem modifyConnection_congr {s' : Signaling} (h : s'.toSignalingTables = s.toSignalingTables)
    (f : ConnectionInfo → ConnectionInfo) :
    (s'.modifyConnection connId f).toSignalingTables = (s.modifyConnection connId f).toSignalingTables := by
  unfold modifyConnection
  rw [h]

theorem modifyConnection_modifyConnection {f g : ConnectionInfo → ConnectionInfo} :
    (s.modifyConnection connId f).modifyConnection connId g = s.modifyConnection connId fun ci => g (f ci) := by
  have hconnections : (s.connections.modify connId f).modify connId g =
      s.connections.modify connId fun ci => g (f ci) := by
    refine StdMap.ext_find? fun c => ?_
    simp only [StdMap.find?_modify]
    split
    · rw [if_pos trivial, Option.map_map]
      rfl
    · rfl
  unfold modifyConnection
  rw [hconnections]

theorem find?_insertConnection {connId c : Int} : (s.insertConnection connId ci).connections.find? c =
      if c = connId then some ci else s.connections.find? c :=
  StdMap.find?_insert

theorem removeConnectionLocked_connections : (s.removeConnectionLocked connId).connections.find? =
      fun c => if c = connId then none else s.connections.find? c := by
  funext c
  unfold removeConnectionLocked
  cases hfind : s.connections.find? connId with
  | none =>
    by_cases h : c = connId
    · rw [if_pos h, h, hfind]
    · rw [if_neg h]
  | some ci => exact StdMap.find?_erase

theorem find?_of_removeConnectionLocked {connId c : Int}
    (h : (s.removeConnectionLocked connId).connections.find? c = some ci) :
    c ≠ connId ∧ s.connections.find? c = some ci := by
  rw [removeConnectionLocked_connections] at h
  simp only at h
  split at h
  · cases h
  · next hne => exact ⟨hne, h⟩

/-- A connection that is left was not on the list. -/
theorem find?_of_removeConnectionsLocked {connIds : List Int}
    (hfind : (s.removeConnectionsLocked connIds).connections.find? connId = some ci) :
    connId ∉ connIds ∧ s.connections.find? connId = some ci := by
  unfold removeConnectionsLocked at hfind
  induction connIds generalizing s with
  | nil => exact ⟨List.not_mem_nil, hfind⟩
  | cons c connIds ih =>
    obtain ⟨hnot, hremoved⟩ := ih hfind
    obtain ⟨hne, hold⟩ := find?_of_removeConnectionLocked hremoved
    exact ⟨fun h => (List.mem_cons.mp h).elim hne hnot, hold⟩

theorem mem_connectionIds {p : ConnectionInfo → Bool} (hfind : s.connections.find? connId = some ci)
    (hp : p ci = true) : connId ∈ s.connectionIds p :=
  List.mem_map.mpr ⟨(connId, ci), List.mem_filter.mpr ⟨StdMap.mem_entries_iff.mpr hfind, hp⟩, rfl⟩

/-- Removing a connection forgets a change that kept its context and its peer. -/
theorem removeConnectionLocked_modifyConnection {connId : Int} {f : ConnectionInfo → ConnectionInfo}
    (hf : ∀ ci, s.connections.find? connId = some ci → (f ci).ctxId = ci.ctxId ∧ (f ci).npid = ci.npid) :
    (s.modifyConnection connId f).removeConnectionLocked connId = s.removeConnectionLocked connId := by
  have hfind : (s.modifyConnection connId f).connections.find? connId = (s.connections.find? connId).map f := by
    rw [find?_modifyConnection, if_pos rfl]
  unfold removeConnectionLocked
  rw [hfind]
  cases hconn : s.connections.find? connId with
  | none => exact modifyConnection_of_none hconn f
  | some ci =>
    have herase : (s.modifyConnection connId f).connections.erase connId = s.connections.erase connId := by
      refine StdMap.ext_find? fun c => ?_
      rw [StdMap.find?_erase, StdMap.find?_erase, find?_modifyConnection]
      split <;> rfl
    simp only [Option.map_some, (hf ci hconn).1, (hf ci hconn).2, herase]
    rfl

end Signaling

end NpSignaling
