-- SUMMARY: The operations of NP signaling: API calls, pending activations, packets and callouts, put together from their sections.
import W7PS4.NpSignaling.State

/-!
# Operations

Each function of the source is here as its sections and, where it has more than one, as the
function that runs them one after the other. What a section does to one connection is a
function of `ConnectionInfo`.

A packet that a section makes is put in the log at once, although the source hands it to the
socket after it has left the mutex.
-/

namespace NpSignaling

inductive SignalingError where
  | notInitialized
  | invalidArgument
  | ctxIdNotAvailable
  | ctxNotFound
  | connNotFound
  | ownNpId
  | ownPeerAddress
  | exceedRateLimit
  | outOfMemory
deriving DecidableEq, Repr

/-! ## What sections do to one connection -/

/-- What `EstablishConnection` decides under the mutex. -/
structure Establishing where
  firstEstablish : Bool
  firePeerActivated : Bool
  fireEstablished : Bool
  fireMutual : Bool
deriving DecidableEq, Repr

namespace ConnectionInfo

variable (ci : ConnectionInfo) (calloutCtxActive : Bool)

/-- `CloseConnectionAndDispatchDead`. -/
def markDead : ConnectionInfo :=
  cancelAllCalloutsLocked { ci.setConnStateLocked .inactive with deadFired := true }

/-- The first time that `EstablishConnection` sees the connection. -/
def firstEstablished (now : Int) : ConnectionInfo :=
  armStepCalloutLocked (cancelTimeoutCalloutLocked
    { ci with
      state := .established
      status := .active
      establishedFired := true
      lastPeerRxUs := now
      peerActivatedFired := ci.peerActivatedFired || !ci.locallyActivated }) calloutCtxActive

/-- `EstablishConnection`. -/
def establish (peerActivatedHint : Bool) (now : Int) : ConnectionInfo × Establishing :=
  let hinted := if peerActivatedHint then { ci with peerActivated := true } else ci
  let first := !hinted.establishedFired
  let firePeerActivated := first && !hinted.locallyActivated && !hinted.peerActivatedFired
  let ci := if first then hinted.firstEstablished calloutCtxActive now else hinted
  let fireEstablished := ci.locallyActivated && ci.state == .established && !ci.establishedEventFired
  let fireMutual := ci.locallyActivated && ci.state == .established && ci.peerEstablished && !ci.mutualFired
  ({ ci with
      establishedEventFired := ci.establishedEventFired || fireEstablished
      mutualFired := ci.mutualFired || fireMutual },
    ⟨first, firePeerActivated, fireEstablished, fireMutual⟩)

/-- `DeactivateConnectionFaithful` of an established connection. -/
def linger : ConnectionInfo :=
  armTimeoutCalloutLocked
    (cancelStepCalloutLocked { ci with locallyActivated := false, deactivateLingering := true }) calloutCtxActive

/-- Arm the timeout if it is not armed, and the step callout anew. -/
def armHandshakeCallouts : ConnectionInfo :=
  armStepCalloutLocked (if !ci.timeoutCalloutArmed then ci.armTimeoutCalloutLocked calloutCtxActive else ci)
    calloutCtxActive

/-- `StartHandshakeInitiator`. -/
def startHandshake : ConnectionInfo :=
  (setConnStateLocked { ci with isInitiator := true } .sendingOffer).armHandshakeCallouts calloutCtxActive

/-- The address an `Offer` or `ActivationRequest` leaves. -/
def offerAddress (fromAddr fromPort mappedAddr : Nat) : ConnectionInfo :=
  { ci with addr := if mappedAddr ≠ 0 then mappedAddr else fromAddr, port := fromPort, peerActivated := true }

/-- The address an `Accept` leaves. -/
def acceptAddress (fromAddr fromPort mappedAddr : Nat) : ConnectionInfo :=
  if mappedAddr ≠ 0 then { ci with addr := mappedAddr, peerActivated := true }
  else { ci with addr := fromAddr, port := fromPort, peerActivated := true }

/-- The address an `ActivationAck` leaves. -/
def ackAddress (mappedAddr : Nat) : ConnectionInfo :=
  { ci with addr := if mappedAddr ≠ 0 then mappedAddr else ci.addr, peerActivated := true }

/-- An `Offer` is answered unless the connection is established. -/
def offered (fromAddr fromPort mappedAddr : Nat) : ConnectionInfo :=
  let ci := ci.offerAddress fromAddr fromPort mappedAddr
  if ci.state ≠ .established then (ci.setConnStateLocked .sendingAccept).armHandshakeCallouts calloutCtxActive
  else ci

/-- The states in which an `Accept` leads to the connectivity check. -/
def AwaitsAccept : Prop :=
  ci.state = .sendingOffer ∨ ci.state = .waitAccept ∨ ci.state = .sendingAccept ∨ ci.state = .waitOffer

instance : Decidable ci.AwaitsAccept := inferInstanceAs (Decidable (_ ∨ _))

def accepted (fromAddr fromPort mappedAddr : Nat) : ConnectionInfo :=
  let ci := ci.acceptAddress fromAddr fromPort mappedAddr
  if ci.AwaitsAccept then (ci.setConnStateLocked .connCheck).armStepCalloutLocked calloutCtxActive else ci

def checked : ConnectionInfo :=
  if ci.state = .sendingAccept ∨ ci.state = .waitOffer then ci.setConnStateLocked .connCheck else ci

/-- The last keep-alive answer is too old. -/
def IsStale (now : Int) : Prop := ci.lastPeerRxUs ≠ 0 ∧ now - ci.lastPeerRxUs ≥ 60_000 * 1000

instance (now : Int) : Decidable (ci.IsStale now) := inferInstanceAs (Decidable (_ ∧ _))

/-- The handshake packet that is sent again. -/
def retransmitKind : HandshakeKind :=
  match ci.state with
  | .sendingAccept | .waitOffer => .accept
  | .connCheck => .check
  | _ => .offer

/-- `StepCalloutHandler`: the connection, the packet to send, and whether the peer is dead. -/
def stepped (now : Int) : ConnectionInfo × Option HandshakeKind × Bool :=
  let ci := ci.cancelStepCalloutLocked
  if ci.state = .established then
    if ¬ci.deactivateLingering ∧ ci.HasPeerAddress then
      if ci.IsStale now then (ci, none, true)
      else (ci.armStepCalloutLocked calloutCtxActive, some .check, false)
    else (ci, none, false)
  else if ci.state ≠ .inactive then
    (ci.armStepCalloutLocked calloutCtxActive, some ci.retransmitKind, false)
  else (ci, none, false)

/-- The connection that `sceNpSignalingActivateConnection` creates. -/
def createActivated (serial : Nat) (connId ctxId : Int) (peerNpid : OrbisNpId) : ConnectionInfo :=
  armTimeoutCalloutLocked
    { create serial connId ctxId with
      state := .sendingOffer
      status := .pending
      isInitiator := true
      locallyActivated := true
      npid := peerNpid
      onlineId := peerNpid.handle } calloutCtxActive

/-- The connection that an `ActivationRequest` creates. -/
def createAnswerer (serial : Nat) (connId ctxId : Int) (onlineIdFrom : List UInt8) : ConnectionInfo :=
  { create serial connId ctxId with
    onlineId := setNpOnlineId onlineIdFrom
    npid := npIdFromOnlineId (setNpOnlineId onlineIdFrom) }

/-- The connection that `sceNpSignalingActivateConnectionA` creates. -/
def createForAccount (serial : Nat) (connId ctxId : Int) : ConnectionInfo :=
  { create serial connId ctxId with status := .pending }

/-- An `ActivationRequest` of the peer. -/
def requested (fromAddr fromPort mappedAddr : Nat) : ConnectionInfo :=
  let ci := ci.offerAddress fromAddr fromPort mappedAddr
  if ci.state = .inactive ∧ !ci.timeoutCalloutArmed then ci.armTimeoutCalloutLocked calloutCtxActive else ci

end ConnectionInfo

namespace Signaling

variable (s : Signaling)

/-! ## Closing and establishing -/

/-- The first section of `CloseConnectionAndDispatchDead`, and whether it closed the connection. -/
def markDead (connId : Int) : Signaling × Bool :=
  match s.connections.find? connId with
  | none => (s, false)
  | some ci =>
    if ci.state = .inactive ∨ ci.deadFired then (s, false)
    else (s.modifyConnection connId (·.markDead), true)

def closeConnectionAndDispatchDead (connId : Int) (errorCode : EventData) : Signaling :=
  let r := s.markDead connId
  if r.2 then (r.1.dispatchConnectionEvent connId .dead errorCode).removeConnectionLocked connId else r.1

/-- The first section of `EstablishConnection`. -/
def establish (connId : Int) (peerActivatedHint : Bool) (now : Int) : Signaling × Option Establishing :=
  match s.connections.find? connId with
  | none => (s, none)
  | some ci =>
    let r := ci.establish s.calloutCtxActive peerActivatedHint now
    let s := s.modifyConnection connId fun _ => r.1
    (if r.2.firstEstablish then s.sendToPeer r.1 (.control (s.makeControlLocked r.1 .established)) else s,
      some r.2)

def establishConnection (connId : Int) (peerActivatedHint : Bool) (now : Int) : Signaling :=
  match s.establish connId peerActivatedHint now with
  | (s, none) => s
  | (s, some e) =>
    let s := if e.firePeerActivated then s.dispatchPeerActivatedEvent connId else s
    let s := if e.fireEstablished then s.dispatchConnectionEvent connId .established .ok else s
    if e.fireMutual then s.dispatchConnectionEvent connId .mutualActivated .ok else s

/-- The first section of `DeactivateConnectionFaithful`, and whether the connection is to be closed. -/
def deactivate (connId : Int) : Signaling × Bool :=
  match s.connections.find? connId with
  | none => (s, false)
  | some ci =>
    if ci.state = .established ∧ !ci.deadFired ∧ ci.deactivateLingering then (s, false)
    else if ci.state = .established ∧ !ci.deadFired then
      ((s.sendControlCloseLocked ci .deactivate).modifyConnection connId (·.linger s.calloutCtxActive), false)
    else (s, !ci.deadFired)

def deactivateConnectionFaithful (connId : Int) : Signaling :=
  let r := s.deactivate connId
  if r.2 then r.1.closeConnectionAndDispatchDead connId .terminatedByMyself else r.1

/-- The first section of `TerminateConnectionFaithful`. -/
def sendTerminate (connId : Int) : Signaling :=
  match s.connections.find? connId with
  | none => s
  | some ci => s.sendControlCloseLocked ci .terminate

def terminateConnectionFaithful (connId : Int) : Signaling :=
  (s.sendTerminate connId).closeConnectionAndDispatchDead connId .terminatedByMyself

/-! ## Handshakes -/

def startHandshakeInitiator (connId : Int) : Signaling :=
  match s.connections.find? connId with
  | none => s
  | some ci =>
    let ci := ci.startHandshake s.calloutCtxActive
    (s.modifyConnection connId (·.startHandshake s.calloutCtxActive)).sendHandshakeLocked ci
      (s.makeHandshakeLocked ci .offer 0)

/-- The section of `HandleHandshakePacket` that finds the connection `connId` (0 for none): a reply, and
    whether to establish. -/
def receiveHandshake (fromAddr fromPort : Nat) (pkt : SignalingHandshake) (connId now : Int) :
    Signaling × Option SignalingHandshake × Bool :=
  match s.connections.find? connId with
  | none => (s, none, false)
  | some ci =>
    let ci := { ci with lastPeerRxUs := now }
    let store := fun ci => s.modifyConnection connId fun _ => ci
    match pkt.kind with
    | .offer =>
      (store (ci.offered s.calloutCtxActive fromAddr fromPort pkt.mappedAddr),
        if ci.state ≠ .established then some (s.makeHandshakeLocked ci .accept 0) else none, false)
    | .accept =>
      (store (ci.accepted s.calloutCtxActive fromAddr fromPort pkt.mappedAddr),
        if ci.AwaitsAccept then some (s.makeHandshakeLocked ci .check now) else none, false)
    | .check => (store ci.checked, some (s.makeHandshakeLocked ci .checkAck pkt.nonce), false)
    | .checkAck => (store ci, none, ci.state ≠ .established)
    | .unknown => (store ci, none, false)

/-- The section of `HandleHandshakePacket` that sends the reply. -/
def sendReply (connId : Int) (reply : SignalingHandshake) : Signaling :=
  match s.connections.find? connId with
  | none => s
  | some ci => s.sendHandshakeLocked ci reply

def handleHandshakePacket (fromAddr fromPort : Nat) (pkt : SignalingHandshake) (connId now : Int) : Signaling :=
  let r := s.receiveHandshake fromAddr fromPort pkt connId now
  let s := match r.2.1 with
    | some reply => r.1.sendReply connId reply
    | none => r.1
  if r.2.2 then s.establishConnection connId true now else s

/-! ## Callouts -/

/-- The first section of `TimeoutCalloutHandler`, and whether the connection is to be closed. -/
def timeoutExpired (connId : Int) : Signaling × Bool :=
  match s.connections.find? connId with
  | none => (s, false)
  | some ci =>
    (s.modifyConnection connId (·.cancelTimeoutCalloutLocked), ci.state ≠ .established || ci.deactivateLingering)

def timeoutCalloutHandler (connId : Int) : Signaling :=
  let r := s.timeoutExpired connId
  if r.2 then r.1.closeConnectionAndDispatchDead connId .timeout else r.1

/-- The first section of `StepCalloutHandler`, and whether the connection is to be closed. -/
def stepExpired (connId now : Int) : Signaling × Bool :=
  match s.connections.find? connId with
  | none => (s, false)
  | some ci =>
    let r := ci.stepped s.calloutCtxActive now
    let s := s.modifyConnection connId fun _ => r.1
    match r.2.1 with
    | some kind =>
      (s.sendHandshakeLocked r.1 (s.makeHandshakeLocked r.1 kind (if kind = .check then now else 0)), r.2.2)
    | none => (s, r.2.2)

def stepCalloutHandler (connId now : Int) : Signaling :=
  let r := s.stepExpired connId now
  if r.2 then r.1.closeConnectionAndDispatchDead connId .timeout else r.1

/-! ## Control packets -/

/-- What `HandleControlPacket` goes on with after its first section. -/
inductive ControlNext where
  | done
  | startHandshake
  | establish
  | peerDeactivated
  | close
deriving DecidableEq, Repr

/-- A connection for a peer that asks for one: the owner's context is `ctxId` (0 for none). -/
def createAnswerer (pkt : SignalingControl) (ctxId : Int) (rnd : Nat) : Option Int × Signaling :=
  if ctxId = 0 then (none, s)
  else
    match s.allocateConnectionIdLocked rnd with
    | (none, s) => (none, s)
    | (some connId, s) =>
      let ci := ConnectionInfo.createAnswerer s.nextSerial connId ctxId pkt.onlineIdFrom
      (some connId, (s.insertConnection connId ci).setNpidToConn (ctxId, ci.npid) connId)

/-- An `ActivationRequest` for a connection that is there. -/
def answerRequest (fromAddr fromPort : Nat) (pkt : SignalingControl) (connId : Int) : Signaling × ControlNext :=
  match s.connections.find? connId with
  | none => (s, .done)
  | some ci =>
    let ci' := ci.requested s.calloutCtxActive fromAddr fromPort pkt.mappedAddr
    let s := s.modifyConnection connId fun _ => ci'
    (s.sendToPeer ci' (.control (s.makeControlLocked ci' .activationAck)),
      if ci.state = .inactive then .startHandshake else .done)

/-- The section of `HandleControlPacket` that finds the connection `connId` and the context `ctxId` (0 for
    none): the connection it is about, and what to go on with. -/
def receiveControl (fromAddr fromPort : Nat) (pkt : SignalingControl) (connId ctxId : Int) (rnd : Nat) :
    Signaling × Int × ControlNext :=
  match pkt.kind with
  | .activationRequest =>
    if connId = 0 then
      match s.createAnswerer pkt ctxId rnd with
      | (none, s) => (s, 0, .done)
      | (some connId, s) =>
        let r := s.answerRequest fromAddr fromPort pkt connId
        (r.1, connId, r.2)
    else
      let r := s.answerRequest fromAddr fromPort pkt connId
      (r.1, connId, r.2)
  | .activationAck => (s.modifyConnection connId (·.ackAddress pkt.mappedAddr), connId, .done)
  | .established =>
    match s.connections.find? connId with
    | none => (s, connId, .done)
    | some ci =>
      (s.modifyConnection connId fun ci => { ci with peerEstablished := true }, connId,
        if ci.state = .established then .establish else .done)
  | .close =>
    match s.connections.find? connId with
    | none => (s, connId, .done)
    | some ci =>
      (s, connId, if pkt.reason = .deactivate ∧ ci.state = .established then .peerDeactivated else .close)
  | .unknown => (s, connId, .done)

def handleControlPacket (fromAddr fromPort : Nat) (pkt : SignalingControl) (connId ctxId : Int) (rnd : Nat)
    (now : Int) : Signaling :=
  let r := s.receiveControl fromAddr fromPort pkt connId ctxId rnd
  match r.2.2 with
  | .done => r.1
  | .startHandshake => r.1.startHandshakeInitiator r.2.1
  | .establish => r.1.establishConnection r.2.1 false now
  | .peerDeactivated => r.1.dispatchConnectionEvent r.2.1 .peerDeactivated .ok
  | .close => r.1.closeConnectionAndDispatchDead r.2.1 .terminatedByPeer

/-! ## Contexts -/

def activateCooldownUs : Int := 6_000_000
def activateBudgetMaxUs : Int := 600_000_000

def insertContext (ctxId : Int) (ctx : NpSignalingContext) : Signaling :=
  { s with contexts := s.contexts.insert ctxId ctx }

def createContext (npid : Option OrbisNpId) (callback : Bool) (compiledSdkVersion : Nat) (now : Int) :
    Except SignalingError Int × Signaling :=
  if !s.initialized then (.error .notInitialized, s)
  else
    match npid with
    | none => (.error .invalidArgument, s)
    | some npid =>
      if !isValidNpId npid then (.error .invalidArgument, s)
      else
        match s.allocateContextIdLocked with
        | (none, s) => (.error .ctxIdNotAvailable, s)
        | (some ctxId, s) =>
          (.ok ctxId, s.insertContext ctxId
            ⟨callback, true, 0x2, compiledSdkVersion, 0, 0, npid, npid.handle, activateBudgetMaxUs, now⟩)

/-- `npid` is what `sceNpGetNpId` returns for the user. -/
def createContextA (npid : Option OrbisNpId) (callback : Bool) (compiledSdkVersion : Nat) (now : Int) :
    Except SignalingError Int × Signaling :=
  if !s.initialized then (.error .notInitialized, s)
  else
    match npid with
    | none => (.error .invalidArgument, s)
    | some npid =>
      match s.allocateContextIdLocked with
      | (none, s) => (.error .ctxIdNotAvailable, s)
      | (some ctxId, s) =>
        (.ok ctxId, s.insertContext ctxId
          ⟨callback, true, 0x6, compiledSdkVersion, 0, 0, npid, npid.handle, activateBudgetMaxUs, now⟩)

/-- The last section of `sceNpSignalingDeleteContext`. -/
def eraseContext (ctxId : Int) : Signaling :=
  let s := s.removeContextConnectionsLocked ctxId
  { s with contexts := s.contexts.erase ctxId }

/-- The connections that `sceNpSignalingDeleteContext` closes first. -/
def activeConnections (ctxId : Int) : List Int :=
  s.connectionIds fun ci => ci.ctxId = ctxId ∧ ci.status ≠ .inactive

def deleteContext (ctxId : Int) : Except SignalingError Unit × Signaling :=
  if !s.initialized then (.error .notInitialized, s)
  else
    let closed := (s.activeConnections ctxId).foldl
      (fun s connId => s.closeConnectionAndDispatchDead connId .terminatedByPeer) s
    (.ok (), closed.eraseContext ctxId)

/-! ## Activation -/

def consumeActivationBudgetLocked (ctx : NpSignalingContext) (now : Int) : Bool × NpSignalingContext :=
  let budget :=
    if ctx.activateLastUpdateUs = 0 then activateBudgetMaxUs
    else min activateBudgetMaxUs (ctx.activateBudgetUs + max 0 (now - ctx.activateLastUpdateUs))
  if budget < activateCooldownUs then
    (false, { ctx with activateLastUpdateUs := now, activateBudgetUs := budget })
  else (true, { ctx with activateLastUpdateUs := now, activateBudgetUs := budget - activateCooldownUs })

def consumeActivationBudgetGatedLocked (ctx : NpSignalingContext) (now : Int) : Bool × NpSignalingContext :=
  if ctx.compiledSdkVersion ≤ 0x16fffff then (true, ctx) else consumeActivationBudgetLocked ctx now

/-- Take an activation from the budget of a context. -/
def chargeActivation (ctxId : Int) (ctx : NpSignalingContext) (now : Int) : Bool × Signaling :=
  let r := consumeActivationBudgetGatedLocked ctx now
  (r.1, s.insertContext ctxId r.2)

/-- The checks of `sceNpSignalingActivateConnection`: the peer it goes on with. -/
def admitActivation (ctxId : Int) (peerNpid : Option OrbisNpId) (now : Int) :
    Except SignalingError OrbisNpId × Signaling :=
  if !s.initialized then (.error .notInitialized, s)
  else
    match peerNpid with
    | none => (.error .invalidArgument, s)
    | some npid =>
      if !isValidNpId npid then (.error .invalidArgument, s)
      else
        match s.contexts.find? ctxId with
        | none => (.error .ctxNotFound, s)
        | some ctx =>
          if !ctx.active then (.error .ctxNotFound, s)
          else if ctx.ownerNpid = npid then (.error .ownNpId, s)
          else
            match s.chargeActivation ctxId ctx now with
            | (false, s) => (.error .exceedRateLimit, s)
            | (true, s) => (.ok npid, s)

/-- The connection that a look-up by peer finds, if it can be used again. -/
def reusableConnection (ctxId : Int) (npid : OrbisNpId) : Option (Int × ConnectionInfo) :=
  match s.npidToConn (ctxId, npid) with
  | none => none
  | some connId =>
    match s.connections.find? connId with
    | none => none
    | some ci => if ci.state = .inactive then none else some (connId, ci)

/-- Remove what is left of a connection that cannot be used again. -/
def dropInactive (ctxId : Int) (npid : OrbisNpId) : Signaling :=
  match s.npidToConn (ctxId, npid) with
  | none => s
  | some connId =>
    match s.connections.find? connId with
    | none => s
    | some ci => if ci.state = .inactive then s.removeConnectionLocked connId else s

def queueActivationLocked (connId : Int) (npid : OrbisNpId) (startHandshake : Bool) : Signaling :=
  { s with pendingActivations :=
      s.pendingActivations ++ [⟨connId, onlineIdToString npid.handle, startHandshake⟩] }

/-- Activate a connection that is there; the result says whether to establish it. -/
def reactivate (connId : Int) (ci : ConnectionInfo) (npid : OrbisNpId) : Bool × Signaling :=
  let s := s.modifyConnection connId fun ci =>
    ConnectionInfo.clearLingerAndTimeoutLocked { ci with locallyActivated := true }
  if !ci.locallyActivated then (false, s.queueActivationLocked connId npid (ci.state ≠ .established))
  else (ci.state = .established, s)

/-- Create a connection for a peer. -/
def createActivated (ctxId : Int) (npid : OrbisNpId) (rnd : Nat) : Option Int × Signaling :=
  match (s.dropInactive ctxId npid).allocateConnectionIdLocked rnd with
  | (none, s) => (none, s)
  | (some connId, s) =>
    let ci := ConnectionInfo.createActivated s.calloutCtxActive s.nextSerial connId ctxId npid
    (some connId, ((s.insertConnection connId ci).setNpidToConn (ctxId, npid) connId).queueActivationLocked
      connId npid true)

/-- The section of `sceNpSignalingActivateConnection`: the connection, and whether to establish it. -/
def activate (ctxId : Int) (peerNpid : Option OrbisNpId) (now : Int) (rnd : Nat) :
    Except SignalingError (Int × Bool) × Signaling :=
  match s.admitActivation ctxId peerNpid now with
  | (.error e, s) => (.error e, s)
  | (.ok npid, s) =>
    match s.reusableConnection ctxId npid with
    | some (connId, ci) =>
      let r := s.reactivate connId ci npid
      (.ok (connId, r.1), r.2)
    | none =>
      match s.createActivated ctxId npid rnd with
      | (none, s) => (.error .outOfMemory, s)
      | (some connId, s) => (.ok (connId, false), s)

def activateConnection (ctxId : Int) (peerNpid : Option OrbisNpId) (now : Int) (rnd : Nat) :
    Except SignalingError Int × Signaling :=
  match s.activate ctxId peerNpid now rnd with
  | (.error e, s) => (.error e, s)
  | (.ok (connId, establish), s) =>
    (.ok connId, if establish then s.establishConnection connId false now else s)

/-- `peerAddr` is an account id and a platform type. -/
def activateConnectionA (ctxId : Int) (peerAddr : Option (Nat × Nat)) (now : Int) (rnd : Nat) :
    Except SignalingError Int × Signaling :=
  if !s.initialized then (.error .notInitialized, s)
  else
    match peerAddr with
    | none => (.error .invalidArgument, s)
    | some (accountId, platformType) =>
      if accountId = 0 ∨ platformType = 0 then (.error .invalidArgument, s)
      else
        match s.contexts.find? ctxId with
        | none => (.error .ctxNotFound, s)
        | some ctx =>
          if !ctx.active then (.error .ctxNotFound, s)
          else if ctx.flags &&& 0x4 ≠ 0 ∧ ctx.accountId = accountId ∧ ctx.platformType = platformType then
            (.error .ownPeerAddress, s)
          else
            match s.chargeActivation ctxId ctx now with
            | (false, s) => (.error .exceedRateLimit, s)
            | (true, s) =>
              match s.allocateConnectionIdLocked rnd with
              | (none, s) => (.error .outOfMemory, s)
              | (some connId, s) =>
                (.ok connId, s.insertConnection connId
                  (ConnectionInfo.createForAccount s.nextSerial connId ctxId))

/-- The checks of `sceNpSignalingDeactivateConnection` and `sceNpSignalingTerminateConnection`. -/
def checkConnection (ctxId connId : Int) : Except SignalingError Unit :=
  if !s.initialized then .error .notInitialized
  else if !s.isContextValidLocked ctxId then .error .ctxNotFound
  else if (s.connections.find? connId).any (·.ctxId = ctxId) then .ok ()
  else .error .connNotFound

def deactivateConnection (ctxId connId : Int) : Except SignalingError Unit × Signaling :=
  match s.checkConnection ctxId connId with
  | .error e => (.error e, s)
  | .ok () => (.ok (), s.deactivateConnectionFaithful connId)

def terminateConnection (ctxId connId : Int) : Except SignalingError Unit × Signaling :=
  match s.checkConnection ctxId connId with
  | .error e => (.error e, s)
  | .ok () => (.ok (), (s.terminateConnectionFaithful connId).removeConnectionLocked connId)

/-! ## Pending activations -/

/-- The connection is there and not inactive. -/
def isLive (connId : Int) : Bool := (s.connections.find? connId).any (·.state ≠ .inactive)

/-- The section of `ProcessPendingActivations` that stores the resolved endpoint, and whether the
    connection is established, if it is live. -/
def sendActivation (connId : Int) (addr port : Nat) : Signaling × Option Bool :=
  match s.connections.find? connId with
  | none => (s, none)
  | some ci =>
    if ci.state = .inactive then (s, none)
    else
      let ci := { ci with addr := addr, port := port }
      ((s.modifyConnection connId fun ci => { ci with addr := addr, port := port }).sendActivationRequestLocked ci,
        some (ci.state = .established))

/-- One turn of the loop; `resolvePeer` gives the endpoint of a peer. -/
def processActivation (resolvePeer : List UInt8 → Option (Nat × Nat)) (now : Int) (act : PendingActivation) :
    Signaling :=
  if !s.isLive act.connId then s
  else
    match resolvePeer act.peerOnlineId with
    | none => s
    | some (addr, port) =>
      if addr = 0 ∨ port = 0 then s
      else
        match s.sendActivation act.connId addr port with
        | (s, none) => s
        | (s, some alreadyEstablished) =>
          if act.startHandshake then s.startHandshakeInitiator act.connId
          else if alreadyEstablished then s.establishConnection act.connId false now
          else s

def processPendingActivations (resolvePeer : List UInt8 → Option (Nat × Nat)) (now : Int) : Signaling :=
  s.pendingActivations.foldl (fun s act => s.processActivation resolvePeer now act)
    { s with pendingActivations := [] }

/-! ## Starting and stopping -/

/-- None of what it calls fails. -/
def sceNpSignalingInitialize : Signaling :=
  if s.initialized then s
  else { s with initialized := true, dispatchStop := false, calloutCtxActive := true }

def sceNpSignalingTerminate : Signaling :=
  if !s.initialized then s
  else
    { s with
      initialized := false
      dispatchStop := true
      calloutCtxActive := false
      contexts := ∅
      connections := ∅
      npidToConn := fun _ => none }

end Signaling

/-! ## Steps -/

inductive SignalingAction where
  | init
  | term
  | createContext (npid : Option OrbisNpId) (callback : Bool) (compiledSdkVersion : Nat) (now : Int)
  | createContextA (npid : Option OrbisNpId) (callback : Bool) (compiledSdkVersion : Nat) (now : Int)
  | deleteContext (ctxId : Int)
  | activate (ctxId : Int) (peerNpid : Option OrbisNpId) (now : Int) (rnd : Nat)
  | activateA (ctxId : Int) (peerAddr : Option (Nat × Nat)) (now : Int) (rnd : Nat)
  | deactivate (ctxId connId : Int)
  | terminateConnection (ctxId connId : Int)
  | processPending (resolvePeer : List UInt8 → Option (Nat × Nat)) (now : Int)
  /-- With the connection that the look-up finds. -/
  | handshake (fromAddr fromPort : Nat) (pkt : SignalingHandshake) (connId now : Int)
  /-- With the connection and the owner's context that the look-ups find. -/
  | control (fromAddr fromPort : Nat) (pkt : SignalingControl) (connId ctxId : Int) (rnd : Nat) (now : Int)
  | timeout (connId : Int)
  | step (connId now : Int)
  /-- The address that a STUN echo reports. -/
  | externalIp (addr : Nat)

/-- One operation from its beginning to its end. The look-ups find what is there to be found. -/
def Signaling.perform (s : Signaling) : SignalingAction → Option Signaling
  | .init => some s.sceNpSignalingInitialize
  | .term => some s.sceNpSignalingTerminate
  | .createContext npid callback sdk now => some (s.createContext npid callback sdk now).2
  | .createContextA npid callback sdk now => some (s.createContextA npid callback sdk now).2
  | .deleteContext ctxId => some (s.deleteContext ctxId).2
  | .activate ctxId peerNpid now rnd => some (s.activateConnection ctxId peerNpid now rnd).2
  | .activateA ctxId peerAddr now rnd => some (s.activateConnectionA ctxId peerAddr now rnd).2
  | .deactivate ctxId connId => some (s.deactivateConnection ctxId connId).2
  | .terminateConnection ctxId connId => some (s.terminateConnection ctxId connId).2
  | .processPending resolvePeer now => some (s.processPendingActivations resolvePeer now)
  | .handshake fromAddr fromPort pkt connId now =>
    if s.FindsPeer (idString pkt.onlineIdFrom) connId then
      some (s.handleHandshakePacket fromAddr fromPort pkt connId now)
    else none
  | .control fromAddr fromPort pkt connId ctxId rnd now =>
    if s.FindsPeer (idString pkt.onlineIdFrom) connId ∧ s.FindsOwner (idString pkt.onlineIdTo) ctxId then
      some (s.handleControlPacket fromAddr fromPort pkt connId ctxId rnd now)
    else none
  | .timeout connId => some (s.timeoutCalloutHandler connId)
  | .step connId now => some (s.stepCalloutHandler connId now)
  | .externalIp addr => some { s with externalIp := addr }

/-- The history keeps the events that are staged. -/
def Signaling.step (s : Signaling) (a : SignalingAction) : Option (Signaling × List StagedEvent) :=
  (s.perform a).map fun s' => (s', s'.staged.drop s.staged.length)

/-! ## Closing removes the connection -/

namespace Signaling

variable {s s' : Signaling} {connId : Int} {ci : ConnectionInfo}

theorem removeConnectionLocked_congr {s s' : Signaling} (h : s'.toSignalingTables = s.toSignalingTables) :
    (s'.removeConnectionLocked connId).toSignalingTables = (s.removeConnectionLocked connId).toSignalingTables := by
  unfold removeConnectionLocked
  rw [h]
  split
  · exact h
  · rfl

theorem closeConnectionAndDispatchDead_of_live {ci : ConnectionInfo} (hfind : s.connections.find? connId = some ci)
    (hlive : ¬(ci.state = .inactive ∨ ci.deadFired)) (errorCode : EventData) :
    (s.closeConnectionAndDispatchDead connId errorCode).toSignalingTables =
      (s.removeConnectionLocked connId).toSignalingTables := by
  have hmark : s.markDead connId = (s.modifyConnection connId (·.markDead), true) := by
    unfold markDead
    rw [hfind]
    exact if_neg hlive
  unfold closeConnectionAndDispatchDead
  rw [hmark]
  simp only [if_true]
  rw [removeConnectionLocked_congr (dispatchConnectionEvent_tables _)]
  rw [@removeConnectionLocked_modifyConnection s connId (·.markDead) fun _ _ => ⟨rfl, rfl⟩]

/-- A connection that is inactive or marked dead is left as it is. -/
theorem closeConnectionAndDispatchDead_of_not_live
    (hdead : ∀ ci, s.connections.find? connId = some ci → ci.state = .inactive ∨ ci.deadFired)
    (errorCode : EventData) : s.closeConnectionAndDispatchDead connId errorCode = s := by
  have hmark : s.markDead connId = (s, false) := by
    unfold markDead
    split
    · rfl
    · next ci hfind => exact if_pos (hdead ci hfind)
  unfold closeConnectionAndDispatchDead
  rw [hmark]
  exact if_neg Bool.false_ne_true

/-! ## What an admitted activation found -/

theorem consumeActivationBudgetGatedLocked_keeps {ctx : NpSignalingContext} {now : Int} :
    (consumeActivationBudgetGatedLocked ctx now).2.callback = ctx.callback ∧
      (consumeActivationBudgetGatedLocked ctx now).2.active = ctx.active := by
  unfold consumeActivationBudgetGatedLocked
  split
  · exact ⟨rfl, rfl⟩
  unfold consumeActivationBudgetLocked
  simp only
  split <;> split <;> exact ⟨rfl, rfl⟩

/-- Of the tables an admission writes at most the budget of the context. -/
theorem admitActivation_state {ctxId now : Int} {peerNpid : Option OrbisNpId} :
    (s.admitActivation ctxId peerNpid now).2 = s ∨
      s.initialized = true ∧ ∃ ctx ctx', s.contexts.find? ctxId = some ctx ∧
        (ctx'.callback = ctx.callback ∧ ctx'.active = ctx.active) ∧
        (s.admitActivation ctxId peerNpid now).2 = s.insertContext ctxId ctx' := by
  unfold admitActivation
  split
  · exact .inl rfl
  rename_i hon
  have hon : s.initialized = true := by simpa using hon
  split
  · exact .inl rfl
  split
  · exact .inl rfl
  split
  · exact .inl rfl
  rename_i ctx hfind
  split
  · exact .inl rfl
  split
  · exact .inl rfl
  split
  all_goals
    next heq =>
    obtain ⟨-, rfl⟩ := Prod.mk.inj heq
    exact .inr ⟨hon, ctx, _, hfind, consumeActivationBudgetGatedLocked_keeps, rfl⟩

theorem admitActivation_ok {ctxId now : Int} {peerNpid : Option OrbisNpId} {npid : OrbisNpId} {s' : Signaling}
    (h : s.admitActivation ctxId peerNpid now = (.ok npid, s')) :
    s.initialized = true ∧ peerNpid = some npid ∧ isValidNpId npid = true ∧
      ∃ ctx ctx', s.contexts.find? ctxId = some ctx ∧ (ctx'.callback = ctx.callback ∧ ctx'.active = ctx.active) ∧
        s' = s.insertContext ctxId ctx' := by
  unfold admitActivation at h
  split at h
  · cases (Prod.mk.inj h).1
  rename_i hon
  have hon : s.initialized = true := by simpa using hon
  split at h
  · cases (Prod.mk.inj h).1
  rename_i npid'
  split at h
  · cases (Prod.mk.inj h).1
  rename_i hvalid
  have hvalid : isValidNpId npid' = true := by simpa using hvalid
  split at h
  · cases (Prod.mk.inj h).1
  rename_i ctx hfind
  split at h
  · cases (Prod.mk.inj h).1
  split at h
  · cases (Prod.mk.inj h).1
  split at h
  · cases (Prod.mk.inj h).1
  rename_i heq
  obtain ⟨-, rfl⟩ := Prod.mk.inj heq
  obtain ⟨hok, rfl⟩ := Prod.mk.inj h
  cases hok
  exact ⟨hon, rfl, hvalid, ctx, _, hfind, consumeActivationBudgetGatedLocked_keeps, rfl⟩

/-! ## After its first section, establishing only dispatches events -/

theorem establishConnection_tables {hint : Bool} {now : Int} :
    (s.establishConnection connId hint now).toSignalingTables = (s.establish connId hint now).1.toSignalingTables := by
  unfold establishConnection
  split
  · next heq => rw [heq]
  rename_i s' e heq
  rw [heq]
  simp only
  split <;> split <;> split <;> simp

/-! ## The tables after the sections that send -/

theorem startHandshakeInitiator_tables :
    (s.startHandshakeInitiator connId).toSignalingTables =
      (s.modifyConnection connId (·.startHandshake s.calloutCtxActive)).toSignalingTables := by
  unfold startHandshakeInitiator
  split
  · next hnone => rw [modifyConnection_of_none hnone]
  · exact sendHandshakeLocked_tables _

theorem isLive_iff : s.isLive connId = true ↔ ∃ ci, s.connections.find? connId = some ci ∧ ci.state ≠ .inactive := by
  unfold isLive
  cases s.connections.find? connId with
  | none => simp
  | some ci => simp

theorem sendActivation_tables (addr port : Nat) (hlive : s.isLive connId = true) :
    (s.sendActivation connId addr port).1.toSignalingTables =
      (s.modifyConnection connId fun ci => { ci with addr := addr, port := port }).toSignalingTables := by
  obtain ⟨ci, hfind, hstate⟩ := isLive_iff.mp hlive
  unfold sendActivation
  rw [hfind]
  simp only [if_neg hstate]
  exact sendActivationRequestLocked_tables _

theorem sendActivation_isSome (addr port : Nat) (hlive : s.isLive connId = true) :
    (s.sendActivation connId addr port).2.isSome = true := by
  obtain ⟨ci, hfind, hstate⟩ := isLive_iff.mp hlive
  unfold sendActivation
  rw [hfind]
  simp only [if_neg hstate]
  rfl

/-! ## Steps and look-ups that succeed -/

theorem step_eq_some {a : SignalingAction} {es : List StagedEvent} (h : s.step a = some (s', es)) :
    s.perform a = some s' := by
  unfold Signaling.step at h
  obtain ⟨s'', hperform, heq⟩ := Option.map_eq_some_iff.mp h
  obtain ⟨rfl, -⟩ := Prod.mk.inj heq
  exact hperform

theorem reusableConnection_eq_some {ctxId : Int} {npid : OrbisNpId}
    (h : s.reusableConnection ctxId npid = some (connId, ci)) :
    s.npidToConn (ctxId, npid) = some connId ∧ s.connections.find? connId = some ci ∧ ci.state ≠ .inactive := by
  unfold reusableConnection at h
  split at h
  · cases h
  rename_i c hkey
  split at h
  · cases h
  rename_i ci' hfind
  split at h
  · cases h
  rename_i hstate
  cases h
  exact ⟨hkey, hfind, hstate⟩

/-! ## What creating a context leaves -/

/-- A context is entered under an id that no other has, or nothing changes. -/
def AddsContext (s s' : Signaling) : Prop :=
  s' = s ∨ s.initialized = true ∧ ∃ (n : Nat) (ctx : NpSignalingContext), s.contexts.find? (n : Int) = none ∧
    ctx.active = true ∧ s' = insertContext { s with lastAssignedContextId := n } n ctx

theorem findContextId_free : ∀ tries candidate n, s.findContextId tries candidate = some n →
    s.contexts.find? (n : Int) = none
  | 0, _, _, h => by cases h
  | tries + 1, candidate, n, h => by
    unfold findContextId at h
    split at h
    · next hfree =>
      cases h
      exact Option.isNone_iff_eq_none.mp hfree
    · exact findContextId_free tries _ n h

theorem allocateContextIdLocked_cases :
    s.allocateContextIdLocked = (none, s) ∨ ∃ n : Nat, s.contexts.find? (n : Int) = none ∧
      s.allocateContextIdLocked = (some (n : Int), { s with lastAssignedContextId := n }) := by
  unfold allocateContextIdLocked
  simp only
  split
  · next n hfound => exact .inr ⟨n, findContextId_free _ _ _ hfound, rfl⟩
  · exact .inl rfl

theorem createContext_adds {npid : Option OrbisNpId} {callback : Bool} {sdk : Nat} {now : Int} :
    s.AddsContext (s.createContext npid callback sdk now).2 := by
  unfold createContext
  split
  · exact .inl rfl
  rename_i hon
  split
  · exact .inl rfl
  split
  · exact .inl rfl
  obtain hnone | ⟨n, hfree, hsome⟩ := @allocateContextIdLocked_cases s
  · rw [hnone]
    exact .inl rfl
  · rw [hsome]
    exact .inr ⟨by simpa using hon, n, _, hfree, rfl, rfl⟩

theorem createContextA_adds {npid : Option OrbisNpId} {callback : Bool} {sdk : Nat} {now : Int} :
    s.AddsContext (s.createContextA npid callback sdk now).2 := by
  unfold createContextA
  split
  · exact .inl rfl
  rename_i hon
  split
  · exact .inl rfl
  obtain hnone | ⟨n, hfree, hsome⟩ := @allocateContextIdLocked_cases s
  · rw [hnone]
    exact .inl rfl
  · rw [hsome]
    exact .inr ⟨by simpa using hon, n, _, hfree, rfl, rfl⟩

/-! ## What an activation by account leaves -/

/-- `sceNpSignalingActivateConnectionA` passes its checks and finds an id. -/
def CreatesForAccount (s : Signaling) (ctxId : Int) (peerAddr : Option (Nat × Nat)) (now : Int) (rnd : Nat) : Prop :=
  s.initialized = true ∧ ∃ accountId platformType ctx, peerAddr = some (accountId, platformType) ∧
    accountId ≠ 0 ∧ platformType ≠ 0 ∧ s.contexts.find? ctxId = some ctx ∧ ctx.active = true ∧
    ¬(ctx.flags &&& 0x4 ≠ 0 ∧ ctx.accountId = accountId ∧ ctx.platformType = platformType) ∧
    (s.chargeActivation ctxId ctx now).1 = true ∧ (s.allocateConnectionIdLocked rnd).1.isSome

theorem findConnectionId_congr (h : s'.connections = s.connections) :
    ∀ tries seed, s'.findConnectionId tries seed = s.findConnectionId tries seed
  | 0, _ => rfl
  | tries + 1, seed => by
    unfold findConnectionId
    simp only [h, findConnectionId_congr h tries]

/-- Only the connections and the seed decide which id is next. -/
theorem allocateConnectionIdLocked_congr (hconnections : s'.connections = s.connections)
    (hseed : s'.connectionIdSeed = s.connectionIdSeed) (rnd : Nat) :
    (s'.allocateConnectionIdLocked rnd).1 = (s.allocateConnectionIdLocked rnd).1 := by
  unfold allocateConnectionIdLocked
  simp only [hseed, findConnectionId_congr hconnections]

/-- Beyond the budget of the context, at most an id is taken, and a connection is entered under it. -/
theorem activateConnectionA_cases {ctxId now : Int} {peerAddr : Option (Nat × Nat)} {rnd : Nat} :
    (s.activateConnectionA ctxId peerAddr now rnd).2 = s ∨
      s.initialized = true ∧ ∃ ctx s₁, s.contexts.find? ctxId = some ctx ∧
        s₁ = (s.chargeActivation ctxId ctx now).2 ∧
        ((s.activateConnectionA ctxId peerAddr now rnd).2 = s₁ ∨
          (s.activateConnectionA ctxId peerAddr now rnd).2 = (s₁.allocateConnectionIdLocked rnd).2 ∨
          s.CreatesForAccount ctxId peerAddr now rnd ∧
            ∃ connId s₂, s₁.allocateConnectionIdLocked rnd = (some connId, s₂) ∧
              (s.activateConnectionA ctxId peerAddr now rnd).2 =
                s₂.insertConnection connId (ConnectionInfo.createForAccount s₂.nextSerial connId ctxId)) := by
  unfold activateConnectionA
  split
  · exact .inl rfl
  rename_i hon
  have hon : s.initialized = true := by simpa using hon
  split
  · exact .inl rfl
  rename_i accountId platformType
  split
  · exact .inl rfl
  rename_i hzero
  rw [not_or] at hzero
  split
  · exact .inl rfl
  rename_i ctx hctx
  split
  · exact .inl rfl
  rename_i hactive
  split
  · exact .inl rfl
  rename_i hown
  refine .inr ⟨hon, ctx, _, hctx, rfl, ?_⟩
  cases hcharge : s.chargeActivation ctxId ctx now with
  | mk paid s₁ =>
    cases paid with
    | false => exact .inl rfl
    | true =>
      cases halloc : s₁.allocateConnectionIdLocked rnd with
      | mk connId s₂ =>
        cases connId with
        | none => exact .inr (.inl (by simp only [halloc]))
        | some connId =>
          have hstate : s₁ = s.insertContext ctxId _ := (Prod.mk.inj hcharge).2.symm
          have hsame : (s₁.allocateConnectionIdLocked rnd).1 = (s.allocateConnectionIdLocked rnd).1 :=
            allocateConnectionIdLocked_congr (by rw [hstate]; rfl) (by rw [hstate]; rfl) rnd
          rw [halloc] at hsame
          refine .inr (.inr ⟨⟨hon, accountId, platformType, ctx, rfl, hzero.1, hzero.2, hctx,
            by simpa using hactive, hown, by rw [hcharge], by rw [← hsame]; rfl⟩, connId, s₂, rfl, ?_⟩)
          simp only [halloc]

end Signaling

/-! ## What a change of a connection leaves alone -/

namespace ConnectionInfo

/-- Who the connection is for, what it has fired, and what is known of the peer. -/
def fixed (ci : ConnectionInfo) : (Nat × Int × Int × OrbisNpId × OrbisNpOnlineId) × Bool × Bool × Bool × Bool :=
  ((ci.serial, ci.connId, ci.ctxId, ci.npid, ci.onlineId),
    ci.establishedEventFired, ci.mutualFired, ci.deadFired, ci.peerEstablished)

/-- A change that leaves this alone, keeps the status in step with the state and closes nothing. -/
structure Stays (ci ci' : ConnectionInfo) : Prop where
  fixed : ci'.fixed = ci.fixed
  status : ci.status = statusFromState ci.state → ci'.status = statusFromState ci'.state
  live : ci.state ≠ .inactive → ci'.state ≠ .inactive

variable {ci ci' ci'' : ConnectionInfo} {active : Bool} {now : Int} {fromAddr fromPort mappedAddr : Nat}

theorem Stays.refl : ci.Stays ci := ⟨rfl, id, id⟩

theorem Stays.trans (h : ci.Stays ci') (h' : ci'.Stays ci'') : ci.Stays ci'' :=
  ⟨h'.fixed.trans h.fixed, h'.status ∘ h.status, h'.live ∘ h.live⟩

theorem stays_armTimeout : ci.Stays (ci.armTimeoutCalloutLocked active) := by
  unfold armTimeoutCalloutLocked
  split <;> exact ⟨rfl, id, id⟩

theorem stays_armStep : ci.Stays (ci.armStepCalloutLocked active) := by
  unfold armStepCalloutLocked
  split <;> exact ⟨rfl, id, id⟩

theorem stays_cancelTimeout : ci.Stays ci.cancelTimeoutCalloutLocked := ⟨rfl, id, id⟩

theorem stays_cancelStep : ci.Stays ci.cancelStepCalloutLocked := ⟨rfl, id, id⟩

theorem stays_setConnState {state : ConnState} (hlive : state ≠ .inactive) :
    ci.Stays (ci.setConnStateLocked state) :=
  ⟨rfl, fun _ => rfl, fun _ => hlive⟩

theorem stays_armHandshakeCallouts : ci.Stays (ci.armHandshakeCallouts active) := by
  unfold armHandshakeCallouts
  split
  · exact stays_armTimeout.trans stays_armStep
  · exact stays_armStep

theorem stays_startHandshake : ci.Stays (ci.startHandshake active) := by
  have hinitiator : ci.Stays { ci with isInitiator := true } := ⟨rfl, id, id⟩
  exact hinitiator.trans ((stays_setConnState (by decide)).trans stays_armHandshakeCallouts)

theorem stays_firstEstablished : ci.Stays (ci.firstEstablished active now) := by
  unfold firstEstablished
  refine Stays.trans ?_ stays_armStep
  refine Stays.trans ?_ stays_cancelTimeout
  exact ⟨rfl, fun _ => rfl, fun _ => nofun⟩

theorem stays_linger : ci.Stays (ci.linger active) := by
  unfold linger
  refine Stays.trans ?_ stays_armTimeout
  exact ⟨rfl, id, id⟩

theorem stays_offered : ci.Stays (ci.offered active fromAddr fromPort mappedAddr) := by
  have haddress : ci.Stays (ci.offerAddress fromAddr fromPort mappedAddr) := ⟨rfl, id, id⟩
  unfold offered
  refine haddress.trans ?_
  simp only
  split
  · exact (stays_setConnState (by decide)).trans stays_armHandshakeCallouts
  · exact .refl

theorem stays_accepted : ci.Stays (ci.accepted active fromAddr fromPort mappedAddr) := by
  have haddress : ci.Stays (ci.acceptAddress fromAddr fromPort mappedAddr) := by
    unfold acceptAddress
    split <;> exact ⟨rfl, id, id⟩
  unfold accepted
  refine haddress.trans ?_
  simp only
  split
  · exact (stays_setConnState (by decide)).trans stays_armStep
  · exact .refl

theorem stays_checked : ci.Stays ci.checked := by
  unfold checked
  split
  · exact stays_setConnState (by decide)
  · exact .refl

theorem stays_stepped : ci.Stays (ci.stepped active now).1 := by
  unfold stepped
  refine stays_cancelStep.trans ?_
  simp only
  split
  · split
    · split
      · exact .refl
      · exact stays_armStep
    · exact .refl
  · split
    · exact stays_armStep
    · exact .refl

theorem stays_requested : ci.Stays (ci.requested active fromAddr fromPort mappedAddr) := by
  have haddress : ci.Stays (ci.offerAddress fromAddr fromPort mappedAddr) := ⟨rfl, id, id⟩
  unfold requested
  refine haddress.trans ?_
  simp only
  split
  · exact stays_armTimeout
  · exact .refl

end ConnectionInfo

/-! ## Two users -/

def ownerNpid : OrbisNpId := npIdFromOnlineId (setNpOnlineId [111, 119, 110, 101, 114])
def peerNpid : OrbisNpId := npIdFromOnlineId (setNpOnlineId [112, 101, 101, 114])

end NpSignaling
