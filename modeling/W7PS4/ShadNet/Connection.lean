-- SUMMARY: A connection of the ShadNet client: the handshake, the reader thread, and what dispatching a packet does to it.
import W7PS4.ShadNet.Blobs

/-!
# A connection of the ShadNet client

The first packet, `ServerInfo`, is read by `DoConnect`, all others by the reader thread. It
dispatches a packet before it reads the next one. A reply to `Login` that refuses it, or that
cannot be parsed, disconnects the socket that the thread reads from, and the blobs of other
packets may be read outside of the payload.

`ParseFromString` of a `LoginReply` is a parameter. What the callbacks of the client do is
left out: they do not disconnect.
-/

namespace ShadNet

/-- The failures that a connection reports. -/
inductive ShadNetState where
  | failureServerInfo
  | failureProtocol
  | failureAlreadyIn
  | failureUsername
  | failurePassword
  | failureToken
  | failureAuth
deriving DecidableEq, Repr

inductive ClientEvent where
  /-- A payload buffer of so many bytes. -/
  | allocate (size : Nat)
  | dispatch (packet : Packet)
  | fail (state : ShadNetState)
  /-- Dispatching a packet did something undefined. What the client does then is not known. -/
  | undefined
deriving DecidableEq, Repr

/-! ## Dispatching -/

namespace CommandType

def login : UInt16 := 0
def getServerFeatures : UInt16 := 12
def getToken : UInt16 := 39

end CommandType

def NotificationType.webApiPushEvent : UInt16 := 17

namespace ErrorType

def noError : UInt8 := 0
def loginAlreadyLoggedIn : UInt8 := 6
def loginInvalidUsername : UInt8 := 7
def loginInvalidPassword : UInt8 := 8
def loginInvalidToken : UInt8 := 9

end ErrorType

/-- The failure of a login that is rejected with this error. -/
def loginFailure (error : UInt8) : ShadNetState :=
  if error = ErrorType.loginAlreadyLoggedIn then .failureAlreadyIn
  else if error = ErrorType.loginInvalidUsername then .failureUsername
  else if error = ErrorType.loginInvalidPassword then .failurePassword
  else if error = ErrorType.loginInvalidToken then .failureToken
  else .failureAuth

/-- The failure with which `HandleLoginReply` disconnects, if it does. An empty reply is only
    reported. -/
def handleLoginReply (parses : List UInt8 → Bool) (payload : List UInt8) : Outcome (Option ShadNetState) :=
  match payload with
  | [] => return none
  | error :: _ =>
    if error = ErrorType.noError then do
      let blob ← extractBlob payload 1
      return if !blob.isEmpty && parses blob then none else some .failureProtocol
    else return some (loginFailure error)

/-- A reply whose blob says nothing about the connection. -/
def handleBlobReply (payload : List UInt8) : Outcome Unit :=
  match payload with
  | [] => return ()
  | error :: _ =>
    if error = ErrorType.noError then do
      let _ ← extractBlob payload 1
      return ()
    else return ()

def handleGetTokenReply (payload : List UInt8) : Outcome Unit := handleBlobReply payload

def handleServerFeaturesReply (payload : List UInt8) : Outcome Unit := handleBlobReply payload

/-- The blob is extracted whatever the notification is. -/
def handleNotification (cmdRaw : UInt16) (payload : List UInt8) : Outcome Unit := do
  let _ ← extractBlob payload 0
  if cmdRaw = NotificationType.webApiPushEvent then
    let _ ← parseWebApiPushEvent payload
    return ()
  else return ()

/-- The failure with which `DispatchPacket` disconnects, if it does. -/
def dispatchPacket (parses : List UInt8 → Bool) (p : Packet) : Outcome (Option ShadNetState) :=
  if p.ptype = PacketType.reply.toU8 then
    if p.cmd = CommandType.login then handleLoginReply parses p.payload
    else if p.cmd = CommandType.getToken then do
      handleGetTokenReply p.payload
      return none
    else if p.cmd = CommandType.getServerFeatures then do
      handleServerFeaturesReply p.payload
      return none
    else return none
  else if p.ptype = PacketType.notification.toU8 then do
    handleNotification p.cmd p.payload
    return none
  else return none

/-! ## The client -/

/-- `DoDisconnect` leaves a socket from which nothing can be received. -/
def doDisconnect : Socket := []

/-- Receive a payload; for none `RecvN` is not called. -/
def recvPayload (s : Socket) (payloadSz : UInt32) : Option (List UInt8 × Socket) :=
  if payloadSz > 0 then recvN s payloadSz.toNat else some ([], s)

/-- The `ServerInfo` handshake of `DoConnect`, and the socket if it succeeds. -/
def handshake (s : Socket) : List ClientEvent × Option Socket :=
  match recvN s shadHeaderSize.toNat with
  | none => ([.fail .failureServerInfo], none)
  | some (hdr, s) =>
    if hdr.getD 0 0 ≠ PacketType.serverInfo.toU8 then ([.fail .failureServerInfo], none)
    else
      let totalSz := getLE32 (hdr.drop 3)
      let payloadSz := if totalSz > shadHeaderSize then totalSz - shadHeaderSize else 0
      match recvPayload s payloadSz with
      | none => ([.allocate payloadSz.toNat, .fail .failureServerInfo], none)
      | some (siPayload, s) =>
        if payloadSz ≥ 4 ∧ getLE32 siPayload ≠ shadProtocolVersion then
          ([.allocate payloadSz.toNat, .fail .failureProtocol], none)
        else ([.allocate payloadSz.toNat], some s)

/-- One turn of the loop of `ReaderThread`, and the socket if it goes on. -/
def readPacket (parses : List UInt8 → Bool) (s : Socket) : List ClientEvent × Option Socket :=
  match recvN s shadHeaderSize.toNat with
  | none => ([], none)
  | some (hdr, s) =>
    let ptype := hdr.getD 0 0
    let cmdRaw := getLE16 (hdr.drop 1)
    let totalSz := getLE32 (hdr.drop 3)
    let pktId := getLE64 (hdr.drop 7)
    if totalSz < shadHeaderSize ∨ totalSz > shadMaxPacketSize then ([.fail .failureProtocol], none)
    else
      let payloadSz := totalSz - shadHeaderSize
      let allocation := if payloadSz > 0 then [.allocate payloadSz.toNat] else []
      match recvPayload s payloadSz with
      | none => (allocation, none)
      | some (payload, s) =>
        let packet : Packet := ⟨ptype, cmdRaw, pktId, payload⟩
        match dispatchPacket parses packet with
        | .ok none => (allocation ++ [.dispatch packet], some s)
        | .ok (some state) => (allocation ++ [.dispatch packet, .fail state], some doDisconnect)
        | .error _ => (allocation ++ [.dispatch packet, .undefined], none)

variable {parses : List UInt8 → Bool}

/-- A turn that goes on has taken a header off the stream. -/
theorem readPacket_shorter {s rest : Socket} {events : List ClientEvent}
    (h : readPacket parses s = (events, some rest)) : rest.delivered.length < s.delivered.length := by
  unfold readPacket at h
  split at h
  · cases h
  rename_i hdr s' hhdr
  obtain ⟨hle, -, hrest⟩ := recvN_delivered hhdr
  have hheader : shadHeaderSize.toNat = 15 := rfl
  have hlen : s'.delivered.length + 15 = s.delivered.length := by
    rw [hrest, List.length_drop]
    omega
  simp only at h
  split at h
  · cases h
  split at h
  · cases h
  rename_i payload s'' hpayload
  split at h
  · cases h
    unfold recvPayload at hpayload
    split at hpayload
    · obtain ⟨-, -, hdrop⟩ := recvN_delivered hpayload
      rw [hdrop, List.length_drop]
      omega
    · cases hpayload
      omega
  · cases h
    have hnone : Socket.delivered doDisconnect = [] := rfl
    rw [hnone, List.length_nil]
    omega
  · cases h

def readerThread (parses : List UInt8 → Bool) (s : Socket) : List ClientEvent :=
  match _hturn : readPacket parses s with
  | (events, none) => events
  | (events, some rest) => events ++ readerThread parses rest
termination_by s.delivered.length
decreasing_by exact readPacket_shorter _hturn

/-- All that happens on one connection. -/
def client (parses : List UInt8 → Bool) (s : Socket) : List ClientEvent :=
  match handshake s with
  | (events, none) => events
  | (events, some rest) => events ++ readerThread parses rest

/-- The sizes of the payload buffers. -/
def allocations (events : List ClientEvent) : List Nat :=
  events.filterMap fun
    | .allocate size => some size
    | _ => none

/-- The packets the reader recovers. -/
def dispatched (events : List ClientEvent) : List Packet :=
  events.filterMap fun
    | .dispatch packet => some packet
    | _ => none

variable {es : List ClientEvent}

@[simp] theorem dispatched_nil : dispatched [] = [] := rfl

@[simp] theorem dispatched_dispatch {p : Packet} : dispatched (.dispatch p :: es) = p :: dispatched es := rfl

@[simp] theorem dispatched_fail {state : ShadNetState} : dispatched (.fail state :: es) = dispatched es := rfl

@[simp] theorem dispatched_undefined : dispatched (.undefined :: es) = dispatched es := rfl

@[simp] theorem dispatched_append (a b : List ClientEvent) :
    dispatched (a ++ b) = dispatched a ++ dispatched b := List.filterMap_append

end ShadNet
