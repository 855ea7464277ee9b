-- SUMMARY: The reader recovers the packets from any fragments of their bytes, and allocates no more than a packet may hold; the handshake does not check.
import W7PS4.ShadNet.Connection

/-!
# Framing of ShadNet packets

A packet's header is read back field by field, so one turn of the reader loop takes one packet
off the stream and leaves the bytes after it. That holds for any fragments because `RecvN`
depends only on the bytes they join to. The loop refuses a size that is too large before it
allocates. The handshake reads the same header and does not.
-/

namespace ShadNet

open LittleEndian (get_drop get_take_drop put_append)

/-! ## The header -/

theorem encode_eq (p : Packet) : p.encode =
    [p.ptype] ++ (LittleEndian.bytes 2 p.cmd.toNat ++
      (LittleEndian.bytes 4 (UInt32.ofNat (15 + p.payload.length)).toNat ++
        (LittleEndian.bytes 8 p.id.toNat ++ p.payload))) := by
  have hblank : (List.replicate 15 0).set 0 PacketType.request.toU8 =
      [PacketType.request.toU8] ++ ([0, 0] ++ ([0, 0, 0, 0] ++ (List.replicate 8 0 ++ []))) := rfl
  have hheaderSize : shadHeaderSize.toNat = 15 := rfl
  -- each field is written over the zeros at its offset
  have hcmd {v : Nat} {c : List UInt8} : LittleEndian.put 2 ([PacketType.request.toU8] ++ ([0, 0] ++ c)) 1 v =
      [PacketType.request.toU8] ++ (LittleEndian.bytes 2 v ++ c) := put_append rfl rfl
  have htotal {v : Nat} {a c : List UInt8} (ha : a.length = 3) :
      LittleEndian.put 4 (a ++ ([0, 0, 0, 0] ++ c)) 3 v = a ++ (LittleEndian.bytes 4 v ++ c) :=
    put_append ha rfl
  have hid {v : Nat} {a c : List UInt8} (ha : a.length = 7) :
      LittleEndian.put 8 (a ++ (List.replicate 8 0 ++ c)) 7 v = a ++ (LittleEndian.bytes 8 v ++ c) :=
    put_append ha rfl
  unfold Packet.encode buildPacket putLE16 putLE32 putLE64
  simp only [hheaderSize, hblank]
  rw [hcmd, ← List.append_assoc, htotal (by simp), ← List.append_assoc, hid (by simp)]
  simp

variable {p : Packet} {rest : List UInt8}

theorem shadMaxPacketSize_toNat : shadMaxPacketSize.toNat = 0x800000 := by simp [shadMaxPacketSize]

theorem Packet.Fits.length_le (hfits : p.Fits) : 15 + p.payload.length ≤ 0x800000 := by
  rw [← shadMaxPacketSize_toNat]
  exact hfits

theorem encode_length : p.encode.length = 15 + p.payload.length := by
  simp only [encode_eq, List.length_append, LittleEndian.bytes_length, List.length_singleton]
  omega

theorem encode_drop : p.encode.drop 15 = p.payload := by
  rw [encode_eq]
  simp only [← List.append_assoc]
  exact List.drop_left' (by simp)

theorem getLE32_take {k m : Nat} {bs : List UInt8} (hfits : k + 4 ≤ m) :
    getLE32 ((bs.take m).drop k) = getLE32 (bs.drop k) := by
  unfold getLE32
  rw [get_take_drop hfits]

theorem header_ptype : ((p.encode ++ rest).take 15).getD 0 0 = p.ptype := by
  rw [encode_eq, List.append_assoc, List.singleton_append]
  rfl

theorem header_cmd : getLE16 (((p.encode ++ rest).take 15).drop 1) = p.cmd := by
  have hget : LittleEndian.get 2 ((p.encode ++ rest).drop 1) = p.cmd.toNat % 2 ^ 16 := by
    simp only [encode_eq, List.append_assoc]
    exact get_drop rfl
  rw [getLE16, get_take_drop (by omega), hget, Nat.mod_eq_of_lt p.cmd.toNat_lt]
  exact UInt16.ofNat_toNat

theorem header_totalSz (hfits : p.Fits) :
    (getLE32 (((p.encode ++ rest).take 15).drop 3)).toNat = 15 + p.payload.length := by
  have hmax := hfits.length_le
  have hlt : 15 + p.payload.length < 2 ^ 32 := by omega
  have htotal : (UInt32.ofNat (15 + p.payload.length)).toNat = 15 + p.payload.length :=
    UInt32.toNat_ofNat_of_lt' hlt
  have hget : LittleEndian.get 4 ((p.encode ++ rest).drop 3) = (15 + p.payload.length) % 2 ^ 32 := by
    rw [encode_eq, htotal]
    simp only [List.append_assoc]
    rw [← List.append_assoc [p.ptype]]
    exact get_drop rfl
  rw [getLE32_take (by omega), getLE32, hget, Nat.mod_eq_of_lt hlt, htotal]

theorem header_id : getLE64 (((p.encode ++ rest).take 15).drop 7) = p.id := by
  have hget : LittleEndian.get 8 ((p.encode ++ rest).drop 7) = p.id.toNat % 2 ^ 64 := by
    simp only [encode_eq, List.append_assoc]
    rw [← List.append_assoc [p.ptype], ← List.append_assoc ([p.ptype] ++ _)]
    exact get_drop rfl
  rw [getLE64, get_take_drop (by omega), hget, Nat.mod_eq_of_lt p.id.toNat_lt]
  exact UInt64.ofNat_toNat

/-! ## The reader loop -/

theorem recvPayload_spec {s : Socket} {payloadSz : UInt32} (hle : payloadSz.toNat ≤ s.delivered.length) :
    ∃ s', recvPayload s payloadSz = some (s.delivered.take payloadSz.toNat, s') ∧
      s'.delivered = s.delivered.drop payloadSz.toNat := by
  unfold recvPayload
  split
  · have hspec := recvN_spec s payloadSz.toNat
    rwa [if_pos hle] at hspec
  rename_i hzero
  have hzero : payloadSz.toNat = 0 := by
    rw [gt_iff_lt, UInt32.lt_iff_toNat_lt] at hzero
    exact Nat.eq_zero_of_not_pos hzero
  exact ⟨s, by simp [hzero], by simp [hzero]⟩

variable {parses : List UInt8 → Bool}

/-- One turn takes one packet off the stream. What follows is up to the packet. -/
theorem readPacket_encode {s : Socket} (hfits : p.Fits) (hs : s.delivered = p.encode ++ rest) :
    ∃ allocation s', dispatched allocation = [] ∧ s'.delivered = rest ∧
      readPacket parses s = match dispatchPacket parses p with
        | .ok none => (allocation ++ [.dispatch p], some s')
        | .ok (some state) => (allocation ++ [.dispatch p, .fail state], some doDisconnect)
        | .error _ => (allocation ++ [.dispatch p, .undefined], none) := by
  have hmax := hfits.length_le
  have hlen : s.delivered.length = 15 + p.payload.length + rest.length := by
    rw [hs, List.length_append, encode_length]
  have hheader := recvN_spec s 15
  rw [if_pos (by omega)] at hheader
  obtain ⟨s₁, hrecv, hrest⟩ := hheader
  have htotal := @header_totalSz p rest hfits
  rw [hs] at hrecv hrest
  -- what is left after the header is the payload and the rest of the stream
  have hbody : s₁.delivered = p.payload ++ rest := by
    rw [hrest, List.drop_append_of_le_length (by rw [encode_length]; omega), encode_drop]
  generalize htotalSz : getLE32 (((p.encode ++ rest).take 15).drop 3) = totalSz at htotal
  -- the size passes the check, as the packet fits
  have hlow : ¬(totalSz < shadHeaderSize ∨ totalSz > shadMaxPacketSize) := by
    have hheaderSize : shadHeaderSize.toNat = 15 := rfl
    rw [gt_iff_lt, UInt32.lt_iff_toNat_lt, UInt32.lt_iff_toNat_lt, shadMaxPacketSize_toNat]
    omega
  have hsize : (totalSz - shadHeaderSize).toNat = p.payload.length := by
    have hle : shadHeaderSize ≤ totalSz := by
      rw [UInt32.le_iff_toNat_le, htotal]
      exact Nat.le_add_right ..
    rw [UInt32.toNat_sub_of_le _ _ hle, htotal]
    exact Nat.add_sub_cancel_left ..
  have hpayload := @recvPayload_spec s₁ (totalSz - shadHeaderSize)
    (by rw [hsize, hbody, List.length_append]; omega)
  rw [hsize, hbody, List.take_left, List.drop_left] at hpayload
  obtain ⟨s₂, hpayload, hdone⟩ := hpayload
  refine ⟨if totalSz - shadHeaderSize > 0 then [.allocate (totalSz - shadHeaderSize).toNat] else [], s₂, ?_,
    hdone, ?_⟩
  · split <;> rfl
  · obtain ⟨ptype, cmd, id, payload⟩ := p
    unfold readPacket
    rw [show shadHeaderSize.toNat = 15 from rfl, hrecv]
    rcases hdispatch : dispatchPacket parses ⟨ptype, cmd, id, payload⟩ with _ | _ | _ <;>
      simp only [htotalSz, if_neg hlow, hpayload, header_ptype, header_cmd, header_id, hdispatch]

/-- Nothing is read from a stream that has ended. -/
theorem readerThread_of_delivered_nil {s : Socket} (hs : s.delivered = []) : readerThread parses s = [] := by
  have hclosed := recvN_spec s shadHeaderSize.toNat
  rw [hs, if_neg (by decide)] at hclosed
  have hturn : readPacket parses s = ([], none) := by
    unfold readPacket
    rw [hclosed]
  unfold readerThread
  rw [hturn]

/-- The packet neither disconnects nor does anything undefined. -/
def LeavesOpen (parses : List UInt8 → Bool) (p : Packet) : Prop := dispatchPacket parses p = .ok none

instance (parses : List UInt8 → Bool) : DecidablePred (LeavesOpen parses) := fun _ =>
  inferInstanceAs (Decidable (_ = _))

theorem dispatched_readerThread_cons {s : Socket} (hfits : p.Fits) (hs : s.delivered = p.encode ++ rest) :
    if LeavesOpen parses p then ∃ s' : Socket, s'.delivered = rest ∧
      dispatched (readerThread parses s) = p :: dispatched (readerThread parses s')
    else dispatched (readerThread parses s) = [p] := by
  obtain ⟨allocation, s', hallocation, hrest, hturn⟩ := @readPacket_encode p rest parses s hfits hs
  by_cases hopen : LeavesOpen parses p
  · rw [if_pos hopen]
    rw [hopen] at hturn
    refine ⟨s', hrest, ?_⟩
    rw [readerThread, hturn]
    simp [hallocation]
  · rw [if_neg hopen]
    -- the reader ends, or goes on with a socket that is closed
    cases hdispatch : dispatchPacket parses p with
    | error fault =>
      rw [hdispatch] at hturn
      rw [readerThread, hturn]
      simp [hallocation]
    | ok failure =>
      cases failure with
      | none => exact absurd hdispatch hopen
      | some state =>
        rw [hdispatch] at hturn
        rw [readerThread, hturn]
        simp only [readerThread_of_delivered_nil (s := doDisconnect) rfl]
        simp [hallocation]

/-- However the bytes of packets are cut, the reader recovers the packets, if none before the last
    one closes the stream. -/
theorem dispatched_readerThread_iff {packets : List Packet} (hfits : ∀ p ∈ packets, p.Fits) {s : Socket}
    (hs : s.delivered = (packets.map Packet.encode).flatten) :
    dispatched (readerThread parses s) = packets ↔ ∀ p ∈ packets.dropLast, LeavesOpen parses p := by
  induction packets generalizing s with
  | nil =>
    rw [readerThread_of_delivered_nil hs]
    exact iff_of_true rfl nofun
  | cons p packets ih =>
    have hfirst := @dispatched_readerThread_cons p _ parses s (hfits p List.mem_cons_self) hs
    split at hfirst
    · next hopen =>
      obtain ⟨s', hrest, hevents⟩ := hfirst
      -- the packet is recovered, and the rest as far as the rest allows
      rw [hevents, List.cons_inj_right, ih (fun q hq => hfits q (List.mem_cons_of_mem _ hq)) hrest]
      cases packets with
      | nil => simp
      | cons q packets => rw [List.dropLast_cons_cons, List.forall_mem_cons, and_iff_right hopen]
    · next hcloses =>
      rw [hfirst, List.cons_inj_right]
      cases packets with
      | nil => simp
      | cons q packets =>
        rw [List.dropLast_cons_cons, List.forall_mem_cons]
        exact iff_of_false nofun fun h => hcloses h.1

/-! ## Allocations -/

theorem allocations_append (a b : List ClientEvent) : allocations (a ++ b) = allocations a ++ allocations b :=
  List.filterMap_append

theorem readPacket_allocations (s : Socket) :
    ∀ size ∈ allocations (readPacket parses s).1, size ≤ shadMaxPacketSize.toNat := by
  unfold readPacket
  split
  · nofun
  rename_i hdr s' hhdr
  simp only
  split
  · nofun
  rename_i hsize
  have hle : (getLE32 (hdr.drop 3) - shadHeaderSize).toNat ≤ shadMaxPacketSize.toNat := by
    rw [not_or, UInt32.not_lt, gt_iff_lt, UInt32.not_lt] at hsize
    rw [UInt32.toNat_sub_of_le _ _ hsize.1]
    exact (Nat.sub_le ..).trans (UInt32.le_iff_toNat_le.mp hsize.2)
  have halloc : ∀ size ∈ allocations (if getLE32 (hdr.drop 3) - shadHeaderSize > 0 then
      [.allocate (getLE32 (hdr.drop 3) - shadHeaderSize).toNat] else []), size ≤ shadMaxPacketSize.toNat := by
    split
    · intro size hmem
      rw [List.mem_singleton.mp hmem]
      exact hle
    · nofun
  -- dispatching allocates nothing more
  have hmore : ∀ events, allocations events = [] → ∀ size ∈ allocations
      ((if getLE32 (hdr.drop 3) - shadHeaderSize > 0 then
        [.allocate (getLE32 (hdr.drop 3) - shadHeaderSize).toNat] else []) ++ events),
      size ≤ shadMaxPacketSize.toNat := by
    intro events hevents
    rw [allocations_append, hevents, List.append_nil]
    exact halloc
  split
  · exact halloc
  split
  · exact hmore _ rfl
  · exact hmore _ rfl
  · exact hmore _ rfl

theorem readerThread_allocations (s : Socket) :
    ∀ size ∈ allocations (readerThread parses s), size ≤ shadMaxPacketSize.toNat := by
  induction s using readerThread.induct parses with
  | case1 s events hturn =>
    have hbound := @readPacket_allocations parses s
    unfold readerThread
    rw [hturn] at hbound ⊢
    exact hbound
  | case2 s events rest hturn ih =>
    have hbound := @readPacket_allocations parses s
    unfold readerThread
    rw [hturn] at hbound ⊢
    simp only [allocations_append]
    intro size hmem
    exact (List.mem_append.mp hmem).elim (hbound size) (ih size)

/-- The size that a `ServerInfo` header at the start of the stream declares leaves a payload no
    larger than a packet may be. -/
def ServerInfoFits (bytes : List UInt8) : Prop :=
  shadHeaderSize.toNat ≤ bytes.length → bytes.getD 0 0 = PacketType.serverInfo.toU8 →
    (getLE32 (bytes.drop 3)).toNat ≤ shadMaxPacketSize.toNat + shadHeaderSize.toNat

theorem serverInfo_payload_le {totalSz : UInt32} :
    (if totalSz > shadHeaderSize then totalSz - shadHeaderSize else 0).toNat ≤ shadMaxPacketSize.toNat ↔
      totalSz.toNat ≤ shadMaxPacketSize.toNat + shadHeaderSize.toNat := by
  split
  · next hlarge =>
    rw [UInt32.toNat_sub_of_le _ _ (UInt32.le_of_lt hlarge), Nat.sub_le_iff_le_add]
  rename_i hsmall
  rw [gt_iff_lt, UInt32.not_lt, UInt32.le_iff_toNat_le] at hsmall
  exact ⟨fun _ => hsmall.trans (Nat.le_add_left ..), fun _ => Nat.zero_le _⟩

/-- Whether the payload arrives or not, there is a buffer for it. -/
theorem handshake_serverInfo {s rest : Socket} {hdr : List UInt8} (hrecv : recvN s 15 = some (hdr, rest))
    (htype : hdr.getD 0 0 = PacketType.serverInfo.toU8) :
    allocations (handshake s).1 =
      [(if getLE32 (hdr.drop 3) > shadHeaderSize then getLE32 (hdr.drop 3) - shadHeaderSize else 0).toNat] := by
  unfold handshake
  rw [show shadHeaderSize.toNat = 15 from rfl, hrecv]
  simp only [htype, ne_eq, not_true, if_false]
  generalize (if getLE32 (hdr.drop 3) > shadHeaderSize then getLE32 (hdr.drop 3) - shadHeaderSize else 0) =
    payloadSz
  split
  · rfl
  · split <;> rfl

theorem handshake_allocations (s : Socket) :
    (∀ size ∈ allocations (handshake s).1, size ≤ shadMaxPacketSize.toNat) ↔ ServerInfoFits s.delivered := by
  unfold ServerInfoFits
  rw [show shadHeaderSize.toNat = 15 from rfl]
  have hspec := recvN_spec s 15
  split at hspec
  · next hlen =>
    obtain ⟨rest, hrecv, -⟩ := hspec
    have hptype : (s.delivered.take 15).getD 0 0 = s.delivered.getD 0 0 := by
      rw [List.getD_eq_getElem?_getD, List.getD_eq_getElem?_getD, List.getElem?_take_of_lt (by decide)]
    by_cases htype : s.delivered.getD 0 0 = PacketType.serverInfo.toU8
    · rw [handshake_serverInfo hrecv (hptype.trans htype), List.forall_mem_singleton, serverInfo_payload_le,
        getLE32_take (by decide)]
      exact ⟨fun h _ _ => h, fun h => h hlen htype⟩
    -- a packet of another type is refused before its size is read
    have hother : (handshake s).1 = [.fail .failureServerInfo] := by
      unfold handshake
      rw [show shadHeaderSize.toNat = 15 from rfl, hrecv]
      simp only [hptype]
      rw [if_pos htype]
    rw [hother]
    exact ⟨fun _ _ h => absurd h htype, fun _ => nofun⟩
  · next hshort =>
    have hclosed : (handshake s).1 = [.fail .failureServerInfo] := by
      unfold handshake
      rw [show shadHeaderSize.toNat = 15 from rfl, hspec]
    rw [hclosed]
    exact ⟨fun _ h => absurd h hshort, fun _ => nofun⟩

theorem client_allocations (s : Socket) :
    (∀ size ∈ allocations (client parses s), size ≤ shadMaxPacketSize.toNat) ↔
      ServerInfoFits s.delivered := by
  rw [← handshake_allocations]
  unfold client
  split
  · next events hshake => rw [hshake]
  rename_i events rest hshake
  rw [hshake, allocations_append]
  refine ⟨fun h size hmem => h size (List.mem_append_left _ hmem), fun h size hmem => ?_⟩
  exact (List.mem_append.mp hmem).elim (h size) (readerThread_allocations rest size)

/-- The reader recovers packets that are no longer than packets may be, from any fragments of their
    bytes, exactly if no packet before the last closes the stream. The client allocates no more than
    such a packet for a payload exactly if the size that `ServerInfo` declares fits. -/
theorem framing_iff (parses : List UInt8 → Bool) (packets : List Packet) (hfits : ∀ p ∈ packets, p.Fits)
    (s : Socket) (hfragments : ∀ fragment ∈ s, fragment ≠ [])
    (hbytes : s.flatten = (packets.map Packet.encode).flatten) (stream : Socket) :
    (dispatched (readerThread parses s) = packets ↔ ∀ p ∈ packets.dropLast, LeavesOpen parses p) ∧
    ((∀ size ∈ allocations (client parses stream), size ≤ shadMaxPacketSize.toNat) ↔
      ServerInfoFits stream.delivered) :=
  ⟨dispatched_readerThread_iff hfits ((delivered_of_nonempty hfragments).trans hbytes),
    client_allocations stream⟩

/-- A server that declares a `ServerInfo` packet of `2 ^ 32 - 1` bytes. -/
def hugeServerInfo : Socket := [[3, 0, 0, 0xff, 0xff, 0xff, 0xff, 0, 0, 0, 0, 0, 0, 0, 0]]

/-- A notification without a blob. -/
def emptyFriendQuery : Packet := ⟨PacketType.notification.toU8, 5, 0, [0, 0, 0, 0]⟩

/-- A reply to `Login`, which names another error than the four for logins. -/
def refusedLogin : Packet := ⟨PacketType.reply.toU8, CommandType.login, 1, [5]⟩

/-- A refused login is read, what comes after it is not. -/
theorem framing_iff_refusedLogin :
    dispatched (readerThread (fun _ => true) [emptyFriendQuery.encode ++ [1], refusedLogin.encode.drop 1]) =
      [emptyFriendQuery, refusedLogin] ∧
    dispatched (readerThread (fun _ => true) [refusedLogin.encode ++ emptyFriendQuery.encode]) ≠
      [refusedLogin, emptyFriendQuery] ∧
    ¬∀ size ∈ allocations (client (fun _ => true) hugeServerInfo), size ≤ shadMaxPacketSize.toNat := by
  have hfits : ∀ p ∈ [emptyFriendQuery, refusedLogin], p.Fits := by
    unfold Packet.Fits
    decide
  obtain ⟨hread, hallocated⟩ := framing_iff (fun _ => true) [emptyFriendQuery, refusedLogin] hfits
    [emptyFriendQuery.encode ++ [1], refusedLogin.encode.drop 1] (by decide) (by decide) hugeServerInfo
  obtain ⟨hlost, -⟩ := framing_iff (fun _ => true) [refusedLogin, emptyFriendQuery]
    (fun p hp => hfits p (by simpa [or_comm] using hp))
    [refusedLogin.encode ++ emptyFriendQuery.encode] (by decide) (by decide) hugeServerInfo
  refine ⟨hread.mpr (by decide), fun h => absurd (hlost.mp h) (by decide), fun h => ?_⟩
  exact absurd (hallocated.mp h (by decide) (by decide)) (by decide)

theorem handshake_unbounded : ¬∀ (parses : List UInt8 → Bool) (stream : Socket),
    ∀ size ∈ allocations (client parses stream), size ≤ shadMaxPacketSize.toNat := by
  intro hall
  have halloc : allocations (handshake hugeServerInfo).1 = [0xfffffff0] := by
    rw [@handshake_serverInfo hugeServerInfo [] _ rfl rfl]
    decide
  have hmem : 0xfffffff0 ∈ allocations (client (fun _ => true) hugeServerInfo) := by
    have hshake : client (fun _ => true) hugeServerInfo = (handshake hugeServerInfo).1 := rfl
    rw [hshake, halloc]
    exact List.mem_singleton_self _
  exact absurd (hall _ _ _ hmem) (by decide)

end ShadNet
