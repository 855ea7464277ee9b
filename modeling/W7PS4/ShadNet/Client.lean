-- SUMMARY: The packets of the ShadNet client as bytes, and the socket they are read from.
import W7PS4.Lib.LittleEndian

/-!
# ShadNet packets

A packet is a header of 15 bytes and a payload. The client reads the server's packets from a
socket that hands out the bytes of the stream in fragments of any size.
-/

namespace ShadNet

def shadHeaderSize : UInt32 := 15
def shadMaxPacketSize : UInt32 := 0x800000
def shadProtocolVersion : UInt32 := 1

inductive PacketType where
  | request
  | reply
  | notification
  | serverInfo
deriving DecidableEq, Repr

def PacketType.toU8 : PacketType → UInt8
  | .request => 0
  | .reply => 1
  | .notification => 2
  | .serverInfo => 3

/-! ## Packets as bytes -/

def putLE16 (b : List UInt8) (off : Nat) (v : UInt16) : List UInt8 := LittleEndian.put 2 b off v.toNat
def putLE32 (b : List UInt8) (off : Nat) (v : UInt32) : List UInt8 := LittleEndian.put 4 b off v.toNat
def putLE64 (b : List UInt8) (off : Nat) (v : UInt64) : List UInt8 := LittleEndian.put 8 b off v.toNat

def getLE16 (p : List UInt8) : UInt16 := .ofNat (LittleEndian.get 2 p)
def getLE32 (p : List UInt8) : UInt32 := .ofNat (LittleEndian.get 4 p)
def getLE64 (p : List UInt8) : UInt64 := .ofNat (LittleEndian.get 8 p)

def buildPacket (cmd : UInt16) (id : UInt64) (payload : List UInt8) : List UInt8 :=
  let total : UInt32 := .ofNat (shadHeaderSize.toNat + payload.length)
  let out := List.replicate shadHeaderSize.toNat 0
  let out := out.set 0 PacketType.request.toU8
  let out := putLE16 out 1 cmd
  let out := putLE32 out 3 total
  let out := putLE64 out 7 id
  out ++ payload

/-- A packet as the reader dispatches it; the type is whatever the byte says. -/
structure Packet where
  ptype : UInt8
  cmd : UInt16
  id : UInt64
  payload : List UInt8
deriving DecidableEq, Repr

/-- The packet as `BuildPacket` builds it, with the type byte of the direction it travels in. -/
def Packet.encode (p : Packet) : List UInt8 := (buildPacket p.cmd p.id p.payload).set 0 p.ptype

/-- The packet is no longer than a packet may be. -/
def Packet.Fits (p : Packet) : Prop := shadHeaderSize.toNat + p.payload.length ≤ shadMaxPacketSize.toNat

/-! ## The socket -/

/-- The fragments that the calls of `recv` find. An empty one, as the end of the list, is a closed
    or failing connection or `m_terminate`. -/
abbrev Socket := List (List UInt8)

/-- The bytes that arrive. -/
def Socket.delivered : Socket → List UInt8
  | [] => []
  | fragment :: s => if fragment = [] then [] else fragment ++ delivered s

/-- `recv` hands out no more than is asked for; the rest of a fragment stays. -/
def recvN : Socket → Nat → Option (List UInt8 × Socket)
  | s, 0 => some ([], s)
  | [], _ + 1 => none
  | fragment :: s, n + 1 =>
    if fragment = [] then none
    else if fragment.length ≤ n + 1 then
      match recvN s (n + 1 - fragment.length) with
      | none => none
      | some (buf, s) => some (fragment ++ buf, s)
    else some (fragment.take (n + 1), fragment.drop (n + 1) :: s)

theorem delivered_of_nonempty {s : Socket} (hs : ∀ fragment ∈ s, fragment ≠ []) : s.delivered = s.flatten := by
  induction s with
  | nil => rfl
  | cons fragment s ih =>
    rw [Socket.delivered, if_neg (hs fragment List.mem_cons_self), List.flatten_cons,
      ih fun f hf => hs f (List.mem_cons_of_mem _ hf)]

/-- However the bytes are cut, `RecvN` returns the next `n` of them, if there are as many. -/
theorem recvN_spec (s : Socket) (n : Nat) :
    if n ≤ s.delivered.length then
      ∃ rest, recvN s n = some (s.delivered.take n, rest) ∧ rest.delivered = s.delivered.drop n
    else recvN s n = none := by
  induction s generalizing n with
  | nil =>
    cases n with
    | zero => exact ⟨[], rfl, rfl⟩
    | succ n => exact if_neg (Nat.not_succ_le_zero n) ▸ rfl
  | cons fragment s ih =>
    cases n with
    | zero =>
      rw [if_pos (Nat.zero_le _)]
      exact ⟨fragment :: s, by simp [recvN], rfl⟩
    | succ n =>
      by_cases hclosed : fragment = []
      · rw [if_neg (by simp [Socket.delivered, hclosed])]
        simp [recvN, hclosed]
      have hdelivered : Socket.delivered (fragment :: s) = fragment ++ Socket.delivered s := if_neg hclosed
      rw [hdelivered, List.length_append]
      by_cases hle : fragment.length ≤ n + 1
      · -- the fragment is used up, and more is read
        have hrest := ih (n + 1 - fragment.length)
        by_cases henough : n + 1 ≤ fragment.length + (Socket.delivered s).length
        · rw [if_pos (by omega)] at hrest
          obtain ⟨rest, heq, hdrop⟩ := hrest
          rw [if_pos henough]
          refine ⟨rest, ?_, ?_⟩
          · simp only [recvN, hclosed, if_false, hle, if_true, heq]
            rw [List.take_append, List.take_of_length_le hle]
          · rw [hdrop, List.drop_append, List.drop_of_length_le hle, List.nil_append]
        · rw [if_neg (by omega)] at hrest
          rw [if_neg henough]
          simp only [recvN, hclosed, if_false, hle, if_true, hrest]
      · rw [if_pos (by omega)]
        -- the fragment holds more than is asked for
        have hrest : fragment.drop (n + 1) ≠ [] := by
          rw [Ne, List.drop_eq_nil_iff]
          exact hle
        refine ⟨fragment.drop (n + 1) :: s, ?_, ?_⟩
        · simp only [recvN, hclosed, if_false, hle]
          rw [List.take_append_of_le_length (by omega)]
        · rw [Socket.delivered, if_neg hrest, List.drop_append_of_le_length (by omega)]

theorem recvN_delivered {s rest : Socket} {n : Nat} {buf : List UInt8} (h : recvN s n = some (buf, rest)) :
    n ≤ s.delivered.length ∧ buf = s.delivered.take n ∧ rest.delivered = s.delivered.drop n := by
  have hspec := recvN_spec s n
  split at hspec
  · next hle =>
    obtain ⟨rest', heq, hdrop⟩ := hspec
    cases heq.symm.trans h
    exact ⟨hle, rfl, hdrop⟩
  · cases hspec.symm.trans h

end ShadNet
