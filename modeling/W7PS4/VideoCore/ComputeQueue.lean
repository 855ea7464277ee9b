-- SUMMARY: Compute rings are cut into submissions; a packet that a cut leaves incomplete is carried over to the next one.
import W7PS4.Lib.Machine
import W7PS4.Lib.Reaches
import Mathlib

/-!
# Compute queues

The guest fills a ring with PM4 packets and rings a doorbell. Each doorbell submits what lies
between the last offset and the new one, in two parts where that wraps around the end of the
ring. `ProcessCompute` runs over one submission. A packet that does not end in it is copied to
`tmp_packet` and completed from the next submission. The length by which a packet is found
incomplete is read before its type is known, so a padding dword at the end of a submission
counts as incomplete too; and what is buffered is always copied to the start of `tmp_packet`.
-/

namespace VideoCore

open List (append_assoc append_nil length_append map_append map_cons map_map)

abbrev Dword := BitVec 32

/-- What a `const u32*` points to: the dwords from there on. -/
abbrev Pointer := Nat → Dword

def readDwords (p : Pointer) (n : Nat) : List Dword := (List.range n).map p

/-! ## Packet headers -/

namespace PM4Header

def type (raw : Dword) : Nat := (raw >>> 30).toNat

def count (raw : Dword) : Nat := (raw >>> 16).toNat % 2 ^ 14

def numWords (raw : Dword) : Nat := (count raw + 1) % 2 ^ 14

def opcode (raw : Dword) : Nat := (raw >>> 8).toNat % 2 ^ 8

/-- Length of the packet as a type-3 header has it, whatever the type is. -/
def length (raw : Dword) : Nat := numWords raw + 1

theorem length_pos (raw : Dword) : 0 < length raw := Nat.succ_pos _

theorem length_le (raw : Dword) : length raw ≤ 2 ^ 14 := Nat.mod_lt _ (by decide)

end PM4Header

/-- The opcodes that compute queues know. -/
inductive PM4ItOpcode where
  | nop
  | dispatchDirect
  | dispatchIndirect
  | writeData
  | memSemaphore
  | waitRegMem
  | indirectBuffer
  | eventWrite
  | releaseMem
  | dmaData
  | acquireMem
  | rewind
  | setShReg
  | setQueueReg
deriving DecidableEq, Repr

def PM4ItOpcode.decode : Nat → Option PM4ItOpcode
  | 0x10 => some nop
  | 0x15 => some dispatchDirect
  | 0x16 => some dispatchIndirect
  | 0x37 => some writeData
  | 0x39 => some memSemaphore
  | 0x3c => some waitRegMem
  | 0x3f => some indirectBuffer
  | 0x46 => some eventWrite
  | 0x49 => some releaseMem
  | 0x50 => some dmaData
  | 0x58 => some acquireMem
  | 0x59 => some rewind
  | 0x76 => some setShReg
  | 0x78 => some setQueueReg
  | _ => none

/-! ## The queue -/

def pm4BufferSize : Nat := 1024

structure Span where
  data : Pointer
  size : Nat

/-- `NextPacket`. -/
def Span.next (acb : Span) (offset : Nat) : Span := ⟨fun i => acb.data (offset + i), acb.size - offset⟩

def Span.words (acb : Span) : List Dword := readDwords acb.data acb.size

structure AscQueueInfo where
  mapAddr : Nat
  /-- What is stored at `read_addr`. -/
  readAddr : Nat
  ringSizeDw : Nat
  /-- The queue is mapped only then. -/
  hasSingleBit : ∃ k < 32, ringSizeDw = 2 ^ k
  /-- Only the first `pm4BufferSize` entries exist. -/
  tmpPacket : Pointer
  tmpDwords : Nat

/-- A type-3 packet as it is executed; `isIndirect` is the one of the task. -/
structure Execution where
  isIndirect : Bool
  packet : List Dword
deriving DecidableEq, Repr

/-- `n` dwords of `source` in place of the ones from `off` on. -/
def overwrite (p : Pointer) (off : Nat) (source : Pointer) (n : Nat) : Pointer :=
  fun i => if off ≤ i ∧ i < off + n then source (i - off) else p i

namespace AscQueueInfo

/-- `memcpy` to `tmp_packet.data() + off`. -/
def memcpyTmp (queue : AscQueueInfo) (off : Nat) (source : Pointer) (n : Nat) : Outcome AscQueueInfo :=
  if off + n ≤ pm4BufferSize then .ok { queue with tmpPacket := overwrite queue.tmpPacket off source n }
  else .error .undefined

def advance (queue : AscQueueInfo) (isIndirect : Bool) (n : Nat) : AscQueueInfo :=
  if isIndirect then queue else { queue with readAddr := U32.add queue.readAddr n % queue.ringSizeDw }

/-- Header and `next_dw_off` of the packet to look at. If there is a buffered packet, it is used. -/
def front (queue : AscQueueInfo) (acb : Span) : Outcome (Pointer × Nat × AscQueueInfo) :=
  if queue.tmpDwords > 0 then
    let nextDwOff := U32.sub (PM4Header.length (queue.tmpPacket 0)) queue.tmpDwords
    (queue.memcpyTmp queue.tmpDwords acb.data nextDwOff).map fun queue =>
      (queue.tmpPacket, nextDwOff, { queue with tmpDwords := 0 })
  else .ok (acb.data, PM4Header.length (acb.data 0), queue)

end AscQueueInfo

/-! ## Processing -/

def invalidType (type : Nat) : Fault := .assertion s!"Invalid PM4 type {type}"

def unknownOpcode (raw : Dword) : Fault :=
  .assertion ("Unknown PM4 type 3 opcode 0x" ++ String.ofList (Nat.toDigits 16 (PM4Header.opcode raw)) ++ " with count " ++
    toString (PM4Header.numWords raw))

/-- What an `IndirectBuffer` packet points to. `memory` is indexed by the address of each dword. -/
def indirectBuffer (memory : Nat → Dword) (header : Pointer) : Span :=
  let address := (header 2).toNat % 2 ^ 16 * 2 ^ 32 + (header 1).toNat
  ⟨fun i => memory (address + 4 * i), (header 3).toNat % 2 ^ 20⟩

/-- A task over a submission: the queue afterwards and what was executed. -/
abbrev Task := Span → AscQueueInfo → Outcome (AscQueueInfo × List Execution)

/-- The switch over the opcode. What the packets do is not looked at, apart from `IndirectBuffer`. -/
def execute (memory : Nat → Dword) (indirect : Task) (isIndirect : Bool) (header : Pointer) (queue : AscQueueInfo) :
    Outcome (AscQueueInfo × List Execution) :=
  let execution : Execution := ⟨isIndirect, readDwords header (PM4Header.length (header 0))⟩
  match PM4ItOpcode.decode (PM4Header.opcode (header 0)) with
  | none => .error (unknownOpcode (header 0))
  | some .indirectBuffer => (indirect (indirectBuffer memory header) queue).map fun r => (r.1, execution :: r.2)
  | some _ => .ok (queue, [execution])

/-- The loop of `ProcessCompute`. A round without a buffered packet takes a dword at least, and a round that leaves
    the size as it is has used up a buffered one. -/
def processLoop (switch : Pointer → AscQueueInfo → Outcome (AscQueueInfo × List Execution)) (isIndirect : Bool) :
    Nat → Task
  | 0, acb, queue => if acb.size = 0 then .ok (queue, []) else .error .diverges
  | fuel + 1, acb, queue =>
    if acb.size = 0 then .ok (queue, [])
    else
      queue.front acb >>= fun r =>
        if r.2.1 > acb.size then
          (r.2.2.memcpyTmp 0 acb.data acb.size).map fun queue =>
            (({ queue with tmpDwords := acb.size } : AscQueueInfo).advance isIndirect acb.size, [])
        else
          match PM4Header.type (r.1 0) with
          | 2 => processLoop switch isIndirect fuel (acb.next 1) (r.2.2.advance isIndirect 1)
          | 3 =>
            switch r.1 r.2.2 >>= fun e =>
              (processLoop switch isIndirect fuel (acb.next r.2.1) (e.1.advance isIndirect r.2.1)).map fun rest =>
                (rest.1, e.2 ++ rest.2)
          | type => .error (invalidType type)

/-- `depth` bounds how deep indirect buffers are nested. -/
def processCompute (memory : Nat → Dword) : Nat → Bool → Task
  | 0, _, _, _ => .error .diverges
  | depth + 1, isIndirect, acb, queue =>
    processLoop (execute memory (processCompute memory depth true) isIndirect) isIndirect (2 * acb.size + 1) acb queue

/-! ## Doorbells -/

/-- A submission: where it begins in the ring and its size. -/
structure Submission where
  offsDw : Nat
  sizeDw : Nat
deriving DecidableEq, Repr

/-- What `sceGnmDingDong` submits. A doorbell behind the last one wraps around the end of the ring. -/
def dingDong (ringSizeDw offsDw nextOffsDw : Nat) : List Submission :=
  if nextOffsDw = offsDw then []
  else if nextOffsDw < offsDw ∧ nextOffsDw ≠ 0 then
    [⟨offsDw, U32.sub ringSizeDw offsDw⟩, ⟨0, U32.sub nextOffsDw 0⟩]
  else [⟨offsDw, U32.sub (if nextOffsDw ≠ 0 then nextOffsDw else ringSizeDw) offsDw⟩]

/-- The span of a submission once its task runs. -/
def Submission.span (memory : Nat → Dword) (queue : AscQueueInfo) (sub : Submission) : Span :=
  ⟨fun i => memory (queue.mapAddr + 4 * (sub.offsDw + i)), sub.sizeDw⟩

structure AscState where
  queue : AscQueueInfo
  ascNextOffsDw : Nat
  submits : List Submission
  fault : Option Fault

inductive AscAction where
  /-- A doorbell; the offset is one in the ring. -/
  | dingDong (nextOffsDw : Nat)
  /-- The task of the oldest submission runs, with this in memory. -/
  | process (memory : Nat → Dword)

inductive AscEvent where
  /-- The guest passed `n` more dwords of its stream. -/
  | rung (n : Nat)
  /-- A task was given a dword of the ring. -/
  | fetched (index : Nat) (word : Dword)
  | executed (execution : Execution)

/-- How far a doorbell goes, around the end of the ring where it is behind the last one. -/
def rungBy (ringSizeDw offsDw nextOffsDw : Nat) : Nat :=
  if nextOffsDw < offsDw then ringSizeDw - offsDw + nextOffsDw else nextOffsDw - offsDw

def Submission.fetches (memory : Nat → Dword) (queue : AscQueueInfo) (sub : Submission) : List AscEvent :=
  (List.range sub.sizeDw).map fun i => .fetched (sub.offsDw + i) ((sub.span memory queue).data i)

namespace AscState

def step (depth : Nat) (s : AscState) (a : AscAction) : Option (AscState × List AscEvent) :=
  if s.fault.isSome then none
  else
    match a with
    | .dingDong nextOffsDw =>
      if nextOffsDw ≤ s.queue.ringSizeDw then
        some ({ s with
            ascNextOffsDw := nextOffsDw
            submits := s.submits ++ dingDong s.queue.ringSizeDw s.ascNextOffsDw nextOffsDw },
          [.rung (rungBy s.queue.ringSizeDw s.ascNextOffsDw nextOffsDw)])
      else none
    | .process memory =>
      match s.submits with
      | [] => none
      | sub :: rest =>
        let fetches := sub.fetches memory s.queue
        match processCompute memory (depth + 1) false (sub.span memory s.queue) s.queue with
        | .ok r => some ({ s with queue := r.1, submits := rest }, fetches ++ r.2.map .executed)
        | .error fault => some ({ s with submits := rest, fault := some fault }, fetches)

end AscState

/-! ## When nothing is lost -/

/-- Whether a submission is made of packets that end in it, as far as their header says whatever their type is. Where
    `mayCut` holds its last packet may be incomplete, if it is no padding and what there is of it fits `tmp_packet`. -/
def isWhole (runs : Pointer → Bool) (mayCut : Bool) : Nat → Span → Bool
  | 0, acb => acb.size = 0
  | fuel + 1, acb =>
    if acb.size = 0 then true
    else if PM4Header.length (acb.data 0) ≤ acb.size then
      match PM4Header.type (acb.data 0) with
      | 2 => isWhole runs mayCut fuel (acb.next 1)
      | 3 => runs acb.data && isWhole runs mayCut fuel (acb.next (PM4Header.length (acb.data 0)))
      | _ => false
    else mayCut && PM4Header.type (acb.data 0) = 3 && acb.size ≤ pm4BufferSize

/-- The opcode is known, and an indirect buffer is whole. -/
def isRunnable (memory : Nat → Dword) (isWholeIndirect : Span → Bool) (header : Pointer) : Bool :=
  match PM4ItOpcode.decode (PM4Header.opcode (header 0)) with
  | none => false
  | some .indirectBuffer => isWholeIndirect (indirectBuffer memory header)
  | some _ => true

def isWholeIndirect (memory : Nat → Dword) : Nat → Span → Bool
  | 0, _ => false
  | depth + 1, acb => isWhole (isRunnable memory (isWholeIndirect memory depth)) false acb.size acb

/-- The packet that is buffered, completed from the submission. -/
def AscQueueInfo.completed (queue : AscQueueInfo) (acb : Span) : Pointer :=
  overwrite queue.tmpPacket queue.tmpDwords acb.data (PM4Header.length (queue.tmpPacket 0) - queue.tmpDwords)

/-- A buffered packet fits `tmp_packet` and ends in this submission, and the rest of the submission is whole. -/
def isIntact (memory : Nat → Dword) (depth : Nat) (queue : AscQueueInfo) (acb : Span) : Bool :=
  let runs := isRunnable memory (isWholeIndirect memory depth)
  if acb.size = 0 then true
  else if queue.tmpDwords > 0 then
    let length := PM4Header.length (queue.tmpPacket 0)
    length ≤ pm4BufferSize && length ≤ queue.tmpDwords + acb.size && runs (queue.completed acb) &&
      isWhole runs true acb.size (acb.next (length - queue.tmpDwords))
  else isWhole runs true acb.size acb

/-- Each submission is intact as its task runs. -/
def AscState.isIntact (depth : Nat) (s : AscState) : AscAction → Bool
  | .dingDong _ => true
  | .process memory =>
    match s.submits with
    | [] => true
    | sub :: _ => VideoCore.isIntact memory depth s.queue (sub.span memory s.queue)

/-! ## Streams -/

/-- A packet with nothing missing. -/
inductive PM4Packet where
  | padding (header : Dword) (isPadding : PM4Header.type header = 2)
  | command (header : Dword) (body : List Dword) (isCommand : PM4Header.type header = 3)
      (whole : body.length = PM4Header.numWords header)

def PM4Packet.words : PM4Packet → List Dword
  | .padding header _ => [header]
  | .command header body _ _ => header :: body

def PM4Packet.command? : PM4Packet → Option (List Dword)
  | .padding _ _ => none
  | .command header body _ _ => some (header :: body)

def encode (packets : List PM4Packet) : List Dword := packets.flatMap PM4Packet.words

/-- The type-3 packets of a stream, each with its header and body. -/
def commands (packets : List PM4Packet) : List (List Dword) := packets.filterMap PM4Packet.command?

/-- The beginning of a type-3 packet, or nothing. -/
def IsCut (part : List Dword) : Prop :=
  part = [] ∨ ∃ header body, part = header :: body ∧ PM4Header.type header = 3 ∧ body.length < PM4Header.numWords header

/-- What a history did with the ring: what the guest passed, what the tasks were given, and what they executed of it. -/
def rung : List AscEvent → Nat
  | [] => 0
  | .rung n :: h => n + rung h
  | _ :: h => rung h

def fetched : List AscEvent → List (Nat × Dword)
  | [] => []
  | .fetched index word :: h => (index, word) :: fetched h
  | _ :: h => fetched h

/-- Without what indirect buffers hold. -/
def executed : List AscEvent → List (List Dword)
  | [] => []
  | .executed e :: h => if e.isIndirect then executed h else e.packet :: executed h
  | _ :: h => executed h

@[simp] theorem rung_append (h h' : List AscEvent) : rung (h ++ h') = rung h + rung h' := by
  induction h with
  | nil => simp [rung]
  | cons e h ih => cases e <;> simp [rung, ih, Nat.add_assoc]

@[simp] theorem fetched_append (h h' : List AscEvent) : fetched (h ++ h') = fetched h ++ fetched h' := by
  induction h with
  | nil => rfl
  | cons e h ih => cases e <;> simp [fetched, ih]

@[simp] theorem executed_append (h h' : List AscEvent) : executed (h ++ h') = executed h ++ executed h' := by
  induction h with
  | nil => rfl
  | cons e h ih =>
    cases e with
    | executed e => cases he : e.isIndirect <;> simp [executed, he, ih]
    | _ => simp [executed, ih]

@[simp] theorem encode_append (ps qs : List PM4Packet) : encode (ps ++ qs) = encode ps ++ encode qs :=
  List.flatMap_append

@[simp] theorem commands_append (ps qs : List PM4Packet) : commands (ps ++ qs) = commands ps ++ commands qs :=
  List.filterMap_append

theorem encode_cons (p : PM4Packet) (ps : List PM4Packet) : encode (p :: ps) = p.words ++ encode ps :=
  List.flatMap_cons

/-! ## Streams can be read in one way only -/

theorem type_ne_of_padding {header : Dword} (h : PM4Header.type header = 2) : PM4Header.type header ≠ 3 := by omega

/-- A cut packet does not begin with a whole one. -/
theorem IsCut.ne_words_append {part rest : List Dword} (hcut : IsCut part) (p : PM4Packet) : part ≠ p.words ++ rest := by
  intro heq
  cases hcut with
  | inl hnil =>
    rw [hnil] at heq
    cases p <;> cases heq
  | inr hcut =>
    obtain ⟨header, body, rfl, htype, hlength⟩ := hcut
    cases p with
    | padding header' hpadding =>
      obtain ⟨rfl, -⟩ := List.cons.inj heq
      exact type_ne_of_padding hpadding htype
    | command header' body' _ hwhole =>
      obtain ⟨rfl, rfl⟩ := List.cons.inj heq
      have hlong : (body' ++ rest).length < PM4Header.numWords header := hlength
      rw [length_append] at hlong
      omega

theorem PM4Packet.words_append_inj {p q : PM4Packet} {a b : List Dword} (heq : p.words ++ a = q.words ++ b) :
    p = q ∧ a = b := by
  cases p with
  | padding header hp =>
    cases q with
    | padding header' hq =>
      obtain ⟨rfl, rfl⟩ := List.cons.inj heq
      exact ⟨rfl, rfl⟩
    | command header' body' hq _ =>
      obtain ⟨rfl, -⟩ := List.cons.inj heq
      exact absurd hq (type_ne_of_padding hp)
  | command header body hp hwhole =>
    cases q with
    | padding header' hq =>
      obtain ⟨rfl, -⟩ := List.cons.inj heq
      exact absurd hp (type_ne_of_padding hq)
    | command header' body' hq hwhole' =>
      obtain ⟨rfl, hbody⟩ := List.cons.inj heq
      obtain ⟨rfl, rfl⟩ := List.append_inj hbody (hwhole.trans hwhole'.symm)
      exact ⟨rfl, rfl⟩

/-- Dwords are the whole packets of a stream and the beginning of the next in one way at most. -/
theorem encode_append_inj {ps qs : List PM4Packet} {a b : List Dword} (ha : IsCut a) (hb : IsCut b)
    (heq : encode ps ++ a = encode qs ++ b) : ps = qs ∧ a = b := by
  induction ps generalizing qs with
  | nil =>
    cases qs with
    | nil => exact ⟨rfl, heq⟩
    | cons q qs =>
      rw [encode_cons, append_assoc] at heq
      exact absurd heq (ha.ne_words_append q)
  | cons p ps ih =>
    cases qs with
    | nil =>
      rw [encode_cons, append_assoc] at heq
      exact absurd heq.symm (hb.ne_words_append p)
    | cons q qs =>
      rw [encode_cons, encode_cons, append_assoc, append_assoc] at heq
      obtain ⟨rfl, htail⟩ := PM4Packet.words_append_inj heq
      obtain ⟨rfl, rfl⟩ := ih htail
      exact ⟨rfl, rfl⟩

/-! ## Dwords -/

@[simp] theorem readDwords_length (p : Pointer) (n : Nat) : (readDwords p n).length = n := by
  simp [readDwords]

theorem readDwords_add (p : Pointer) (m n : Nat) :
    readDwords p (m + n) = readDwords p m ++ readDwords (fun i => p (m + i)) n := by
  simp only [readDwords, List.range_add, map_append, map_map]
  rfl

theorem readDwords_congr {p q : Pointer} {n : Nat} (h : ∀ i < n, p i = q i) : readDwords p n = readDwords q n :=
  List.map_congr_left fun i hi => h i (List.mem_range.mp hi)

theorem readDwords_succ (p : Pointer) (n : Nat) : readDwords p (n + 1) = p 0 :: readDwords (fun i => p (1 + i)) n := by
  rw [Nat.add_comm, readDwords_add]
  rfl

/-- The dwords before `off` stay, those after it are the new ones. -/
theorem readDwords_overwrite (p source : Pointer) (off n : Nat) :
    readDwords (overwrite p off source n) (off + n) = readDwords p off ++ readDwords source n := by
  rw [readDwords_add]
  have hbefore : readDwords (overwrite p off source n) off = readDwords p off :=
    readDwords_congr fun i hi => if_neg (by omega)
  have hafter : readDwords (fun i => overwrite p off source n (off + i)) n = readDwords source n := by
    refine readDwords_congr fun i hi => ?_
    rw [overwrite, if_pos (by omega), Nat.add_sub_cancel_left]
  rw [hbefore, hafter]

theorem Span.words_next {acb : Span} {n : Nat} (h : n ≤ acb.size) :
    acb.words = readDwords acb.data n ++ (acb.next n).words := by
  have hsize : n + (acb.size - n) = acb.size := Nat.add_sub_cancel' h
  rw [Span.words, ← hsize, readDwords_add]
  rfl

@[simp] theorem Span.words_length (acb : Span) : acb.words.length = acb.size := readDwords_length _ _

theorem Span.next_size (acb : Span) (n : Nat) : (acb.next n).size = acb.size - n := rfl

theorem Span.words_of_size_eq_zero {acb : Span} (h : acb.size = 0) : acb.words = [] := by
  rw [Span.words, h]
  rfl

/-- The packet at the front of the dwords from `p` on. -/
def packetAt (p : Pointer) (htype : PM4Header.type (p 0) = 3) : PM4Packet :=
  .command (p 0) (readDwords (fun i => p (1 + i)) (PM4Header.numWords (p 0))) htype (readDwords_length _ _)

theorem packetAt_words {p : Pointer} (htype : PM4Header.type (p 0) = 3) :
    (packetAt p htype).words = readDwords p (PM4Header.length (p 0)) :=
  (readDwords_succ p _).symm

theorem packetAt_command? {p : Pointer} (htype : PM4Header.type (p 0) = 3) :
    (packetAt p htype).command? = some (readDwords p (PM4Header.length (p 0))) := by
  rw [PM4Header.length, readDwords_succ]
  rfl

/-! ## What a task does to the queue -/

/-- Only `read_addr` and the buffered dwords change; `read_addr` moves by `n` dwords around the ring. -/
structure AscQueueInfo.Moved (queue queue' : AscQueueInfo) (n : Nat) : Prop where
  mapAddr : queue'.mapAddr = queue.mapAddr
  ringSizeDw : queue'.ringSizeDw = queue.ringSizeDw
  readAddr : queue'.readAddr ≡ queue.readAddr + n [MOD queue.ringSizeDw]
  readAddr_lt : queue.readAddr < queue.ringSizeDw → queue'.readAddr < queue.ringSizeDw

theorem AscQueueInfo.Moved.refl (queue : AscQueueInfo) : queue.Moved queue 0 :=
  ⟨rfl, rfl, Nat.ModEq.refl _, id⟩

theorem AscQueueInfo.Moved.trans {q₁ q₂ q₃ : AscQueueInfo} {m n : Nat} (h : q₁.Moved q₂ m) (h' : q₂.Moved q₃ n) :
    q₁.Moved q₃ (m + n) := by
  refine ⟨h'.mapAddr.trans h.mapAddr, h'.ringSizeDw.trans h.ringSizeDw, ?_, fun hlt => ?_⟩
  · have htail : q₃.readAddr ≡ q₂.readAddr + n [MOD q₁.ringSizeDw] := h.ringSizeDw ▸ h'.readAddr
    refine htail.trans ?_
    rw [← Nat.add_assoc]
    exact h.readAddr.add_right n
  · have hlt' := h.readAddr_lt hlt
    rw [← h.ringSizeDw] at hlt' ⊢
    exact h'.readAddr_lt hlt'

theorem AscQueueInfo.ringSizeDw_pos (queue : AscQueueInfo) : 0 < queue.ringSizeDw := by
  obtain ⟨k, -, hk⟩ := queue.hasSingleBit
  rw [hk]
  exact Nat.two_pow_pos k

/-- The sum wraps at a multiple of the size of the ring. -/
theorem AscQueueInfo.ringSizeDw_dvd (queue : AscQueueInfo) : queue.ringSizeDw ∣ 2 ^ 32 := by
  obtain ⟨k, hlt, hk⟩ := queue.hasSingleBit
  rw [hk]
  exact pow_dvd_pow 2 hlt.le

/-- How far a task moves `read_addr` for `n` dwords. -/
def taken (isIndirect : Bool) (n : Nat) : Nat := if isIndirect then 0 else n

theorem taken_add (isIndirect : Bool) (m n : Nat) : taken isIndirect (m + n) = taken isIndirect m + taken isIndirect n := by
  cases isIndirect <;> rfl

theorem AscQueueInfo.advance_moved (queue : AscQueueInfo) (isIndirect : Bool) (n : Nat) :
    queue.Moved (queue.advance isIndirect n) (taken isIndirect n) := by
  cases isIndirect with
  | true => exact .refl queue
  | false =>
    refine ⟨rfl, rfl, ?_, fun _ => Nat.mod_lt _ queue.ringSizeDw_pos⟩
    show U32.add queue.readAddr n % queue.ringSizeDw ≡ queue.readAddr + n [MOD queue.ringSizeDw]
    unfold U32.add
    refine (Nat.mod_modEq _ _).trans ?_
    exact (Nat.mod_modEq (queue.readAddr + n) (2 ^ 32)).of_dvd queue.ringSizeDw_dvd

@[simp] theorem AscQueueInfo.advance_tmpDwords (queue : AscQueueInfo) (isIndirect : Bool) (n : Nat) :
    (queue.advance isIndirect n).tmpDwords = queue.tmpDwords := by cases isIndirect <;> rfl

@[simp] theorem AscQueueInfo.advance_tmpPacket (queue : AscQueueInfo) (isIndirect : Bool) (n : Nat) :
    (queue.advance isIndirect n).tmpPacket = queue.tmpPacket := by cases isIndirect <;> rfl

/-- The buffered dwords. -/
def AscQueueInfo.carried (queue : AscQueueInfo) : List Dword := readDwords queue.tmpPacket queue.tmpDwords

/-- A task ran to its end over `words`, after what was buffered before: whole packets, and the beginning of another
    that is buffered now. -/
structure Processed (isIndirect mayCut : Bool) (queue : AscQueueInfo) (words : List Dword)
    (r : AscQueueInfo × List Execution) : Prop where
  moved : queue.Moved r.1 (taken isIndirect words.length)
  isCut : IsCut r.1.carried
  uncut : mayCut = false → r.1.tmpDwords = 0
  stream : ∃ packets, queue.carried ++ words = encode packets ++ r.1.carried ∧
    executed (r.2.map .executed) = if isIndirect then [] else commands packets

theorem AscQueueInfo.carried_of_tmpDwords_eq_zero {queue : AscQueueInfo} (h : queue.tmpDwords = 0) :
    queue.carried = [] := by
  rw [carried, h]
  rfl

theorem isCut_nil : IsCut [] := .inl rfl

section Loop

variable {isIndirect mayCut : Bool} {queue queue' : AscQueueInfo} {acb : Span}

theorem Processed.nil (h : queue.tmpDwords = 0) : Processed isIndirect mayCut queue [] (queue, []) := by
  have hcarried := AscQueueInfo.carried_of_tmpDwords_eq_zero h
  refine ⟨?_, hcarried ▸ isCut_nil, fun _ => h, [], ?_, ?_⟩
  · cases isIndirect <;> exact .refl queue
  · rw [hcarried]
    rfl
  · cases isIndirect <;> rfl

/-- A packet, completed by `first`, comes before what is processed next. -/
theorem Processed.cons {p : PM4Packet} {first words : List Dword} {es : List Execution}
    {r : AscQueueInfo × List Execution} (hfirst : queue.carried ++ first = p.words)
    (hmoved : queue.Moved queue' (taken isIndirect first.length)) (hempty : queue'.tmpDwords = 0)
    (hes : executed (es.map .executed) = if isIndirect then [] else commands [p])
    (h : Processed isIndirect mayCut queue' words r) :
    Processed isIndirect mayCut queue (first ++ words) (r.1, es ++ r.2) := by
  obtain ⟨packets, hwords, hexecuted⟩ := h.stream
  refine ⟨?_, h.isCut, h.uncut, p :: packets, ?_, ?_⟩
  · rw [length_append, taken_add]
    exact hmoved.trans h.moved
  · rw [AscQueueInfo.carried_of_tmpDwords_eq_zero hempty, List.nil_append] at hwords
    rw [← append_assoc, hfirst, hwords, encode_cons, append_assoc]
  · rw [map_append, executed_append, hes, hexecuted]
    cases isIndirect with
    | true => rfl
    | false => exact (commands_append [p] packets).symm

/-- What is left of the submission is the beginning of a packet, and is buffered. -/
theorem Processed.cut (hempty : queue.tmpDwords = 0) (htype : PM4Header.type (acb.data 0) = 3) (hpos : acb.size ≠ 0)
    (hlength : acb.size < PM4Header.length (acb.data 0)) :
    Processed isIndirect true queue acb.words
      (({ queue with tmpPacket := overwrite queue.tmpPacket 0 acb.data acb.size, tmpDwords := acb.size } :
        AscQueueInfo).advance isIndirect acb.size, []) := by
  let buffered : AscQueueInfo :=
    { queue with tmpPacket := overwrite queue.tmpPacket 0 acb.data acb.size, tmpDwords := acb.size }
  have hcarried : (buffered.advance isIndirect acb.size).carried = acb.words := by
    rw [AscQueueInfo.carried, AscQueueInfo.advance_tmpDwords, AscQueueInfo.advance_tmpPacket]
    have hread := readDwords_overwrite queue.tmpPacket acb.data 0 acb.size
    rw [Nat.zero_add] at hread
    exact hread
  refine ⟨?_, ?_, (fun h => by cases h), [], ?_, ?_⟩
  · rw [Span.words_length]
    have hmoved : queue.Moved buffered 0 := ⟨rfl, rfl, Nat.ModEq.refl _, id⟩
    have hadvance := hmoved.trans (buffered.advance_moved isIndirect acb.size)
    rwa [Nat.zero_add] at hadvance
  · rw [hcarried]
    obtain ⟨n, hn⟩ := Nat.exists_eq_succ_of_ne_zero hpos
    refine .inr ⟨acb.data 0, readDwords (fun i => acb.data (1 + i)) n, ?_, htype, ?_⟩
    · rw [Span.words, hn, readDwords_succ]
    · rw [readDwords_length]
      unfold PM4Header.length at hlength
      omega
  · rw [hcarried, AscQueueInfo.carried_of_tmpDwords_eq_zero hempty]
    rfl
  · cases isIndirect <;> rfl

/-- A switch runs what `runs` lets through, and leaves nothing buffered. -/
def Switches (switch : Pointer → AscQueueInfo → Outcome (AscQueueInfo × List Execution)) (runs : Pointer → Bool)
    (isIndirect : Bool) : Prop :=
  ∀ header queue, runs header = true → queue.tmpDwords = 0 →
    ∃ r, switch header queue = .ok r ∧ queue.Moved r.1 0 ∧ r.1.tmpDwords = 0 ∧
      executed (r.2.map .executed) = if isIndirect then [] else [readDwords header (PM4Header.length (header 0))]

variable {switch : Pointer → AscQueueInfo → Outcome (AscQueueInfo × List Execution)} {runs : Pointer → Bool}
  {fuel : Nat}

theorem processLoop_of_size_eq_zero (h : acb.size = 0) : processLoop switch isIndirect fuel acb queue = .ok (queue, []) := by
  cases fuel <;> exact if_pos h

theorem AscQueueInfo.front_of_tmpDwords_eq_zero (h : queue.tmpDwords = 0) :
    queue.front acb = .ok (acb.data, PM4Header.length (acb.data 0), queue) :=
  if_neg (by omega)

section Round

variable {header : Pointer} {n : Nat} {queue₀ : AscQueueInfo} (hsize : acb.size ≠ 0)
  (hfront : queue.front acb = .ok (header, n, queue₀))

include hsize hfront

theorem processLoop_cut (hn : acb.size < n) (hfits : acb.size ≤ pm4BufferSize) :
    processLoop switch isIndirect (fuel + 1) acb queue =
      .ok (({ queue₀ with tmpPacket := overwrite queue₀.tmpPacket 0 acb.data acb.size, tmpDwords := acb.size } :
        AscQueueInfo).advance isIndirect acb.size, []) := by
  have hcopy : queue₀.memcpyTmp 0 acb.data acb.size =
      .ok { queue₀ with tmpPacket := overwrite queue₀.tmpPacket 0 acb.data acb.size } := if_pos (by omega)
  simp only [processLoop, if_neg hsize, hfront, Outcome.ok_bind, if_pos hn, hcopy]
  rfl

theorem processLoop_padding (hn : n ≤ acb.size) (htype : PM4Header.type (header 0) = 2) :
    processLoop switch isIndirect (fuel + 1) acb queue =
      processLoop switch isIndirect fuel (acb.next 1) (queue₀.advance isIndirect 1) := by
  simp only [processLoop, if_neg hsize, hfront, Outcome.ok_bind, if_neg (Nat.not_lt.mpr hn), htype]

theorem processLoop_command (hn : n ≤ acb.size) (htype : PM4Header.type (header 0) = 3)
    {e rest : AscQueueInfo × List Execution} (hswitch : switch header queue₀ = .ok e)
    (hrest : processLoop switch isIndirect fuel (acb.next n) (e.1.advance isIndirect n) = .ok rest) :
    processLoop switch isIndirect (fuel + 1) acb queue = .ok (rest.1, e.2 ++ rest.2) := by
  simp only [processLoop, if_neg hsize, hfront, Outcome.ok_bind, if_neg (Nat.not_lt.mpr hn), htype, hswitch,
    hrest]
  rfl

end Round

/-- With nothing buffered, a whole submission is processed packet by packet. -/
theorem processLoop_isWhole (hswitch : Switches switch runs isIndirect) {left : Nat} (hfuel : acb.size ≤ fuel)
    (hwhole : isWhole runs mayCut left acb = true) (hempty : queue.tmpDwords = 0) :
    ∃ r, processLoop switch isIndirect fuel acb queue = .ok r ∧ Processed isIndirect mayCut queue acb.words r := by
  have hdone : ∀ {acb : Span} {queue : AscQueueInfo} {fuel : Nat}, acb.size = 0 → queue.tmpDwords = 0 →
      ∃ r, processLoop switch isIndirect fuel acb queue = .ok r ∧ Processed isIndirect mayCut queue acb.words r := by
    intro acb queue fuel hsize hempty
    refine ⟨_, processLoop_of_size_eq_zero hsize, ?_⟩
    rw [Span.words_of_size_eq_zero hsize]
    exact .nil hempty
  induction left generalizing acb queue fuel with
  | zero => exact hdone (of_decide_eq_true hwhole) hempty
  | succ left ih =>
    by_cases hsize : acb.size = 0
    · exact hdone hsize hempty
    obtain ⟨fuel, rfl⟩ : ∃ fuel', fuel = fuel' + 1 := ⟨fuel - 1, by omega⟩
    have hfront : queue.front acb = .ok (acb.data, PM4Header.length (acb.data 0), queue) :=
      AscQueueInfo.front_of_tmpDwords_eq_zero hempty
    have hpos := PM4Header.length_pos (acb.data 0)
    have hcarried := AscQueueInfo.carried_of_tmpDwords_eq_zero hempty
    simp only [isWhole, if_neg hsize] at hwhole
    split at hwhole
    · next hlength =>
      split at hwhole
      · next htype =>
        obtain ⟨r, hr, hprocessed⟩ := @ih (queue.advance isIndirect 1) (acb.next 1) fuel
          (by rw [Span.next_size]; omega) hwhole (by rw [AscQueueInfo.advance_tmpDwords]; exact hempty)
        refine ⟨r, (processLoop_padding hsize hfront hlength htype).trans hr, ?_⟩
        rw [Span.words_next (Nat.one_le_iff_ne_zero.mpr hsize)]
        exact hprocessed.cons (p := .padding (acb.data 0) htype)
          (show queue.carried ++ readDwords acb.data 1 = _ by rw [hcarried]; rfl) (queue.advance_moved isIndirect 1)
          (by rw [AscQueueInfo.advance_tmpDwords]; exact hempty)
          (show executed (List.map _ []) = _ by cases isIndirect <;> rfl)
      · next htype =>
        obtain ⟨hruns, hrest⟩ := Bool.and_eq_true_iff.mp hwhole
        obtain ⟨e, he, hmoved, hempty', hexecuted⟩ := hswitch acb.data queue hruns hempty
        have hadvanced : (e.1.advance isIndirect (PM4Header.length (acb.data 0))).tmpDwords = 0 := by
          rw [AscQueueInfo.advance_tmpDwords]
          exact hempty'
        obtain ⟨r, hr, hprocessed⟩ := @ih (e.1.advance isIndirect (PM4Header.length (acb.data 0)))
          (acb.next (PM4Header.length (acb.data 0))) fuel
          (by rw [Span.next_size]; omega) hrest hadvanced
        refine ⟨_, processLoop_command hsize hfront hlength htype he hr, ?_⟩
        rw [Span.words_next hlength]
        refine hprocessed.cons (p := packetAt acb.data htype) ?_ ?_ hadvanced ?_
        · rw [hcarried, packetAt_words]
          rfl
        · have hmoved' := hmoved.trans (e.1.advance_moved isIndirect (PM4Header.length (acb.data 0)))
          rw [Nat.zero_add] at hmoved'
          rwa [readDwords_length]
        · rw [hexecuted, commands, List.filterMap_cons, packetAt_command?]
          rfl
      · cases hwhole
    · next hlength =>
      simp only [Bool.and_eq_true, decide_eq_true_eq] at hwhole
      obtain ⟨⟨rfl, htype⟩, hfits⟩ := hwhole
      exact ⟨_, processLoop_cut hsize hfront (Nat.lt_of_not_le hlength) hfits,
        .cut hempty htype hsize (Nat.lt_of_not_le hlength)⟩

end Loop

/-! ## Tasks -/

theorem execute_switches {memory : Nat → Dword} {indirect : Task} {whole : Span → Bool}
    (hindirect : ∀ acb queue, whole acb = true → queue.tmpDwords = 0 →
      ∃ r, indirect acb queue = .ok r ∧ Processed true false queue acb.words r) (isIndirect : Bool) :
    Switches (execute memory indirect isIndirect) (isRunnable memory whole) isIndirect := by
  intro header queue hruns hempty
  have hself : executed [.executed ⟨isIndirect, readDwords header (PM4Header.length (header 0))⟩] =
      if isIndirect then [] else [readDwords header (PM4Header.length (header 0))] := by
    cases isIndirect <;> rfl
  simp only [isRunnable] at hruns
  split at hruns
  · cases hruns
  · next hopcode =>
    obtain ⟨r, hr, hprocessed⟩ := hindirect (indirectBuffer memory header) queue hruns hempty
    refine ⟨(r.1, ⟨isIndirect, readDwords header (PM4Header.length (header 0))⟩ :: r.2), ?_, hprocessed.moved,
      hprocessed.uncut rfl, ?_⟩
    · simp only [execute, hopcode, hr]
      rfl
    · obtain ⟨packets, -, hnested⟩ := hprocessed.stream
      rw [if_pos rfl] at hnested
      rw [map_cons, ← List.singleton_append, executed_append, hself, hnested, append_nil]
  · next opcode hne hopcode =>
    refine ⟨(queue, [⟨isIndirect, readDwords header (PM4Header.length (header 0))⟩]), ?_, .refl queue, hempty, hself⟩
    simp only [execute, hopcode]

/-- An indirect buffer that is whole is gone through. -/
theorem processCompute_indirect (memory : Nat → Dword) (depth : Nat) (acb : Span) (queue : AscQueueInfo)
    (hwhole : isWholeIndirect memory depth acb = true) (hempty : queue.tmpDwords = 0) :
    ∃ r, processCompute memory depth true acb queue = .ok r ∧ Processed true false queue acb.words r := by
  induction depth generalizing acb queue with
  | zero => cases hwhole
  | succ depth ih => exact processLoop_isWhole (execute_switches ih true) (by omega) hwhole hempty

section Submission

variable {memory : Nat → Dword} {depth : Nat} {queue : AscQueueInfo} {acb : Span}

/-- The buffered packet is completed and taken. -/
theorem AscQueueInfo.front_of_carried (hcarried : queue.tmpDwords > 0)
    (hlt : queue.tmpDwords < PM4Header.length (queue.tmpPacket 0))
    (hfits : PM4Header.length (queue.tmpPacket 0) ≤ pm4BufferSize) :
    queue.front acb = .ok (queue.completed acb, PM4Header.length (queue.tmpPacket 0) - queue.tmpDwords,
      { queue with tmpPacket := queue.completed acb, tmpDwords := 0 }) := by
  have hsub : U32.sub (PM4Header.length (queue.tmpPacket 0)) queue.tmpDwords =
      PM4Header.length (queue.tmpPacket 0) - queue.tmpDwords :=
    U32.sub_of_le (Nat.lt_of_le_of_lt (PM4Header.length_le _) (by norm_num)) hlt.le
  have hcopy : queue.memcpyTmp queue.tmpDwords acb.data (PM4Header.length (queue.tmpPacket 0) - queue.tmpDwords) =
      .ok { queue with tmpPacket := queue.completed acb } := if_pos (by omega)
  simp only [front, if_pos hcarried, hsub, hcopy]
  rfl

/-- The header of a cut packet is known, and so is that it is no padding. -/
theorem IsCut.of_carried (hcut : IsCut queue.carried) (hpos : queue.tmpDwords > 0) :
    PM4Header.type (queue.tmpPacket 0) = 3 ∧ queue.tmpDwords < PM4Header.length (queue.tmpPacket 0) := by
  obtain ⟨n, hn⟩ : ∃ n, queue.tmpDwords = n + 1 := ⟨queue.tmpDwords - 1, by omega⟩
  have hread : queue.carried = queue.tmpPacket 0 :: readDwords (fun i => queue.tmpPacket (1 + i)) n := by
    rw [AscQueueInfo.carried, hn, readDwords_succ]
  cases hcut with
  | inl hnil =>
    rw [hread] at hnil
    cases hnil
  | inr hcut =>
    obtain ⟨header, body, heq, htype, hlength⟩ := hcut
    rw [hread] at heq
    obtain ⟨rfl, rfl⟩ := List.cons.inj heq
    rw [readDwords_length] at hlength
    refine ⟨htype, ?_⟩
    unfold PM4Header.length
    omega

theorem AscQueueInfo.completed_zero (hpos : queue.tmpDwords > 0) : queue.completed acb 0 = queue.tmpPacket 0 :=
  if_neg (by omega)

/-- A submission that is intact is gone through, from what was buffered on to what is buffered next. -/
theorem processCompute_isIntact (hcut : IsCut queue.carried) (hintact : isIntact memory depth queue acb = true) :
    ∃ r, processCompute memory (depth + 1) false acb queue = .ok r ∧ IsCut r.1.carried ∧
      queue.Moved r.1 acb.size ∧ ∃ packets, queue.carried ++ acb.words = encode packets ++ r.1.carried ∧
        executed (r.2.map .executed) = commands packets := by
  have hswitch := @execute_switches memory _ _ (processCompute_indirect memory depth) false
  have hloop : ∀ {acb : Span} {queue : AscQueueInfo} {fuel left : Nat}, acb.size ≤ fuel → queue.tmpDwords = 0 →
      isWhole (isRunnable memory (isWholeIndirect memory depth)) true left acb = true →
      ∃ r, processLoop (execute memory (processCompute memory depth true) false) false fuel acb queue = .ok r ∧
        Processed false true queue acb.words r :=
    fun hfuel hempty hwhole => processLoop_isWhole hswitch hfuel hwhole hempty
  have hfinish : ∀ {words : List Dword} {r : AscQueueInfo × List Execution}, Processed false true queue words r →
      words = acb.words → IsCut r.1.carried ∧ queue.Moved r.1 acb.size ∧
        ∃ packets, queue.carried ++ acb.words = encode packets ++ r.1.carried ∧
          executed (r.2.map .executed) = commands packets := by
    intro words r hprocessed hwords
    subst hwords
    have hmoved := hprocessed.moved
    rw [Span.words_length] at hmoved
    exact ⟨hprocessed.isCut, hmoved, hprocessed.stream⟩
  simp only [isIntact] at hintact
  split at hintact
  · next hsize =>
    refine ⟨_, processLoop_of_size_eq_zero hsize, hcut, hsize ▸ .refl queue, [], ?_, rfl⟩
    rw [Span.words_of_size_eq_zero hsize, append_nil]
    rfl
  · next hsize =>
    split at hintact
    · next hpos =>
      simp only [Bool.and_eq_true, decide_eq_true_eq] at hintact
      obtain ⟨⟨⟨hfits, hends⟩, hruns⟩, hwhole⟩ := hintact
      obtain ⟨htype, hlt⟩ := IsCut.of_carried hcut hpos
      have hheader : queue.completed acb 0 = queue.tmpPacket 0 := AscQueueInfo.completed_zero hpos
      have hn : PM4Header.length (queue.tmpPacket 0) - queue.tmpDwords ≤ acb.size := by omega
      let taken₀ : AscQueueInfo := { queue with tmpPacket := queue.completed acb, tmpDwords := 0 }
      obtain ⟨e, he, hmoved, hempty, hexecuted⟩ := hswitch (queue.completed acb) taken₀ hruns rfl
      obtain ⟨r, hr, hprocessed⟩ := @hloop (acb.next (PM4Header.length (queue.tmpPacket 0) - queue.tmpDwords))
        (e.1.advance false (PM4Header.length (queue.tmpPacket 0) - queue.tmpDwords)) (2 * acb.size) _
        (by rw [Span.next_size]; omega) (by rw [AscQueueInfo.advance_tmpDwords]; exact hempty) hwhole
      have hrun := processLoop_command hsize (AscQueueInfo.front_of_carried hpos hlt hfits) hn
        (by rw [hheader]; exact htype) he hr
      have hread : queue.carried ++ readDwords acb.data (PM4Header.length (queue.tmpPacket 0) - queue.tmpDwords) =
          readDwords (queue.completed acb) (PM4Header.length (queue.completed acb 0)) := by
        have hoverwrite := readDwords_overwrite queue.tmpPacket acb.data queue.tmpDwords
          (PM4Header.length (queue.tmpPacket 0) - queue.tmpDwords)
        rw [Nat.add_sub_cancel' hlt.le] at hoverwrite
        rw [hheader]
        exact hoverwrite.symm
      refine ⟨_, hrun, hfinish (hprocessed.cons (p := packetAt (queue.completed acb) (by rw [hheader]; exact htype))
        ?_ ?_ ?_ ?_) (Span.words_next hn).symm⟩
      · rw [packetAt_words]
        exact hread
      · rw [readDwords_length]
        have hmoved' := hmoved.trans
          (e.1.advance_moved false (PM4Header.length (queue.tmpPacket 0) - queue.tmpDwords))
        rw [Nat.zero_add] at hmoved'
        exact ⟨hmoved'.mapAddr, hmoved'.ringSizeDw, hmoved'.readAddr, hmoved'.readAddr_lt⟩
      · exact hempty
      · rw [hexecuted, commands, List.filterMap_cons, packetAt_command?]
        rfl
    · next hpos =>
      obtain ⟨r, hr, hprocessed⟩ := @hloop acb queue (2 * acb.size + 1) _ (by omega) (Nat.eq_zero_of_not_pos hpos) hintact
      exact ⟨r, hr, hfinish hprocessed rfl⟩

end Submission

/-! ## Runs -/

/-- A queue as `sceGnmMapComputeQueue` leaves it. -/
def AscState.map (mapAddr ringSizeDw : Nat) (hasSingleBit : ∃ k < 32, ringSizeDw = 2 ^ k) : AscState :=
  ⟨⟨mapAddr, 0, ringSizeDw, hasSingleBit, fun _ => 0, 0⟩, 0, [], none⟩

def pendingSize (submits : List Submission) : Nat := (submits.map (·.sizeDw)).sum

/-- The submissions follow each other around the ring, from the dword with the number `pos` on up to the last doorbell. -/
def Located (ringSizeDw nextOffsDw : Nat) : Nat → List Submission → Prop
  | pos, [] => nextOffsDw ≡ pos [MOD ringSizeDw]
  | pos, sub :: rest =>
    sub.offsDw ≡ pos [MOD ringSizeDw] ∧ sub.offsDw + sub.sizeDw ≤ ringSizeDw ∧
      Located ringSizeDw nextOffsDw (pos + sub.sizeDw) rest

theorem Located.append {ringSizeDw offsDw nextOffsDw pos : Nat} {submits new : List Submission}
    (h : Located ringSizeDw offsDw pos submits)
    (hnew : ∀ pos, offsDw ≡ pos [MOD ringSizeDw] → Located ringSizeDw nextOffsDw pos new) :
    Located ringSizeDw nextOffsDw pos (submits ++ new) := by
  induction submits generalizing pos with
  | nil => exact hnew pos h
  | cons sub rest ih => exact ⟨h.1, h.2.1, ih h.2.2⟩

section DingDong

variable {ringSizeDw offsDw nextOffsDw : Nat} (hring : ringSizeDw < 2 ^ 32) (hoffs : offsDw ≤ ringSizeDw)
  (hnext : nextOffsDw ≤ ringSizeDw)

include hring hoffs hnext

/-- A doorbell submits what is between the last one and it. -/
theorem dingDong_located {pos : Nat} (hpos : offsDw ≡ pos [MOD ringSizeDw]) :
    Located ringSizeDw nextOffsDw pos (dingDong ringSizeDw offsDw nextOffsDw) := by
  have hend : ringSizeDw ≡ 0 [MOD ringSizeDw] := (Nat.modEq_zero_iff_dvd.mpr dvd_rfl)
  unfold dingDong
  split_ifs with heq hwrap hzero
  · exact heq ▸ hpos
  · rw [U32.sub_of_le hring hoffs, U32.sub_of_le (by omega) (Nat.zero_le _)]
    have htail : pos + (ringSizeDw - offsDw) ≡ 0 [MOD ringSizeDw] := by
      refine (hpos.symm.add_right _).trans ?_
      rw [Nat.add_sub_cancel' hoffs]
      exact hend
    refine ⟨hpos, by dsimp only; omega, htail.symm, by dsimp only; omega, ?_⟩
    have hlast := htail.symm.add_right nextOffsDw
    rwa [Nat.zero_add] at hlast
  · rw [U32.sub_of_le (by omega) (by omega)]
    refine ⟨hpos, by dsimp only; omega, ?_⟩
    have hlast := hpos.add_right (nextOffsDw - offsDw)
    rwa [Nat.add_sub_cancel' (by omega)] at hlast
  · rw [U32.sub_of_le hring hoffs]
    have hzero : nextOffsDw = 0 := by omega
    refine ⟨hpos, by dsimp only; omega, ?_⟩
    rw [hzero]
    refine Nat.ModEq.symm ((hpos.symm.add_right _).trans ?_)
    rw [Nat.add_sub_cancel' hoffs]
    exact hend

theorem dingDong_pendingSize :
    pendingSize (dingDong ringSizeDw offsDw nextOffsDw) = rungBy ringSizeDw offsDw nextOffsDw := by
  unfold dingDong rungBy pendingSize
  split_ifs with heq hbehind hwrap hback hzero hzero
  · omega
  · exact (Nat.sub_eq_zero_of_le heq.le).symm
  · simp [U32.sub_of_le hring hoffs, U32.sub_of_le (show nextOffsDw < 2 ^ 32 by omega) (Nat.zero_le _)]
  · omega
  · omega
  · simp [U32.sub_of_le (show nextOffsDw < 2 ^ 32 by omega) (show offsDw ≤ nextOffsDw by omega)]
  · rw [List.map_singleton, U32.sub_of_le hring hoffs]
    show ringSizeDw - offsDw = ringSizeDw - offsDw + nextOffsDw
    omega
  · omega

end DingDong

@[simp] theorem executed_fetches (memory : Nat → Dword) (queue : AscQueueInfo) (sub : Submission) :
    executed (sub.fetches memory queue) = [] := by
  unfold Submission.fetches
  induction List.range sub.sizeDw with
  | nil => rfl
  | cons i is ih => exact ih

@[simp] theorem rung_fetches (memory : Nat → Dword) (queue : AscQueueInfo) (sub : Submission) :
    rung (sub.fetches memory queue) = 0 := by
  unfold Submission.fetches
  induction List.range sub.sizeDw with
  | nil => rfl
  | cons i is ih => exact ih

theorem fetched_fetches (memory : Nat → Dword) (queue : AscQueueInfo) (sub : Submission) :
    fetched (sub.fetches memory queue) =
      (List.range sub.sizeDw).map fun i => (sub.offsDw + i, (sub.span memory queue).data i) := by
  unfold Submission.fetches
  induction List.range sub.sizeDw with
  | nil => rfl
  | cons i is ih =>
    simp only [map_cons, fetched]
    rw [ih]

@[simp] theorem fetched_executed (es : List Execution) : fetched (es.map .executed) = [] := by
  induction es with
  | nil => rfl
  | cons e es ih => exact ih

@[simp] theorem rung_executed (es : List Execution) : rung (es.map .executed) = 0 := by
  induction es with
  | nil => rfl
  | cons e es ih => exact ih

/-- The dwords that the tasks were given, as the ring and as the stream have them. -/
def indices (h : List AscEvent) : List Nat := (fetched h).map (·.1)

def stream (h : List AscEvent) : List Dword := (fetched h).map (·.2)

theorem stream_fetches (memory : Nat → Dword) (queue : AscQueueInfo) (sub : Submission) :
    stream (sub.fetches memory queue) = (sub.span memory queue).words := by
  rw [stream, fetched_fetches, map_map]
  rfl

/-- The tasks are given the dwords of the ring round and round. -/
theorem range_mod_append {ringSizeDw pos n offsDw : Nat} (hoffs : offsDw ≡ pos [MOD ringSizeDw])
    (hfits : offsDw + n ≤ ringSizeDw) :
    (List.range (pos + n)).map (· % ringSizeDw) =
      (List.range pos).map (· % ringSizeDw) ++ (List.range n).map (offsDw + ·) := by
  rw [List.range_add, map_append, map_map]
  congr 1
  refine List.map_congr_left fun i hi => ?_
  have hlt := List.mem_range.mp hi
  have hmod : (offsDw + i) % ringSizeDw = offsDw + i := Nat.mod_eq_of_lt (by omega)
  have hpos : (pos + i) % ringSizeDw = (offsDw + i) % ringSizeDw := hoffs.symm.add_right i
  exact hpos.trans hmod

namespace AscState

/-- What every run of intact steps keeps. -/
structure Sound (ringSizeDw : Nat) (s : AscState) (h : List AscEvent) : Prop where
  ringSizeDw_eq : s.queue.ringSizeDw = ringSizeDw
  fault : s.fault = none
  isCut : IsCut s.queue.carried
  stream : ∃ packets, stream h = encode packets ++ s.queue.carried ∧ executed h = commands packets
  indices : indices h = (List.range (fetched h).length).map (· % ringSizeDw)
  rung : (fetched h).length + pendingSize s.submits = rung h
  located : Located ringSizeDw s.ascNextOffsDw (fetched h).length s.submits
  ascNextOffsDw_le : s.ascNextOffsDw ≤ ringSizeDw
  readAddr : s.queue.readAddr ≡ (fetched h).length [MOD ringSizeDw]
  readAddr_lt : s.queue.readAddr < ringSizeDw

variable {depth ringSizeDw : Nat} {s s' : AscState} {h es : List AscEvent}

theorem Sound.ringSizeDw_lt (hs : s.Sound ringSizeDw h) : ringSizeDw < 2 ^ 32 := by
  obtain ⟨k, hlt, hk⟩ := s.queue.hasSingleBit
  rw [← hs.ringSizeDw_eq, hk]
  exact Nat.pow_lt_pow_right (by decide) hlt

theorem sound_map {mapAddr : Nat} (hasSingleBit : ∃ k < 32, ringSizeDw = 2 ^ k) :
    (AscState.map mapAddr ringSizeDw hasSingleBit).Sound ringSizeDw [] where
  ringSizeDw_eq := rfl
  fault := rfl
  isCut := isCut_nil
  stream := ⟨[], rfl, rfl⟩
  indices := rfl
  rung := rfl
  located := Nat.ModEq.refl _
  ascNextOffsDw_le := Nat.zero_le _
  readAddr := Nat.ModEq.refl _
  readAddr_lt := (AscState.map mapAddr ringSizeDw hasSingleBit).queue.ringSizeDw_pos

theorem Sound.dingDong (hs : s.Sound ringSizeDw h) {nextOffsDw : Nat} (hnext : nextOffsDw ≤ ringSizeDw) :
    ({ s with
        ascNextOffsDw := nextOffsDw
        submits := s.submits ++ VideoCore.dingDong s.queue.ringSizeDw s.ascNextOffsDw nextOffsDw } : AscState).Sound
      ringSizeDw (h ++ [.rung (rungBy s.queue.ringSizeDw s.ascNextOffsDw nextOffsDw)]) := by
  have hring := hs.ringSizeDw_lt
  have hfetched : fetched (h ++ [.rung (rungBy s.queue.ringSizeDw s.ascNextOffsDw nextOffsDw)]) = fetched h := by
    rw [fetched_append]
    exact append_nil _
  have hexecuted : executed (h ++ [.rung (rungBy s.queue.ringSizeDw s.ascNextOffsDw nextOffsDw)]) = executed h := by
    rw [executed_append]
    exact append_nil _
  refine ⟨hs.ringSizeDw_eq, hs.fault, hs.isCut, ?_, ?_, ?_, ?_, hnext, ?_, hs.readAddr_lt⟩
  · rw [VideoCore.stream, hfetched, hexecuted]
    exact hs.stream
  · rw [VideoCore.indices, hfetched]
    exact hs.indices
  · rw [hfetched, rung_append, ← hs.rung]
    show (fetched h).length + pendingSize (s.submits ++ _) =
      (fetched h).length + pendingSize s.submits + (rungBy s.queue.ringSizeDw s.ascNextOffsDw nextOffsDw + 0)
    rw [hs.ringSizeDw_eq, ← dingDong_pendingSize hring hs.ascNextOffsDw_le hnext, pendingSize, map_append,
      List.sum_append]
    simp only [pendingSize, Nat.add_assoc, Nat.add_zero]
  · rw [hfetched, hs.ringSizeDw_eq]
    exact hs.located.append fun pos => dingDong_located hring hs.ascNextOffsDw_le hnext
  · rw [hfetched]
    exact hs.readAddr

theorem Sound.process (hs : s.Sound ringSizeDw h) {memory : Nat → Dword} {sub : Submission} {rest : List Submission}
    (hsubmits : s.submits = sub :: rest) {r : AscQueueInfo × List Execution} (hcut : IsCut r.1.carried)
    (hmoved : s.queue.Moved r.1 sub.sizeDw)
    (hstream : ∃ packets, s.queue.carried ++ (sub.span memory s.queue).words = encode packets ++ r.1.carried ∧
      executed (r.2.map .executed) = commands packets) :
    ({ s with queue := r.1, submits := rest } : AscState).Sound ringSizeDw
      (h ++ (sub.fetches memory s.queue ++ r.2.map .executed)) := by
  obtain ⟨hoffs, hfits, hlocated⟩ := hsubmits ▸ hs.located
  have hfetched : fetched (h ++ (sub.fetches memory s.queue ++ r.2.map .executed)) =
      fetched h ++ fetched (sub.fetches memory s.queue) := by
    rw [fetched_append, fetched_append, fetched_executed, append_nil]
  have hlength : (fetched (h ++ (sub.fetches memory s.queue ++ r.2.map .executed))).length =
      (fetched h).length + sub.sizeDw := by
    rw [hfetched, length_append, fetched_fetches, List.length_map, List.length_range]
  refine ⟨hmoved.ringSizeDw.trans hs.ringSizeDw_eq, hs.fault, hcut, ?_, ?_, ?_, ?_, hs.ascNextOffsDw_le, ?_, ?_⟩
  · obtain ⟨before, hbefore, hexecutedBefore⟩ := hs.stream
    obtain ⟨packets, hpackets, hexecuted⟩ := hstream
    refine ⟨before ++ packets, ?_, ?_⟩
    · have hsplit : VideoCore.stream (h ++ (sub.fetches memory s.queue ++ r.2.map .executed)) =
          VideoCore.stream h ++ (sub.span memory s.queue).words := by
        rw [← stream_fetches]
        simp only [VideoCore.stream, hfetched, map_append]
      rw [hsplit, hbefore, append_assoc, hpackets, encode_append, append_assoc]
    · rw [executed_append, executed_append, executed_fetches, List.nil_append, hexecuted, hexecutedBefore,
        commands_append]
  · rw [hlength, range_mod_append hoffs hfits, ← hs.indices]
    simp only [VideoCore.indices, hfetched, map_append, fetched_fetches, map_map]
    rfl
  · rw [rung_append, rung_append, rung_fetches, rung_executed, ← hs.rung, hsubmits]
    simp only [pendingSize, map_cons, List.sum_cons]
    omega
  · rw [hlength]
    exact hlocated
  · rw [hlength]
    have hreadAddr := hs.ringSizeDw_eq ▸ hmoved.readAddr
    exact hreadAddr.trans (hs.readAddr.add_right sub.sizeDw)
  · rw [← hs.ringSizeDw_eq]
    exact hmoved.readAddr_lt (hs.ringSizeDw_eq ▸ hs.readAddr_lt)

theorem Sound.step (hs : s.Sound ringSizeDw h) {a : AscAction} (hintact : s.isIntact depth a = true)
    (hstep : s.step depth a = some (s', es)) : s'.Sound ringSizeDw (h ++ es) := by
  have hfault : ¬s.fault.isSome = true := by rw [hs.fault]; exact Bool.false_ne_true
  simp only [AscState.step, if_neg hfault] at hstep
  cases a with
  | dingDong nextOffsDw =>
    dsimp only at hstep
    split at hstep
    · next hnext =>
      cases hstep
      exact hs.dingDong (hs.ringSizeDw_eq ▸ hnext)
    · cases hstep
  | process memory =>
    cases hsubmits : s.submits with
    | nil =>
      simp only [hsubmits] at hstep
      cases hstep
    | cons sub rest =>
      simp only [isIntact, hsubmits] at hintact
      obtain ⟨r, hr, hcut, hmoved, hstream⟩ := processCompute_isIntact hs.isCut hintact
      simp only [hsubmits, hr] at hstep
      cases hstep
      exact hs.process hsubmits hcut hmoved hstream

/-- While every submission is intact, cutting the stream is invisible: `tmp_packet` is not overrun, the tasks go around
    the ring without a gap and execute the type-3 packets of the stream, and `read_addr` follows the doorbells. -/
theorem cut_invisible_of_isIntact {mapAddr : Nat} (hasSingleBit : ∃ k < 32, ringSizeDw = 2 ^ k)
    (hreach : Reaches (AscState.step depth) (fun s a => s.isIntact depth a)
      (AscState.map mapAddr ringSizeDw hasSingleBit) s h) :
    s.fault = none ∧ indices h = (List.range (fetched h).length).map (· % ringSizeDw) ∧
      (∀ packets part, IsCut part → stream h = encode packets ++ part → executed h = commands packets) ∧
      (s.submits = [] →
        (fetched h).length = VideoCore.rung h ∧ s.queue.readAddr = s.ascNextOffsDw % ringSizeDw) := by
  have hs : s.Sound ringSizeDw h := by
    refine hreach.invariant (P := fun s h => s.Sound ringSizeDw h) (sound_map hasSingleBit) ?_
    intro s h a s' es hs hintact hstep
    exact hs.step hintact hstep
  refine ⟨hs.fault, hs.indices, fun packets part hcut hstream => ?_, fun hdone => ⟨?_, ?_⟩⟩
  · obtain ⟨packets', hstream', hexecuted⟩ := hs.stream
    obtain ⟨rfl, -⟩ := encode_append_inj hcut hs.isCut (hstream.symm.trans hstream')
    exact hexecuted
  · have hrung := hs.rung
    rw [hdone] at hrung
    exact hrung
  · have hlocated := hs.located
    rw [hdone] at hlocated
    have hmod : s.queue.readAddr % ringSizeDw = s.ascNextOffsDw % ringSizeDw := hs.readAddr.trans hlocated.symm
    rwa [Nat.mod_eq_of_lt hs.readAddr_lt] at hmod

/-! ## Two runs -/

theorem hasSingleBit_four : ∃ k < 32, 4 = 2 ^ k := ⟨2, by decide, rfl⟩

/-- A `Nop` with one dword of body, cut after its header. -/
theorem cut_invisible_nop : ∃ s h, Reaches (AscState.step 0) (fun s a => s.isIntact 0 a)
      (AscState.map 0 4 hasSingleBit_four) s h ∧ s.submits = [] ∧ executed h = [[0xc0001000, 7]] ∧
    s.fault = none ∧ indices h = (List.range (fetched h).length).map (· % 4) ∧
      (∀ packets part, IsCut part → stream h = encode packets ++ part → executed h = commands packets) ∧
      (s.submits = [] → (fetched h).length = VideoCore.rung h ∧ s.queue.readAddr = s.ascNextOffsDw % 4) := by
  have hrun : (runAllowed (AscState.step 0) (fun s a => s.isIntact 0 a) (AscState.map 0 4 hasSingleBit_four) []
      [.dingDong 1, .process fun _ => 0xc0001000, .dingDong 2, .process fun _ => 7]).any (fun r =>
        r.1.submits = [] && executed r.2 = [[0xc0001000, 7]]) = true := by
    with_unfolding_all decide
  obtain ⟨⟨s, h⟩, hrun, hs⟩ := (Option.any_eq_true _ _).mp hrun
  simp only [Bool.and_eq_true, decide_eq_true_eq] at hs
  have hreach := Reaches.start.of_runAllowed hrun
  exact ⟨s, h, hreach, hs.1, hs.2, cut_invisible_of_isIntact hasSingleBit_four hreach⟩

/-- A submission ends with a padding dword; the packet at the beginning of the next one is taken for the rest of it. -/
theorem not_cut_invisible_padding : ∃ s h packets, Reaches (AscState.step 0) (fun _ _ => True)
      (AscState.map 0 4 hasSingleBit_four) s h ∧
    s.submits = [] ∧ stream h = encode packets ∧ executed h ≠ commands packets := by
  have hrun : (runAllowed (AscState.step 0) (fun _ _ => True) (AscState.map 0 4 hasSingleBit_four) []
      [.dingDong 1, .process fun _ => 0x80000000, .dingDong 2, .process fun _ => 0xffff1000]).any (fun r =>
        r.1.submits = [] && stream r.2 = [0x80000000, 0xffff1000] && executed r.2 = []) = true := by
    with_unfolding_all decide
  obtain ⟨⟨s, h⟩, hrun, hs⟩ := (Option.any_eq_true _ _).mp hrun
  simp only [Bool.and_eq_true, decide_eq_true_eq] at hs
  obtain ⟨⟨hsubmits, hstream⟩, hexecuted⟩ := hs
  refine ⟨s, h, [.padding 0x80000000 (by decide), .command 0xffff1000 [] (by decide) (by decide)],
    Reaches.start.of_runAllowed hrun, hsubmits, hstream, ?_⟩
  rw [hexecuted]
  exact fun h => by cases h

end AscState

end VideoCore
