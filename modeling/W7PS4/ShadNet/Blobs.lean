-- SUMMARY: The length-prefixed fields of ShadNet payloads: which prefixes are read as they should be, and what the push-event parser recovers.
import W7PS4.Lib.Machine
import W7PS4.ShadNet.Client

/-!
# Blobs in ShadNet payloads

A blob is its length in four bytes and then its bytes. `ExtractBlob` compares an end computed in
`int` with the size of the payload, and lengths come from the network as `u32`. Reading outside
of the payload and a sum that does not fit an `int` are undefined.
-/

namespace ShadNet

open Outcome (bind_eq_ok ensures_bind ensures_pure error_bind ok_bind pure_eq_ok)

/-! ## Reading -/

def intAdd (a b : Int) : Outcome Int :=
  if -2 ^ 31 ≤ a + b ∧ a + b < 2 ^ 31 then .ok (a + b) else .error .undefined

/-- `static_cast<int>(p.size())` -/
def intSize (p : List UInt8) : Int := S32.wrap p.length

/-- `GetLE32(p.data() + pos)` -/
def readLE32 (p : List UInt8) (pos : Int) : Outcome UInt32 :=
  if 0 ≤ pos ∧ pos + 4 ≤ p.length then .ok (getLE32 (p.drop pos.toNat)) else .error .undefined

/-- A string made of the `len` bytes at `p.data() + pos`. -/
def readString (p : List UInt8) (pos : Int) (len : Nat) : Outcome (List UInt8) :=
  if 0 ≤ pos ∧ pos + len ≤ p.length then .ok ((p.drop pos.toNat).take len) else .error .undefined

def makeProtoPayload (serialised : List UInt8) : List UInt8 :=
  LittleEndian.bytes 4 (UInt32.ofNat serialised.length).toNat ++ serialised

def extractBlob (p : List UInt8) (pos : Int) : Outcome (List UInt8) := do
  let start ← intAdd pos 4
  if start > intSize p then return []
  else do
    let len ← readLE32 p pos
    let stop ← intAdd start (S32.wrap len.toNat)
    if stop > intSize p then return []
    else readString p start len.toNat

/-! ## WebApiPushEvent -/

structure NotifyWebApiPushEvent where
  npServiceName : List UInt8
  npServiceLabel : UInt32 := 0
  dataType : List UInt8
  data : List UInt8
  fromNpid : List UInt8
  toNpid : List UInt8
  extdData : List (List UInt8 × List UInt8) := []
deriving DecidableEq

/-- A blob, and the offset after it: `off += 4 + static_cast<int>(blob.size())`. -/
def nextBlob (payload : List UInt8) (off : Int) : Outcome (List UInt8 × Int) := do
  let blob ← extractBlob payload off
  let width ← intAdd 4 (intSize blob)
  let off ← intAdd off width
  return (blob, off)

/-- `off + 4 <= static_cast<int>(payload.size())` -/
def hasFour (payload : List UInt8) (off : Int) : Outcome Bool := do
  let stop ← intAdd off 4
  return stop ≤ intSize payload

/-- A `u32`, or 0 where the payload has ended. -/
def nextLabel (payload : List UInt8) (off : Int) : Outcome (UInt32 × Int) := do
  if ← hasFour payload off then
    let label ← readLE32 payload off
    let off ← intAdd off 4
    return (label, off)
  else return (0, off)

/-- The loop over the pairs, which has so many turns left. -/
def readPairs (payload : List UInt8) : Nat → Int → Outcome (List (List UInt8 × List UInt8))
  | 0, _ => return []
  | turns + 1, off => do
    if ← hasFour payload off then
      let (key, off) ← nextBlob payload off
      if ← hasFour payload off then
        let (val, off) ← nextBlob payload off
        let pairs ← readPairs payload turns off
        return (key, val) :: pairs
      else return []
    else return []

def readExtdData (payload : List UInt8) (off : Int) : Outcome (List (List UInt8 × List UInt8)) := do
  if ← hasFour payload off then
    let count ← readLE32 payload off
    let off ← intAdd off 4
    readPairs payload (min count.toNat 256) off
  else return []

/-- The branch of `HandleNotification`, up to the call of `onWebApiPushEvent`. -/
def parseWebApiPushEvent (payload : List UInt8) : Outcome NotifyWebApiPushEvent := do
  let (npServiceName, off) ← nextBlob payload 0
  let (npServiceLabel, off) ← nextLabel payload off
  let (dataType, off) ← nextBlob payload off
  let (data, off) ← nextBlob payload off
  let (fromNpid, off) ← nextBlob payload off
  let (toNpid, off) ← nextBlob payload off
  let extdData ← readExtdData payload off
  return { npServiceName, npServiceLabel, dataType, data, fromNpid, toNpid, extdData }

/-! ## Where the blobs are -/

/-- The length that is declared at an offset. -/
def lenAt (p : List UInt8) (pos : Nat) : Nat := (getLE32 (p.drop pos)).toNat

/-- The blob at an offset: the bytes after the prefix, or nothing if they are not all there. -/
def blobAt (p : List UInt8) (pos : Nat) : List UInt8 :=
  if pos + 4 + lenAt p pos ≤ p.length then (p.drop (pos + 4)).take (lenAt p pos) else []

/-- The end that the prefix declares fits an `int`, or there is no prefix. -/
def PrefixOk (p : List UInt8) (pos : Nat) : Prop := p.length < pos + 4 ∨ pos + 4 + lenAt p pos < 2 ^ 31

instance (p : List UInt8) (pos : Nat) : Decidable (PrefixOk p pos) := inferInstanceAs (Decidable (_ ∨ _))

/-- The offset after the blob at an offset. -/
def skipBlob (p : List UInt8) (pos : Nat) : Nat := pos + 4 + (blobAt p pos).length

theorem intAdd_of_fits {a b : Int} (hlow : -2 ^ 31 ≤ a + b) (hhigh : a + b < 2 ^ 31) :
    intAdd a b = .ok (a + b) := if_pos ⟨hlow, hhigh⟩

variable {p : List UInt8} {pos : Nat}

theorem intSize_eq (hp : p.length < 2 ^ 31) : intSize p = p.length :=
  S32.wrap_of_fits (by omega) (by omega)

theorem lenAt_lt (p : List UInt8) (pos : Nat) : lenAt p pos < 2 ^ 32 := UInt32.toNat_lt _

/-- A length that does not fit an `int` becomes negative. -/
theorem wrap_lenAt (p : List UInt8) (pos : Nat) :
    S32.wrap (lenAt p pos) = if lenAt p pos < 2 ^ 31 then (lenAt p pos : Int) else lenAt p pos - 2 ^ 32 := by
  have hlt := lenAt_lt p pos
  unfold S32.wrap
  split
  · exact Int.bmod_eq_of_le (by omega) (by omega)
  · rw [Int.bmod_def]
    split <;> omega

theorem extractBlob_eq (hp : p.length < 2 ^ 31) (hpos : pos + 4 < 2 ^ 31) :
    extractBlob p pos = if PrefixOk p pos then .ok (blobAt p pos) else .error .undefined := by
  have hstart : intAdd pos 4 = .ok ((pos : Int) + 4) := intAdd_of_fits (by omega) (by omega)
  unfold extractBlob
  rw [hstart, ok_bind, intSize_eq hp]
  by_cases hshort : p.length < pos + 4
  · have hempty : blobAt p pos = [] := if_neg (by omega)
    rw [if_pos (by omega), if_pos (.inl hshort), hempty]
    rfl
  have hread : readLE32 p pos = .ok (getLE32 (p.drop pos)) := if_pos (by omega)
  rw [if_neg (by omega), hread, ok_bind]
  show (intAdd ((pos : Int) + 4) (S32.wrap (lenAt p pos)) >>= _) = _
  have hlt := lenAt_lt p pos
  by_cases hfits : pos + 4 + lenAt p pos < 2 ^ 31
  · rw [if_pos (.inr hfits), wrap_lenAt, if_pos (by omega), intAdd_of_fits (by omega) (by omega),
      ok_bind]
    by_cases hin : pos + 4 + lenAt p pos ≤ p.length
    · rw [if_neg (by omega)]
      have hall : readString p ((pos : Int) + 4) (lenAt p pos) = .ok ((p.drop (pos + 4)).take (lenAt p pos)) :=
        if_pos (by omega)
      rw [blobAt, if_pos hin]
      exact hall
    · rw [if_pos (by omega), blobAt, if_neg hin]
      rfl
  · -- Either the sum does not fit, or the length became negative and the check lets it through.
    rw [if_neg (by unfold PrefixOk; omega), wrap_lenAt]
    by_cases hneg : lenAt p pos < 2 ^ 31
    · rw [if_pos hneg]
      have hover : intAdd ((pos : Int) + 4) (lenAt p pos) = .error .undefined := if_neg (by omega)
      rw [hover, error_bind]
    · rw [if_neg hneg, intAdd_of_fits (by omega) (by omega), ok_bind, if_neg (by omega)]
      exact if_neg (by change ¬(_ ∧ _ + (lenAt p pos : Int) ≤ _); omega)

theorem length_blobAt_le (p : List UInt8) (pos : Nat) : (blobAt p pos).length ≤ p.length - (pos + 4) := by
  unfold blobAt
  split
  · rw [List.length_take, List.length_drop]
    exact Nat.min_le_right _ _
  · exact Nat.zero_le _

/-- After a blob the offset is in the payload, or it has only passed a prefix. -/
theorem skipBlob_le (p : List UInt8) (pos : Nat) : skipBlob p pos ≤ max p.length (pos + 4) := by
  have hle := length_blobAt_le p pos
  unfold skipBlob
  omega

/-! ## Which payloads are parsed -/

/-- How long a payload may be, so that the offsets that the parser comes to fit an `int`. -/
def Short (p : List UInt8) : Prop := p.length ≤ shadMaxPacketSize.toNat

theorem Short.length_le (hp : Short p) : p.length ≤ 0x800000 := by
  have hmax : shadMaxPacketSize.toNat = 0x800000 := by simp [shadMaxPacketSize]
  rw [← hmax]
  exact hp

/-- The parser is at most six prefixes past the end. -/
def Near (p : List UInt8) (k off : Nat) : Prop := off ≤ p.length + 4 * k ∧ k ≤ 6

theorem Near.skip {k off : Nat} (h : Near p k off) (hk : k < 6) : Near p (k + 1) (skipBlob p off) := by
  have hle := skipBlob_le p off
  obtain ⟨hoff, -⟩ := h
  refine ⟨?_, hk⟩
  omega

theorem nextBlob_eq {off k : Nat} (hp : Short p) (hoff : Near p k off) :
    nextBlob p off =
      if PrefixOk p off then .ok (blobAt p off, (skipBlob p off : Int)) else .error .undefined := by
  have hlength := hp.length_le
  have hblob := length_blobAt_le p off
  have hskip := skipBlob_le p off
  obtain ⟨hnear, hk⟩ := hoff
  unfold nextBlob
  rw [extractBlob_eq (by omega) (by omega)]
  split
  · rw [ok_bind, intSize_eq (by omega), intAdd_of_fits (by omega) (by omega), ok_bind,
      intAdd_of_fits (by omega) (by unfold skipBlob at hskip; omega), ok_bind]
    unfold skipBlob
    have hsum : (off : Int) + (4 + (blobAt p off).length) = ((off + 4 + (blobAt p off).length : Nat) : Int) := by
      omega
    rw [hsum]
    rfl
  · rfl

theorem hasFour_eq {off k : Nat} (hp : Short p) (hoff : Near p k off) :
    hasFour p off = .ok (decide (off + 4 ≤ p.length)) := by
  have hlength := hp.length_le
  obtain ⟨hnear, hk⟩ := hoff
  unfold hasFour
  rw [intAdd_of_fits (by omega) (by omega), ok_bind, intSize_eq (by omega)]
  have hiff : ((off : Int) + 4 ≤ p.length) ↔ off + 4 ≤ p.length := by omega
  rw [decide_eq_decide.2 hiff]
  rfl

theorem readLE32_eq {off : Nat} (hin : off + 4 ≤ p.length) : readLE32 p off = .ok (getLE32 (p.drop off)) :=
  if_pos (by omega)

/-- A step that reads a blob goes on if its prefix is as it should be. -/
theorem bind_nextBlob_ok {α : Type} {off k : Nat} (hp : Short p) (hoff : Near p k off)
    {f : List UInt8 × Int → Outcome α} :
    (∃ r, (nextBlob p off >>= f) = .ok r) ↔
      PrefixOk p off ∧ ∃ r, f (blobAt p off, (skipBlob p off : Int)) = .ok r := by
  rw [nextBlob_eq hp hoff]
  by_cases hpfx : PrefixOk p off
  · rw [if_pos hpfx, ok_bind]
    simp [hpfx]
  · rw [if_neg hpfx, error_bind]
    simp [hpfx]

/-- The offsets that the loop over the pairs extracts blobs at. -/
def pairOffsets (p : List UInt8) : Nat → Nat → List Nat
  | 0, _ => []
  | turns + 1, off =>
    if off + 4 ≤ p.length then
      off :: (if skipBlob p off + 4 ≤ p.length then
        skipBlob p off :: pairOffsets p turns (skipBlob p (skipBlob p off)) else [])
    else []

/-- Where a prefix is in the payload, the offset after the blob is as well. -/
theorem near_skipBlob {off : Nat} (hin : off + 4 ≤ p.length) : Near p 0 (skipBlob p off) := by
  have hle := skipBlob_le p off
  exact ⟨by omega, by omega⟩

theorem readPairs_ok (hp : Short p) (turns : Nat) : ∀ {off k : Nat}, Near p k off →
    ((∃ r, readPairs p turns off = .ok r) ↔ ∀ pos ∈ pairOffsets p turns off, PrefixOk p pos) := by
  induction turns with
  | zero =>
    intro off k _
    simp [readPairs, pairOffsets, pure, Except.pure]
  | succ turns ih =>
    intro off k hoff
    rw [readPairs, hasFour_eq hp hoff, ok_bind]
    by_cases hin : off + 4 ≤ p.length
    · rw [decide_eq_true hin, if_pos rfl, bind_nextBlob_ok hp hoff, pairOffsets, if_pos hin]
      have hoff' := near_skipBlob hin
      dsimp only
      rw [hasFour_eq hp hoff', ok_bind]
      by_cases hin' : skipBlob p off + 4 ≤ p.length
      · have hrest := ih (near_skipBlob hin')
        rw [decide_eq_true hin', if_pos rfl, if_pos hin', bind_nextBlob_ok hp hoff']
        simp only [List.forall_mem_cons, ← hrest, bind_eq_ok, pure_eq_ok]
        simp
      · rw [decide_eq_false hin', if_neg (by decide), if_neg hin']
        simp [pure, Except.pure]
    · rw [decide_eq_false hin, if_neg (by decide), pairOffsets, if_neg hin]
      simp [pure, Except.pure]

/-- The loop has a turn for every pair that it reads. -/
theorem length_readPairs_le (p : List UInt8) (turns : Nat) : ∀ off : Int,
    (readPairs p turns off).Ensures fun pairs => pairs.length ≤ turns := by
  induction turns with
  | zero =>
    intro off
    exact ensures_pure le_rfl
  | succ turns ih =>
    intro off
    have hnone : (pure [] : Outcome (List (List UInt8 × List UInt8))).Ensures
        fun pairs => pairs.length ≤ turns + 1 := ensures_pure (Nat.zero_le _)
    rw [readPairs]
    refine ensures_bind fun hasKey => ?_
    split
    · refine ensures_bind fun key => ensures_bind fun hasVal => ?_
      split
      · refine ensures_bind fun val => (ih val.2).bind fun pairs hpairs => ?_
        exact ensures_pure (Nat.succ_le_succ hpairs)
      · exact hnone
    · exact hnone

theorem length_readExtdData_le (p : List UInt8) (off : Int) :
    (readExtdData p off).Ensures fun pairs => pairs.length ≤ 256 := by
  unfold readExtdData
  refine ensures_bind fun hasCount => ?_
  split
  · refine ensures_bind fun count => ensures_bind fun off' => ?_
    intro pairs hpairs
    exact (length_readPairs_le p _ off' pairs hpairs).trans (Nat.min_le_right _ _)
  · exact ensures_pure (Nat.zero_le _)

variable {n : NotifyWebApiPushEvent}

theorem length_extdData_le (h : parseWebApiPushEvent p = .ok n) : n.extdData.length ≤ 256 := by
  have hparse : (parseWebApiPushEvent p).Ensures fun n => n.extdData.length ≤ 256 := by
    unfold parseWebApiPushEvent
    refine ensures_bind fun _ => ensures_bind fun _ => ensures_bind fun _ =>
      ensures_bind fun _ => ensures_bind fun _ => ensures_bind fun _ => ?_
    exact (length_readExtdData_le p _).bind fun pairs hpairs => ensures_pure hpairs
  exact hparse n h

/-- The offset after `npServiceLabel`. -/
def skipLabel (p : List UInt8) (off : Nat) : Nat := if off + 4 ≤ p.length then off + 4 else off

theorem Near.label {k off : Nat} (h : Near p k off) : Near p k (skipLabel p off) := by
  obtain ⟨hoff, hk⟩ := h
  unfold skipLabel
  split
  · exact ⟨by omega, hk⟩
  · exact ⟨hoff, hk⟩

theorem nextLabel_eq {off k : Nat} (hp : Short p) (hoff : Near p k off) :
    nextLabel p off = .ok (if off + 4 ≤ p.length then getLE32 (p.drop off) else 0, (skipLabel p off : Int)) := by
  have hlength := hp.length_le
  unfold nextLabel skipLabel
  rw [hasFour_eq hp hoff, ok_bind]
  by_cases hin : off + 4 ≤ p.length
  · rw [decide_eq_true hin, if_pos rfl, readLE32_eq hin, ok_bind,
      intAdd_of_fits (by omega) (by omega), ok_bind, if_pos hin, if_pos hin]
    rfl
  · rw [decide_eq_false hin, if_neg (by decide), if_neg hin, if_neg hin]
    rfl

theorem readExtdData_eq {off k : Nat} (hp : Short p) (hoff : Near p k off) :
    readExtdData p off = if off + 4 ≤ p.length then
      readPairs p (min (lenAt p off) 256) ((off + 4 : Nat) : Int) else .ok [] := by
  have hlength := hp.length_le
  unfold readExtdData
  rw [hasFour_eq hp hoff, ok_bind]
  by_cases hin : off + 4 ≤ p.length
  · rw [decide_eq_true hin, if_pos rfl, if_pos hin, readLE32_eq hin, ok_bind,
      intAdd_of_fits (by omega) (by omega), ok_bind]
    rfl
  · rw [decide_eq_false hin, if_neg (by decide), if_neg hin]
    rfl

theorem readExtdData_ok {off k : Nat} (hp : Short p) (hoff : Near p k off) :
    (∃ r, readExtdData p off = .ok r) ↔
      ∀ pos ∈ (if off + 4 ≤ p.length then pairOffsets p (min (lenAt p off) 256) (off + 4) else []),
        PrefixOk p pos := by
  rw [readExtdData_eq hp hoff]
  by_cases hin : off + 4 ≤ p.length
  · rw [if_pos hin, if_pos hin]
    exact readPairs_ok hp _ (k := 0) ⟨by omega, by omega⟩
  · rw [if_neg hin, if_neg hin]
    simp

/-- The offsets that the parser extracts blobs at. -/
def blobOffsets (p : List UInt8) : List Nat :=
  let dataType := skipLabel p (skipBlob p 0)
  let data := skipBlob p dataType
  let fromNpid := skipBlob p data
  let toNpid := skipBlob p fromNpid
  let extdData := skipBlob p toNpid
  [0, dataType, data, fromNpid, toNpid] ++
    if extdData + 4 ≤ p.length then pairOffsets p (min (lenAt p extdData) 256) (extdData + 4) else []

theorem parseWebApiPushEvent_ok (hp : Short p) :
    (∃ n, parseWebApiPushEvent p = .ok n) ↔ ∀ pos ∈ blobOffsets p, PrefixOk p pos := by
  have hname : Near p 0 0 := ⟨Nat.zero_le _, by omega⟩
  have hdataType := (hname.skip (by omega)).label
  have hdata := hdataType.skip (by omega)
  have hfromNpid := hdata.skip (by omega)
  have htoNpid := hfromNpid.skip (by omega)
  have hextdData := htoNpid.skip (by omega)
  unfold parseWebApiPushEvent blobOffsets
  rw [← Int.natCast_zero, bind_nextBlob_ok hp hname]
  dsimp only
  rw [nextLabel_eq hp (hname.skip (by omega)), ok_bind]
  dsimp only
  rw [bind_nextBlob_ok hp hdataType]
  dsimp only
  rw [bind_nextBlob_ok hp hdata]
  dsimp only
  rw [bind_nextBlob_ok hp hfromNpid]
  dsimp only
  rw [bind_nextBlob_ok hp htoNpid]
  dsimp only
  simp only [List.cons_append, List.nil_append, List.forall_mem_cons]
  rw [← readExtdData_ok hp hextdData]
  simp only [bind_eq_ok, pure_eq_ok]
  simp

/-! ## What is recovered -/

def encodePairs (pairs : List (List UInt8 × List UInt8)) : List UInt8 :=
  pairs.flatMap fun pair => makeProtoPayload pair.1 ++ makeProtoPayload pair.2

/-- The fields one after the other. Older servers leave the section with the pairs away. -/
def encodePushEvent (n : NotifyWebApiPushEvent) (extended : Bool) : List UInt8 :=
  makeProtoPayload n.npServiceName ++ (LittleEndian.bytes 4 n.npServiceLabel.toNat ++
    (makeProtoPayload n.dataType ++ (makeProtoPayload n.data ++ (makeProtoPayload n.fromNpid ++
      (makeProtoPayload n.toNpid ++
        if extended then LittleEndian.bytes 4 n.extdData.length ++ encodePairs n.extdData else [])))))

variable {off k : Nat} {blob rest : List UInt8}

theorem getLE32_bytes_append (v : Nat) (rest : List UInt8) :
    (getLE32 (LittleEndian.bytes 4 v ++ rest)).toNat = v % 2 ^ 32 := by
  unfold getLE32
  rw [LittleEndian.get_bytes_append]
  simp

theorem length_makeProtoPayload (blob : List UInt8) :
    (makeProtoPayload blob).length = 4 + blob.length := by
  simp [makeProtoPayload]

theorem length_of_drop {bytes : List UInt8} (hdrop : p.drop off = bytes) (hne : 0 < bytes.length) :
    p.length = off + bytes.length := by
  have hlength := congrArg List.length hdrop
  rw [List.length_drop] at hlength
  omega

/-- A blob that lies at an offset is found there, and what follows it lies after it. -/
theorem blob_of_drop (hp : Short p) (hdrop : p.drop off = makeProtoPayload blob ++ rest) :
    blobAt p off = blob ∧ PrefixOk p off ∧ p.drop (skipBlob p off) = rest := by
  have hshort := hp.length_le
  have hlength := length_of_drop hdrop (by simp [makeProtoPayload])
  rw [List.length_append, length_makeProtoPayload] at hlength
  have hlen : lenAt p off = blob.length := by
    unfold lenAt
    rw [hdrop, makeProtoPayload, List.append_assoc, getLE32_bytes_append]
    simp only [UInt32.toNat_ofNat']
    omega
  have hafter : p.drop (off + 4) = blob ++ rest := by
    rw [← List.drop_drop, hdrop, makeProtoPayload, List.append_assoc]
    exact List.drop_left' LittleEndian.bytes_length
  have hblob : blobAt p off = blob := by
    unfold blobAt
    rw [hlen, if_pos (by omega), hafter, List.take_left]
  refine ⟨hblob, .inr (by omega), ?_⟩
  unfold skipBlob
  rw [hblob, ← List.drop_drop, hafter, List.drop_left]

theorem nextBlob_of_drop (hp : Short p) (hoff : Near p k off)
    (hdrop : p.drop off = makeProtoPayload blob ++ rest) :
    nextBlob p off = .ok (blob, (skipBlob p off : Int)) := by
  obtain ⟨hblob, hpfx, -⟩ := blob_of_drop hp hdrop
  rw [nextBlob_eq hp hoff, if_pos hpfx, hblob]

theorem four_le_of_drop (hdrop : p.drop off = makeProtoPayload blob ++ rest) : off + 4 ≤ p.length := by
  have hlength := length_of_drop hdrop (by simp [makeProtoPayload])
  rw [List.length_append, length_makeProtoPayload] at hlength
  omega

theorem readPairs_of_drop (hp : Short p) (turns : Nat) :
    ∀ {off k : Nat} {pairs : List (List UInt8 × List UInt8)}, Near p k off →
      p.drop off = encodePairs pairs → readPairs p turns off = .ok (pairs.take turns) := by
  induction turns with
  | zero =>
    intro off k pairs _ _
    rfl
  | succ turns ih =>
    intro off k pairs hoff hdrop
    rw [readPairs, hasFour_eq hp hoff, ok_bind]
    cases pairs with
    | nil =>
      have hend : ¬off + 4 ≤ p.length := by
        have hlength := List.drop_eq_nil_iff.1 hdrop
        omega
      rw [decide_eq_false hend, if_neg (by decide)]
      rfl
    | cons pair pairs =>
      obtain ⟨key, val⟩ := pair
      have hkey : p.drop off = makeProtoPayload key ++ (makeProtoPayload val ++ encodePairs pairs) := by
        rw [hdrop, encodePairs, List.flatMap_cons, List.append_assoc]
        rfl
      have hval := (blob_of_drop hp hkey).2.2
      have hoff' := near_skipBlob (four_le_of_drop hkey)
      have hoff'' := near_skipBlob (four_le_of_drop hval)
      rw [decide_eq_true (four_le_of_drop hkey), if_pos rfl, nextBlob_of_drop hp hoff hkey, ok_bind]
      dsimp only
      rw [hasFour_eq hp hoff', ok_bind, decide_eq_true (four_le_of_drop hval), if_pos rfl,
        nextBlob_of_drop hp hoff' hval, ok_bind]
      dsimp only
      rw [ih hoff'' (blob_of_drop hp hval).2.2]
      rfl

theorem u32_of_drop {v : Nat} (hdrop : p.drop off = LittleEndian.bytes 4 v ++ rest) :
    off + 4 ≤ p.length ∧ p.drop (off + 4) = rest ∧ lenAt p off = v % 2 ^ 32 := by
  have hlength := length_of_drop hdrop (by simp)
  rw [List.length_append, LittleEndian.bytes_length] at hlength
  refine ⟨by omega, ?_, ?_⟩
  · rw [← List.drop_drop, hdrop]
    exact List.drop_left' LittleEndian.bytes_length
  · unfold lenAt
    rw [hdrop, getLE32_bytes_append]

theorem length_encodePairs (pairs : List (List UInt8 × List UInt8)) :
    8 * pairs.length ≤ (encodePairs pairs).length := by
  induction pairs with
  | nil => exact le_rfl
  | cons pair pairs ih =>
    unfold encodePairs at ih ⊢
    simp only [List.flatMap_cons, List.length_append, length_makeProtoPayload, List.length_cons]
    omega

theorem readExtdData_of_drop {extended : Bool} (hp : Short p)
    (hoff : Near p k off) (hext : extended = false → n.extdData = [])
    (hdrop : p.drop off =
      if extended then LittleEndian.bytes 4 n.extdData.length ++ encodePairs n.extdData else []) :
    readExtdData p off = .ok (n.extdData.take 256) := by
  have hshort := hp.length_le
  rw [readExtdData_eq hp hoff]
  cases extended with
  | false =>
    have hend := List.drop_eq_nil_iff.1 hdrop
    rw [if_neg (by omega), hext rfl]
    rfl
  | true =>
    rw [if_pos rfl] at hdrop
    obtain ⟨hin, hafter, hcount⟩ := u32_of_drop hdrop
    have hpairs := length_encodePairs n.extdData
    have hlength := congrArg List.length hafter
    rw [List.length_drop] at hlength
    have hmin : min (lenAt p off) 256 = min n.extdData.length 256 := by
      rw [hcount, Nat.mod_eq_of_lt (by omega)]
    rw [if_pos hin, hmin, readPairs_of_drop hp _ (k := 0) ⟨by omega, by omega⟩ hafter, Nat.min_comm,
      ← List.take_take, List.take_length]

theorem parseWebApiPushEvent_of_eq {extended : Bool} (hp : Short p)
    (hext : extended = false → n.extdData = []) (heq : p = encodePushEvent n extended) :
    parseWebApiPushEvent p = .ok { n with extdData := n.extdData.take 256 } := by
  have hname : p.drop 0 = encodePushEvent n extended := by
    rw [List.drop_zero]
    exact heq
  have hlabel := (blob_of_drop hp hname).2.2
  obtain ⟨hin, hdataType, hvalue⟩ := u32_of_drop hlabel
  have hdata := (blob_of_drop hp hdataType).2.2
  have hfromNpid := (blob_of_drop hp hdata).2.2
  have htoNpid := (blob_of_drop hp hfromNpid).2.2
  have hextdData := (blob_of_drop hp htoNpid).2.2
  have hlabelEq : getLE32 (p.drop (skipBlob p 0)) = n.npServiceLabel := by
    apply UInt32.toNat_inj.1
    exact hvalue.trans (Nat.mod_eq_of_lt (UInt32.toNat_lt _))
  have hskip : skipLabel p (skipBlob p 0) = skipBlob p 0 + 4 := if_pos hin
  have nname : Near p 0 0 := ⟨Nat.zero_le _, by omega⟩
  have nlabel := nname.skip (by omega)
  have ndataType := nlabel.label
  rw [hskip] at ndataType
  have ndata := ndataType.skip (by omega)
  have nfromNpid := ndata.skip (by omega)
  have ntoNpid := nfromNpid.skip (by omega)
  have nextdData := ntoNpid.skip (by omega)
  unfold parseWebApiPushEvent
  rw [← Int.natCast_zero, nextBlob_of_drop hp nname hname, ok_bind]
  dsimp only
  rw [nextLabel_eq hp nlabel, ok_bind]
  dsimp only
  rw [hskip, if_pos hin, hlabelEq, nextBlob_of_drop hp ndataType hdataType, ok_bind]
  dsimp only
  rw [nextBlob_of_drop hp ndata hdata, ok_bind]
  dsimp only
  rw [nextBlob_of_drop hp nfromNpid hfromNpid, ok_bind]
  dsimp only
  rw [nextBlob_of_drop hp ntoNpid htoNpid, ok_bind]
  dsimp only
  rw [readExtdData_of_drop hp nextdData hext hextdData]
  rfl

/-! ## Payloads -/

/-- A blob is read as it should be if the end that its prefix declares fits an `int`. The parser comes
to an end if all its prefixes are so, and then it has read 256 pairs at most. It recovers the fields
and the pairs, up to that number, of a payload that was put together from them. -/
theorem readsBlobs_iff (payload : List UInt8) (hpayload : payload.length ≤ shadMaxPacketSize.toNat) :
    (∀ pos : Nat, pos + 4 < 2 ^ 31 →
        (extractBlob payload pos = .ok (blobAt payload pos) ↔ PrefixOk payload pos)) ∧
      ((∃ n, parseWebApiPushEvent payload = .ok n ∧ n.extdData.length ≤ 256) ↔
        ∀ pos ∈ blobOffsets payload, PrefixOk payload pos) ∧
      ∀ n extended, (extended = false → n.extdData = []) → payload = encodePushEvent n extended →
        parseWebApiPushEvent payload = .ok { n with extdData := n.extdData.take 256 } := by
  have hshort : Short payload := hpayload
  have hlength := hshort.length_le
  refine ⟨?_, ?_, ?_⟩
  · intro pos hpos
    rw [extractBlob_eq (by omega) hpos]
    by_cases hpfx : PrefixOk payload pos
    · simp [hpfx]
    · simp [hpfx]
  · rw [← parseWebApiPushEvent_ok hshort]
    constructor
    · rintro ⟨n, hparse, -⟩
      exact ⟨n, hparse⟩
    · rintro ⟨n, hparse⟩
      exact ⟨n, hparse, length_extdData_le hparse⟩
  · intro n extended hext heq
    exact parseWebApiPushEvent_of_eq hshort hext heq

/-- The service name of an event with one pair. -/
theorem readsBlobs_iff_event :
    parseWebApiPushEvent (encodePushEvent
        { npServiceName := [0x61], npServiceLabel := 1, dataType := [], data := [0x7b, 0x7d],
          fromNpid := [], toNpid := [], extdData := [([0x6b], [0x76])] } true) =
      .ok { npServiceName := [0x61], npServiceLabel := 1, dataType := [], data := [0x7b, 0x7d],
            fromNpid := [], toNpid := [], extdData := [([0x6b], [0x76])] } :=
  (readsBlobs_iff _ (by decide)).2.2 _ true (fun h => by cases h) rfl

/-- The length `0xffffffff` is -1 as an `int`, and the string is made of bytes outside the payload. -/
theorem extractBlob_outside :
    extractBlob [0xff, 0xff, 0xff, 0xff] 0 = .error .undefined ∧
      blobAt [0xff, 0xff, 0xff, 0xff] 0 = [] ∧
        parseWebApiPushEvent [0xff, 0xff, 0xff, 0xff] = .error .undefined := by
  decide

end ShadNet
