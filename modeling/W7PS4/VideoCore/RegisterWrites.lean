-- SUMMARY: The packets that set registers: when a packet has the same effect as one packet for each of its registers.
import W7PS4.VideoCore.ComputeQueue

/-!
# Register writes

The registers are words of `reg_array`, but those of a compute program are kept for each queue in
its `cs_state`. `SetShReg` decides by its first register which of the two it writes. Both have a
fixed size, and a copy beyond it is undefined.
-/

namespace VideoCore

namespace Regs

def numRegs : Nat := 0xd000
def uconfigRegWordOffset : Nat := 0xc000
def contextRegWordOffset : Nat := 0xa000
def configRegWordOffset : Nat := 0x2000
def shRegWordOffset : Nat := 0x2c00

end Regs

namespace ContextRegs

def dbZInfo : Nat := 0xa010

/-- `CbColor0Base` to `CbColor7Base` -/
def cbColorBase : List Nat := [0xa318, 0xa327, 0xa336, 0xa345, 0xa354, 0xa363, 0xa372, 0xa381]

/-- `CbColor0Cmask` to `CbColor7Cmask` -/
def cbColorCmask : List Nat := [0xa31f, 0xa32e, 0xa33d, 0xa34c, 0xa35b, 0xa36a, 0xa379, 0xa388]

end ContextRegs

/-- `sizeof(ComputeProgram) / 4` -/
def computeProgramWords : Nat := 80

/-! ## Packets -/

/-- `PM4CmdSetData`. The payload is what `header + 2` points to, also beyond the packet. -/
structure SetData where
  count : BitVec 14
  regOffset : BitVec 16
  payload : Pointer

/-- `NumWords() - 1`, in `u32`. -/
def SetData.dataWords (p : SetData) : Nat := U32.sub (p.count + 1).toNat 1

/-- The two places of the registers; every queue has its own `cs_state`. -/
structure RegStores where
  csState : Nat → Pointer
  regArray : Pointer

structure Liverpool where
  stores : RegStores
  lastCbExtent : Nat → Dword
  lastDbExtent : Dword

namespace RegStores

/-- `memcpy` to `&regs.reg_array[reg_addr]`. -/
def memcpyRegs (s : RegStores) (regAddr : Nat) (payload : Pointer) (n : Nat) : Outcome RegStores :=
  if n = 0 ∨ regAddr + n ≤ Regs.numRegs then .ok { s with regArray := overwrite s.regArray regAddr payload n }
  else .error .undefined

/-- `memcpy` to a word of the `cs_state` of a queue. -/
def memcpyCs (s : RegStores) (queue word : Nat) (payload : Pointer) (n : Nat) : Outcome RegStores :=
  if n = 0 ∨ word + n ≤ computeProgramWords then
    .ok { s with csState := Function.update s.csState queue (overwrite (s.csState queue) word payload n) }
  else .error .undefined

end RegStores

def SetData.copy (base : Nat) (p : SetData) (s : RegStores) : Outcome RegStores :=
  s.memcpyRegs (base + p.regOffset.toNat) p.payload p.dataWords

def setShReg (queue : Nat) (p : SetData) (s : RegStores) : Outcome RegStores :=
  if 0x200 ≤ p.regOffset.toNat ∧ p.regOffset.toNat ≤ 0x200 + computeProgramWords then do
    assertMsg (4 * p.dataWords ≤ 4 * computeProgramWords) "set_size <= sizeof(ComputeProgram)"
    s.memcpyCs queue (p.regOffset.toNat - 0x200) p.payload p.dataWords
  else p.copy Regs.shRegWordOffset s

def nopHint : Dword := 0xc0001000

/-- The extents that the NOP packet after the context registers hints at. -/
def contextHint (p : SetData) (l : Liverpool) : Outcome Liverpool :=
  let regAddr := Regs.contextRegWordOffset + p.regOffset.toNat
  let nopOffset := p.count.toNat
  if regAddr ∈ ContextRegs.cbColorBase then
    let colBufId := (regAddr - 0xa318) / (0xa327 - 0xa318)
    if nopOffset = 0x0e ∨ nopOffset = 0x0d ∨ nopOffset = 0x0b then do
      assertMsg (p.payload nopOffset == nopHint) "NOP hint is missing in CB setup sequence"
      return { l with lastCbExtent := Function.update l.lastCbExtent colBufId (p.payload (nopOffset + 1)) }
    else return { l with lastCbExtent := Function.update l.lastCbExtent colBufId 0 }
  else if regAddr ∈ ContextRegs.cbColorCmask then
    let colBufId := (regAddr - 0xa31f) / (0xa32e - 0xa31f)
    if nopOffset = 0x04 then do
      assertMsg (p.payload nopOffset == nopHint) "NOP hint is missing in CB setup sequence"
      return { l with lastCbExtent := Function.update l.lastCbExtent colBufId (p.payload (nopOffset + 1)) }
    else return l
  else if regAddr = ContextRegs.dbZInfo then
    if nopOffset = 8 then do
      assertMsg (p.payload 20 == nopHint) "NOP hint is missing in DB setup sequence"
      return { l with lastDbExtent := p.payload 21 }
    else return { l with lastDbExtent := 0 }
  else return l

/-- The packets that set registers. The graphics queue is 0, and the compute queue `vqid` is `vqid + 1`;
it knows `SetShReg` alone. -/
inductive SetPacket where
  | setConfigReg (p : SetData)
  | setContextReg (p : SetData)
  | setUconfigReg (p : SetData)
  | setShReg (queue : Nat) (p : SetData)

namespace SetPacket

def data : SetPacket → SetData
  | .setConfigReg p | .setContextReg p | .setUconfigReg p | .setShReg _ p => p

def store (s : RegStores) : SetPacket → Outcome RegStores
  | .setConfigReg p => p.copy Regs.configRegWordOffset s
  | .setContextReg p => p.copy Regs.contextRegWordOffset s
  | .setUconfigReg p => p.copy Regs.uconfigRegWordOffset s
  | .setShReg queue p => VideoCore.setShReg queue p s

def hint (l : Liverpool) : SetPacket → Outcome Liverpool
  | .setContextReg p => contextHint p l
  | _ => return l

def run (l : Liverpool) (packet : SetPacket) : Outcome Liverpool := do
  let stores ← packet.store l.stores
  packet.hint { l with stores }

/-- A packet of the same kind with one register, the `i`th. -/
def single (i : Nat) : SetPacket → SetPacket
  | .setConfigReg p => .setConfigReg (one p)
  | .setContextReg p => .setContextReg (one p)
  | .setUconfigReg p => .setUconfigReg (one p)
  | .setShReg queue p => .setShReg queue (one p)
where
  one (p : SetData) : SetData :=
    { count := 1, regOffset := p.regOffset + BitVec.ofNat 16 i, payload := fun j => p.payload (i + j) }

/-- Each register of the packet with its own packet. -/
def singles (packet : SetPacket) : List SetPacket :=
  (List.range packet.data.dataWords).map packet.single

end SetPacket

/-- The packets are run, one register at a time as well, and the registers are the same. -/
def SameWrites (l : Liverpool) (packets : List SetPacket) : Prop :=
  ∃ l₁ l₂, packets.foldlM SetPacket.run l = .ok l₁ ∧
    (packets.flatMap SetPacket.singles).foldlM SetPacket.run l = .ok l₂ ∧ l₁.stores = l₂.stores

/-! ## Which packets are as good as their registers -/

namespace SetData

/-- The registers are in `reg_array`. -/
def Fits (base : Nat) (p : SetData) : Prop :=
  p.dataWords = 0 ∨ base + p.regOffset.toNat + p.dataWords ≤ Regs.numRegs

/-- The word behind the registers that has to be the header of a NOP packet, if there is one. -/
def hintWord (p : SetData) : Option Nat :=
  if Regs.contextRegWordOffset + p.regOffset.toNat ∈ ContextRegs.cbColorBase then
    if p.count.toNat = 0x0e ∨ p.count.toNat = 0x0d ∨ p.count.toNat = 0x0b then some p.count.toNat else none
  else if Regs.contextRegWordOffset + p.regOffset.toNat ∈ ContextRegs.cbColorCmask then
    if p.count.toNat = 0x04 then some p.count.toNat else none
  else if Regs.contextRegWordOffset + p.regOffset.toNat = ContextRegs.dbZInfo then
    if p.count.toNat = 8 then some 20 else none
  else none

def HintOk (p : SetData) : Prop := ∀ i, p.hintWord = some i → p.payload i = nopHint

end SetData

/-- The packet does not leave the place of its first register. A context packet has its hint. -/
def SetPacket.Whole : SetPacket → Prop
  | .setConfigReg p => p.Fits Regs.configRegWordOffset
  | .setContextReg p => p.Fits Regs.contextRegWordOffset ∧ p.HintOk
  | .setUconfigReg p => p.Fits Regs.uconfigRegWordOffset
  | .setShReg _ p =>
    p.dataWords = 0 ∨
      0x200 ≤ p.regOffset.toNat ∧ p.regOffset.toNat + p.dataWords ≤ 0x200 + computeProgramWords ∨
        (p.regOffset.toNat + p.dataWords ≤ 0x200 ∨ 0x200 + computeProgramWords < p.regOffset.toNat) ∧
          p.Fits Regs.shRegWordOffset

/-- The registers after the first `m` words of the packet. -/
def SetPacket.written (m : Nat) (s : RegStores) : SetPacket → RegStores
  | .setConfigReg p => regs Regs.configRegWordOffset p
  | .setContextReg p => regs Regs.contextRegWordOffset p
  | .setUconfigReg p => regs Regs.uconfigRegWordOffset p
  | .setShReg queue p =>
    if 0x200 ≤ p.regOffset.toNat ∧ p.regOffset.toNat ≤ 0x200 + computeProgramWords then cs queue p
    else regs Regs.shRegWordOffset p
where
  cs (queue : Nat) (p : SetData) : RegStores :=
    let state := overwrite (s.csState queue) (p.regOffset.toNat - 0x200) p.payload m
    { s with csState := Function.update s.csState queue state }
  regs (base : Nat) (p : SetData) : RegStores :=
    { s with regArray := overwrite s.regArray (base + p.regOffset.toNat) p.payload m }

variable {p : SetData} {packet : SetPacket} {l l' : Liverpool} {s : RegStores} {n m i : Nat}

theorem overwrite_zero (q : Pointer) (off : Nat) (source : Pointer) : overwrite q off source 0 = q := by
  funext i
  exact if_neg (by omega)

/-- One more word. -/
theorem overwrite_succ (q : Pointer) (off : Nat) (source : Pointer) (n : Nat) :
    overwrite (overwrite q off source n) (off + n) (fun j => source (n + j)) 1 = overwrite q off source (n + 1) := by
  funext i
  unfold overwrite
  by_cases hlast : i = off + n
  · rw [if_pos (by omega), if_pos (by omega), hlast, Nat.sub_self, Nat.add_sub_cancel_left]
    rfl
  rw [if_neg (by omega)]
  by_cases hin : off ≤ i ∧ i < off + n
  · rw [if_pos hin, if_pos (by omega)]
  · rw [if_neg hin, if_neg (by omega)]

theorem contextHint_ok : (∃ l', contextHint p l = .ok l') ↔ p.HintOk := by
  have hassert {b : Bool} {msg : String} {l' : Liverpool} :
      (∃ r, (do assertMsg b msg; return l' : Outcome Liverpool) = .ok r) ↔ b = true := by
    cases b <;> simp [assertMsg, pure, Except.pure]
  unfold contextHint SetData.HintOk SetData.hintWord
  dsimp only
  split
  · split
    · rw [hassert]
      simp
    · simp [pure, Except.pure]
  · split
    · split
      · rw [hassert]
        simp
      · simp [pure, Except.pure]
    · split
      · split
        · rw [hassert]
          simp
        · simp [pure, Except.pure]
      · simp [pure, Except.pure]

theorem contextHint_stores (h : contextHint p l = .ok l') : l'.stores = l.stores := by
  have hassert {b : Bool} {msg : String} {r : Liverpool}
      (hok : (do assertMsg b msg; return r : Outcome Liverpool) = .ok l') (hr : r.stores = l.stores) :
      l'.stores = l.stores := by
    obtain ⟨-, -, hret⟩ := Outcome.bind_eq_ok.1 hok
    rw [← Outcome.pure_eq_ok.1 hret, hr]
  have hpure {r : Liverpool} (hok : (pure r : Outcome Liverpool) = .ok l') (hr : r.stores = l.stores) :
      l'.stores = l.stores := by
    rw [← Outcome.pure_eq_ok.1 hok, hr]
  unfold contextHint at h
  dsimp only at h
  split at h
  · split at h
    · exact hassert h rfl
    · exact hpure h rfl
  split at h
  · split at h
    · exact hassert h rfl
    · exact hpure h rfl
  split at h
  · split at h
    · exact hassert h rfl
    · exact hpure h rfl
  · exact hpure h rfl

variable {base : Nat} {queue : Nat}

theorem SetData.copy_ok (hfits : p.Fits base) :
    p.copy base s = .ok (SetPacket.written.regs p.dataWords s base p) := if_pos hfits

theorem SetPacket.store_ok (h : packet.Whole) :
    packet.store s = .ok (packet.written packet.data.dataWords s) := by
  cases packet with
  | setConfigReg p => exact SetData.copy_ok h
  | setContextReg p => exact SetData.copy_ok h.1
  | setUconfigReg p => exact SetData.copy_ok h
  | setShReg queue p =>
    unfold store written
    dsimp only
    unfold VideoCore.setShReg
    by_cases hcs : 0x200 ≤ p.regOffset.toNat ∧ p.regOffset.toNat ≤ 0x200 + computeProgramWords
    · have hin : p.dataWords = 0 ∨ p.regOffset.toNat - 0x200 + p.dataWords ≤ computeProgramWords := by
        rcases h with hzero | hwhole | ⟨hout, -⟩
        · exact .inl hzero
        · exact .inr (by omega)
        · exact .inl (by omega)
      have hassert : assertMsg (4 * p.dataWords ≤ 4 * computeProgramWords)
          "set_size <= sizeof(ComputeProgram)" = .ok () :=
        assertMsg_eq_ok.2 (decide_eq_true (by omega))
      rw [if_pos hcs, if_pos hcs, hassert, Outcome.ok_bind]
      exact if_pos hin
    · rw [if_neg hcs, if_neg hcs]
      refine SetData.copy_ok ?_
      rcases h with hzero | hwhole | ⟨-, hfits⟩
      · exact .inl hzero
      · exact .inl (by omega)
      · exact hfits

theorem SetPacket.run_ok (h : packet.Whole) (l : Liverpool) :
    ∃ l', packet.run l = .ok l' ∧ l'.stores = packet.written packet.data.dataWords l.stores := by
  unfold run
  rw [store_ok h, Outcome.ok_bind]
  cases packet with
  | setConfigReg p => exact ⟨_, rfl, rfl⟩
  | setContextReg p =>
    obtain ⟨l', hok⟩ := contextHint_ok.2 h.2
    exact ⟨l', hok, contextHint_stores hok⟩
  | setUconfigReg p => exact ⟨_, rfl, rfl⟩
  | setShReg queue p => exact ⟨_, rfl, rfl⟩

/-! ## One register at a time -/

theorem single_dataWords : (SetPacket.single.one i p).dataWords = 1 := by
  have hwords : U32.sub ((1 : BitVec 14) + 1).toNat 1 = 1 := U32.sub_of_le (by decide) (by decide)
  exact hwords

theorem single_regOffset (hi : p.regOffset.toNat + i < 2 ^ 16) :
    (SetPacket.single.one i p).regOffset.toNat = p.regOffset.toNat + i := by
  unfold SetPacket.single.one
  rw [BitVec.toNat_add, BitVec.toNat_ofNat, Nat.add_mod_mod, Nat.mod_eq_of_lt hi]

/-- A packet with one register has no hint. -/
theorem single_hintOk : (SetPacket.single.one i p).HintOk := by
  have hcount : (SetPacket.single.one i p).count.toNat = 1 := rfl
  intro j hj
  unfold SetData.hintWord at hj
  rw [hcount] at hj
  simp at hj

theorem written_single_regs (hi : p.regOffset.toNat + i < 2 ^ 16) :
    SetPacket.written.regs 1 (SetPacket.written.regs i s base p) base (SetPacket.single.one i p)
      = SetPacket.written.regs (i + 1) s base p := by
  unfold SetPacket.written.regs
  rw [single_regOffset hi, ← Nat.add_assoc]
  have hmore := overwrite_succ s.regArray (base + p.regOffset.toNat) p.payload i
  exact congrArg (fun regs => { s with regArray := regs }) hmore

theorem written_single_cs (hlow : 0x200 ≤ p.regOffset.toNat) (hi : p.regOffset.toNat + i < 2 ^ 16) :
    SetPacket.written.cs 1 (SetPacket.written.cs i s queue p) queue (SetPacket.single.one i p)
      = SetPacket.written.cs (i + 1) s queue p := by
  unfold SetPacket.written.cs
  have hword : p.regOffset.toNat + i - 0x200 = p.regOffset.toNat - 0x200 + i := by omega
  rw [single_regOffset hi, hword]
  have hmore := overwrite_succ (s.csState queue) (p.regOffset.toNat - 0x200) p.payload i
  simp only [Function.update_self, Function.update_idem]
  exact congrArg (fun state => { s with csState := Function.update s.csState queue state }) hmore

theorem SetData.Fits.single (h : p.Fits base) (hi : i < p.dataWords)
    (hoff : p.regOffset.toNat + i < 2 ^ 16) : (SetPacket.single.one i p).Fits base := by
  refine .inr ?_
  rw [single_dataWords, single_regOffset hoff]
  rcases h with hzero | hfits
  · omega
  · omega

theorem SetPacket.written_setShReg (m : Nat) (s : RegStores) (queue : Nat) (p : SetData) :
    written m s (.setShReg queue p) =
      if 0x200 ≤ p.regOffset.toNat ∧ p.regOffset.toNat ≤ 0x200 + 80 then written.cs m s queue p
      else written.regs m s Regs.shRegWordOffset p := rfl

/-- The packet of the register after the first `i`. -/
theorem SetPacket.single_whole (h : packet.Whole) (hi : i < packet.data.dataWords) :
    (packet.single i).Whole ∧ (packet.single i).data.dataWords = 1 ∧
      (packet.single i).written 1 (packet.written i s) = packet.written (i + 1) s := by
  have hfits {base : Nat} {p : SetData} (hp : p.Fits base) (hi : i < p.dataWords)
      (hbase : 0x2000 ≤ base) : p.regOffset.toNat + i < 2 ^ 16 := by
    unfold SetData.Fits Regs.numRegs at hp
    omega
  cases packet with
  | setConfigReg p =>
    have hoff := hfits h hi (by decide)
    exact ⟨h.single hi hoff, single_dataWords, written_single_regs hoff⟩
  | setContextReg p =>
    have hoff := hfits h.1 hi (by decide)
    exact ⟨⟨h.1.single hi hoff, single_hintOk⟩, single_dataWords, written_single_regs hoff⟩
  | setUconfigReg p =>
    have hoff := hfits h hi (by decide)
    exact ⟨h.single hi hoff, single_dataWords, written_single_regs hoff⟩
  | setShReg queue p =>
    have hi' : i < p.dataWords := hi
    unfold Whole at h
    unfold computeProgramWords at h
    rcases h with hzero | ⟨hlow, hhigh⟩ | ⟨hout, hp⟩
    · omega
    · have hoff : p.regOffset.toNat + i < 2 ^ 16 := by omega
      refine ⟨.inr (.inl ?_), single_dataWords, ?_⟩
      · rw [single_regOffset hoff, single_dataWords]
        unfold computeProgramWords
        omega
      · show written 1 _ (.setShReg queue (single.one i p)) = _
        simp only [written_setShReg, single_regOffset hoff]
        rw [if_pos (by omega), if_pos (by omega), if_pos (by omega)]
        exact written_single_cs hlow hoff
    · have hoff := hfits hp hi' (by decide)
      refine ⟨.inr (.inr ⟨?_, hp.single hi' hoff⟩), single_dataWords, ?_⟩
      · rw [single_regOffset hoff, single_dataWords]
        unfold computeProgramWords
        omega
      · show written 1 _ (.setShReg queue (single.one i p)) = _
        simp only [written_setShReg, single_regOffset hoff]
        rw [if_neg (by omega), if_neg (by omega), if_neg (by omega)]
        exact written_single_regs hoff

theorem SetPacket.written_zero : packet.written 0 s = s := by
  have hregs {base : Nat} {p : SetData} : written.regs 0 s base p = s := by
    unfold written.regs
    rw [overwrite_zero]
  cases packet with
  | setConfigReg p => exact hregs
  | setContextReg p => exact hregs
  | setUconfigReg p => exact hregs
  | setShReg queue p =>
    rw [written_setShReg]
    split
    · unfold written.cs
      dsimp only
      rw [overwrite_zero, Function.update_eq_self]
    · exact hregs

/-- The packets of the registers write what the packet writes. -/
theorem SetPacket.singles_ok (h : packet.Whole) (l : Liverpool) :
    ∃ l', packet.singles.foldlM run l = .ok l' ∧
      l'.stores = packet.written packet.data.dataWords l.stores := by
  have hsteps : ∀ m ≤ packet.data.dataWords, ∃ l',
      ((List.range m).map packet.single).foldlM run l = .ok l' ∧ l'.stores = packet.written m l.stores := by
    intro m
    induction m with
    | zero =>
      intro _
      exact ⟨l, rfl, written_zero.symm⟩
    | succ m ih =>
      intro hm
      obtain ⟨l₁, hrun, hstores⟩ := ih (by omega)
      obtain ⟨hwhole, hone, hnext⟩ := single_whole (s := l.stores) h (i := m) (by omega)
      obtain ⟨l₂, hlast, hstores'⟩ := run_ok hwhole l₁
      refine ⟨l₂, ?_, ?_⟩
      · rw [List.range_succ, List.map_append, List.foldlM_append, hrun]
        show (([m].map packet.single).foldlM run l₁) = _
        rw [List.map_singleton, List.foldlM_cons, hlast]
        rfl
      · rw [hstores', hone, hstores, hnext]
  exact hsteps _ le_rfl

/-- Packets that stay in their places may be taken apart. -/
theorem sameWrites_of_whole {packets : List SetPacket} (h : ∀ packet ∈ packets, packet.Whole) :
    ∀ l, SameWrites l packets := by
  have hboth : ∀ l l' : Liverpool, l.stores = l'.stores → ∃ l₁ l₂,
      packets.foldlM SetPacket.run l = .ok l₁ ∧
        (packets.flatMap SetPacket.singles).foldlM SetPacket.run l' = .ok l₂ ∧ l₁.stores = l₂.stores := by
    induction packets with
    | nil =>
      intro l l' hstores
      exact ⟨l, l', rfl, rfl, hstores⟩
    | cons packet packets ih =>
      intro l l' hstores
      obtain ⟨l₁, hrun, hwritten⟩ := SetPacket.run_ok (h packet (.head _)) l
      obtain ⟨l₂, hsingles, hwritten'⟩ := SetPacket.singles_ok (h packet (.head _)) l'
      obtain ⟨l₃, l₄, hrest, hrest', hsame⟩ := ih (fun q hq => h q (.tail _ hq)) l₁ l₂
        (by rw [hwritten, hwritten', hstores])
      refine ⟨l₃, l₄, ?_, ?_, hsame⟩
      · rw [List.foldlM_cons, hrun]
        exact hrest
      · rw [List.flatMap_cons, List.foldlM_append, hsingles]
        exact hrest'
  exact fun l => hboth l l rfl

/-! ## Packets that cannot be taken apart -/

theorem SetData.fits_of_copy {s' : RegStores} (h : p.copy base s = .ok s') : p.Fits base := by
  by_contra hfits
  have hfault : p.copy base s = .error .undefined := by
    refine if_neg ?_
    unfold SetData.Fits at hfits
    omega
  rw [hfault] at h
  cases h

/-- What the packet of one register does with the first word of the compute state. -/
theorem SetPacket.run_single_cs (hoff : p.regOffset.toNat + i < 2 ^ 16)
    (h : run l (.setShReg queue (single.one i p)) = .ok l') :
    l'.stores.csState queue 0 =
      if p.regOffset.toNat + i = 0x200 then p.payload i else l.stores.csState queue 0 := by
  obtain ⟨s', hstore, hret⟩ := Outcome.bind_eq_ok.1 h
  rw [← Outcome.pure_eq_ok.1 hret]
  dsimp only
  change VideoCore.setShReg queue (single.one i p) l.stores = .ok s' at hstore
  unfold VideoCore.setShReg at hstore
  rw [single_regOffset hoff, single_dataWords] at hstore
  split at hstore
  · next hcs =>
    obtain ⟨-, -, hcopy⟩ := Outcome.bind_eq_ok.1 hstore
    unfold RegStores.memcpyCs at hcopy
    split at hcopy
    · cases hcopy
      simp only [Function.update_self]
      unfold overwrite
      by_cases hfirst : p.regOffset.toNat + i = 0x200
      · have hstart : p.regOffset.toNat + i - 0x200 = 0 := by omega
        rw [hstart, if_pos hfirst]
        exact if_pos ⟨le_rfl, Nat.one_pos⟩
      · rw [if_neg (by omega), if_neg hfirst]
    · cases hcopy
  · next hout =>
    unfold SetData.copy RegStores.memcpyRegs at hstore
    split at hstore
    · cases hstore
      rw [if_neg (by omega)]
    · cases hstore

/-- The packets of the registers reach the compute state. -/
theorem SetPacket.singles_cs (hlow : p.regOffset.toNat < 0x200) (m : Nat) :
    ∀ {l l' : Liverpool}, p.regOffset.toNat + m < 2 ^ 16 → 0x200 < p.regOffset.toNat + m →
      ((List.range m).map (SetPacket.setShReg queue p).single).foldlM run l = .ok l' →
        l'.stores.csState queue 0 = p.payload (0x200 - p.regOffset.toNat) := by
  induction m with
  | zero =>
    intro l l' _ hhigh
    omega
  | succ m ih =>
    intro l l' hoff hhigh hrun
    rw [List.range_succ, List.map_append, List.foldlM_append] at hrun
    obtain ⟨l₁, hbefore, hlast⟩ := Outcome.bind_eq_ok.1 hrun
    rw [List.map_singleton, List.foldlM_cons] at hlast
    obtain ⟨l₂, hone, hret⟩ := Outcome.bind_eq_ok.1 hlast
    obtain rfl := Outcome.pure_eq_ok.1 hret
    rw [run_single_cs (by omega) hone]
    by_cases hfirst : p.regOffset.toNat + m = 0x200
    · have hm : 0x200 - p.regOffset.toNat = m := by omega
      rw [if_pos hfirst, hm]
    · rw [if_neg hfirst]
      exact ih (by omega) (by omega) hbefore

theorem SetPacket.whole_of_sameWrites (h : ∀ l, SameWrites l [packet]) : packet.Whole := by
  have hrun (l : Liverpool) : ∃ s', packet.store l.stores = .ok s' ∧ ∃ l', packet.hint { l with stores := s' } = .ok l' := by
    obtain ⟨l₁, -, hfirst, -, -⟩ := h l
    rw [List.foldlM_cons] at hfirst
    obtain ⟨l', hok, -⟩ := Outcome.bind_eq_ok.1 hfirst
    obtain ⟨s', hstore, hhint⟩ := Outcome.bind_eq_ok.1 hok
    exact ⟨s', hstore, l', hhint⟩
  let l₀ : Liverpool := ⟨⟨fun _ _ => 0, fun _ => 0⟩, fun _ => 0, 0⟩
  cases packet with
  | setConfigReg p =>
    obtain ⟨s', hstore, -⟩ := hrun l₀
    exact SetData.fits_of_copy hstore
  | setContextReg p =>
    obtain ⟨s', hstore, hhint⟩ := hrun l₀
    exact ⟨SetData.fits_of_copy hstore, contextHint_ok.1 hhint⟩
  | setUconfigReg p =>
    obtain ⟨s', hstore, -⟩ := hrun l₀
    exact SetData.fits_of_copy hstore
  | setShReg queue p =>
    obtain ⟨s', hstore, -⟩ := hrun l₀
    change VideoCore.setShReg queue p l₀.stores = .ok s' at hstore
    unfold VideoCore.setShReg at hstore
    unfold Whole
    by_cases hcs : 0x200 ≤ p.regOffset.toNat ∧ p.regOffset.toNat ≤ 0x200 + computeProgramWords
    · rw [if_pos hcs] at hstore
      obtain ⟨-, -, hcopy⟩ := Outcome.bind_eq_ok.1 hstore
      unfold RegStores.memcpyCs at hcopy
      split at hcopy
      · next hin => omega
      · cases hcopy
    · rw [if_neg hcs] at hstore
      have hfits := SetData.fits_of_copy hstore
      by_cases hzero : p.dataWords = 0
      · exact .inl hzero
      refine .inr (.inr ⟨?_, hfits⟩)
      by_contra hcross
      have hwide : p.regOffset.toNat + p.dataWords < 2 ^ 16 := by
        unfold SetData.Fits Regs.shRegWordOffset Regs.numRegs at hfits
        omega
      -- A compute state in which the register that the packet misses has another value.
      let first := p.payload (0x200 - p.regOffset.toNat)
      obtain ⟨l₁, l₂, hwhole, hsingles, hsame⟩ := h ⟨⟨fun _ _ => first + 1, fun _ => 0⟩, fun _ => 0, 0⟩
      have hreached : l₂.stores.csState queue 0 = first := by
        rw [List.flatMap_singleton] at hsingles
        exact singles_cs (by omega) _ hwide (by omega) hsingles
      have hmissed : l₁.stores.csState queue 0 = first + 1 := by
        rw [List.foldlM_cons] at hwhole
        obtain ⟨l', hok, hret⟩ := Outcome.bind_eq_ok.1 hwhole
        obtain ⟨s₁, hstore₁, hhint⟩ := Outcome.bind_eq_ok.1 hok
        change VideoCore.setShReg queue p _ = .ok s₁ at hstore₁
        unfold VideoCore.setShReg at hstore₁
        rw [if_neg hcs, SetData.copy_ok hfits] at hstore₁
        cases hstore₁
        obtain rfl := Outcome.pure_eq_ok.1 hhint
        obtain rfl := Outcome.pure_eq_ok.1 hret
        rfl
      rw [hsame, hreached] at hmissed
      exact absurd hmissed (by simp)

/-- Packets that stay in the place of their first register have the same effect as one packet for each
register, and write nothing else. No other packet does so from all states. -/
theorem sameWrites_of_whole_iff (packets : List SetPacket) (packet : SetPacket) :
    ((∀ q ∈ packets, q.Whole) → ∀ l, SameWrites l packets) ∧
      ((∀ l, SameWrites l [packet]) ↔ packet.Whole) := by
  refine ⟨sameWrites_of_whole, ?_⟩
  constructor
  · exact SetPacket.whole_of_sameWrites
  · intro hwhole
    refine sameWrites_of_whole ?_
    intro q hq
    rwa [List.mem_singleton.1 hq]

/-- The first two registers of the compute state. -/
def computeData : SetData where
  count := 2
  regOffset := 0x200
  payload := fun i => 7 + BitVec.ofNat 32 i

theorem sameWrites_compute : ∀ l, SameWrites l [.setShReg 0 computeData] := by
  have hwords : computeData.dataWords = 2 := U32.sub_of_le (by decide) (by decide)
  have hwhole : (SetPacket.setShReg 0 computeData).Whole := by
    refine .inr (.inl ⟨by decide, ?_⟩)
    rw [hwords]
    decide
  exact (sameWrites_of_whole_iff [] (.setShReg 0 computeData)).2.2 hwhole

/-- Two registers, from `0x1ff` on. -/
def crossingData : SetData where
  count := 2
  regOffset := 0x1ff
  payload := fun i => 7 + BitVec.ofNat 32 i

/-- The register `0x250`, which is the first one after those of a compute program. -/
def edgeData : SetData where
  count := 1
  regOffset := 0x250
  payload := fun i => 7 + BitVec.ofNat 32 i

/-- The second of two registers is one of the compute state, and the packet writes it to `reg_array`.
The register after the compute state is written behind it. -/
theorem sameWrites_crossing :
    (¬∀ l, SameWrites l [.setShReg 0 crossingData]) ∧
      ∀ l, SetPacket.run l (.setShReg 0 edgeData) = .error .undefined := by
  constructor
  · intro h
    have hwhole : crossingData.dataWords = 0 ∨
        0x200 ≤ crossingData.regOffset.toNat ∧
            crossingData.regOffset.toNat + crossingData.dataWords ≤ 0x200 + 80 ∨
          (crossingData.regOffset.toNat + crossingData.dataWords ≤ 0x200 ∨
            0x200 + 80 < crossingData.regOffset.toNat) ∧ crossingData.Fits Regs.shRegWordOffset :=
      SetPacket.whole_of_sameWrites h
    have hwords : crossingData.dataWords = 2 := U32.sub_of_le (by decide) (by decide)
    have hoffset : crossingData.regOffset.toNat = 0x1ff := rfl
    rw [hwords, hoffset] at hwhole
    omega
  · intro l
    have hwords : edgeData.dataWords = 1 := U32.sub_of_le (by decide) (by decide)
    have hcopy : l.stores.memcpyCs 0 (edgeData.regOffset.toNat - 0x200) edgeData.payload edgeData.dataWords
        = .error .undefined := by
      refine if_neg ?_
      rw [hwords]
      decide
    have hassert : assertMsg (4 * edgeData.dataWords ≤ 4 * computeProgramWords)
        "set_size <= sizeof(ComputeProgram)" = .ok () := by
      rw [hwords]
      rfl
    have hstore : VideoCore.setShReg 0 edgeData l.stores = .error .undefined := by
      unfold setShReg
      rw [if_pos (by decide), hassert]
      exact hcopy
    unfold SetPacket.run
    show (VideoCore.setShReg 0 edgeData l.stores >>= _) = _
    rw [hstore]
    rfl

end VideoCore
