-- SUMMARY: What `Protect` does to the bytes of its range, when it returns, and when the flags it sets are the restricted ones.
import W7PS4.Memory.MergedAreas
import W7PS4.Memory.System

/-!
# The effect of protecting

`Protect` restricts the flags it is given and then passes on the flags it was
given. It also looks at the entry of an area once more after the merge, which may have
erased it. Apart from that it does what it says: the bytes of the range that are
mapped or reserved get the new protection, and nothing else changes.
-/

namespace Core

namespace MemoryProt

/-- `flag_mask`. -/
def flagMask : MemoryProt := cpuReadWrite ||| cpuExec ||| gpuReadWrite

/-- The protection a byte of an area of type `t` gets: execute permissions are hidden
    from direct memory and file mappings. -/
def forType (prot : MemoryProt) (t : VMAType) : MemoryProt :=
  if t = .direct ∨ t = .pooled ∨ t = .file then prot.appendRead &&& ~~~cpuExec
  else prot.appendRead

variable {prot : MemoryProt} {t : VMAType}

theorem appendRead_outside : prot.appendRead &&& ~~~flagMask = prot &&& ~~~flagMask := by
  unfold appendRead
  split
  · rw [BitVec.and_or_distrib_right, show cpuRead &&& ~~~flagMask = 0#32 by decide, BitVec.or_zero]
  · rfl

/-- Adding and hiding flags leaves the ones outside the mask alone. -/
theorem forType_outside : prot.forType t &&& ~~~flagMask = prot &&& ~~~flagMask := by
  unfold forType
  split
  · rw [BitVec.and_assoc, show ~~~cpuExec &&& ~~~flagMask = ~~~flagMask by decide,
      appendRead_outside]
  · exact appendRead_outside

/-- Flags outside the mask show in every protection that is computed from them. -/
theorem forType_restricted_iff :
    prot.forType t = (prot &&& flagMask).forType t ↔ prot &&& ~~~flagMask = 0 := by
  constructor
  · intro h
    rw [← forType_outside (t := t), h, forType_outside, BitVec.and_assoc,
      show flagMask &&& ~~~flagMask = 0#32 by decide, BitVec.and_zero]
    rfl
  · intro h
    have hsplit : prot = prot &&& flagMask ||| prot &&& ~~~flagMask := by
      rw [← BitVec.and_or_distrib_left, show flagMask ||| ~~~flagMask = BitVec.allOnes 32 by decide,
        BitVec.and_allOnes]
    rw [h] at hsplit
    rw [← show prot = prot &&& flagMask from hsplit.trans (BitVec.or_zero)]

end MemoryProt

namespace VirtByte

/-- What protecting makes of a byte. On PS4, protecting freed memory does nothing. -/
def withProt (prot : MemoryProt) (x : VirtByte) : VirtByte :=
  if x.type = .free ∨ x.type = .poolReserved then x else { x with prot := prot.forType x.type }

theorem withProt_of_inert {prot : MemoryProt} {x : VirtByte}
    (h : x.type = .free ∨ x.type = .poolReserved) : x.withProt prot = x := if_pos h

theorem withProt_of_active {prot : MemoryProt} {x : VirtByte}
    (h : ¬(x.type = .free ∨ x.type = .poolReserved)) :
    x.withProt prot = { x with prot := prot.forType x.type } := if_neg h

@[simp] theorem withProt_type (prot : MemoryProt) (x : VirtByte) : (x.withProt prot).type = x.type := by
  unfold withProt
  split <;> rfl

theorem withProt_withProt (prot : MemoryProt) (x : VirtByte) :
    (x.withProt prot).withProt prot = x.withProt prot := by
  by_cases h : x.type = .free ∨ x.type = .poolReserved
  · rw [withProt_of_inert h, withProt_of_inert h]
  · rw [withProt_of_active h]
    exact withProt_of_active h

/-- Everything a byte says but its protection. -/
def attributes (x : VirtByte) : VMAType × String × Bool × Option PhysByte :=
  (x.type, x.name, x.disallowMerge, x.backing)

theorem attributes_withProt (prot : MemoryProt) (x : VirtByte) :
    (x.withProt prot).attributes = x.attributes := by
  unfold withProt
  split <;> rfl

end VirtByte

namespace MemoryManager

open StdMap (SeamAt)

variable {env : Environment} {s s' : MemoryManager} {addr size n k : Nat} {v : VirtualMemoryArea}
  {prot : MemoryProt}

/-! ## One area -/

theorem retouch_prot (prot : MemoryProt) : Retouch fun vma => { vma with prot } :=
  ⟨fun _ => rfl, fun _ => rfl, fun _ => rfl, fun _ => rfl⟩

theorem Valid.mem_of_floor? (h : s.Valid env) (hin : (s.view.virt addr).isSome)
    (hfloor : s.vmaMap.floor? addr = some (k, v)) :
    s.vmaMap.find? k = some v ∧ k ≤ addr ∧ addr < k + v.size := by
  obtain ⟨x, hx⟩ := Option.isSome_iff_exists.1 hin
  obtain ⟨j, w, hj, hle, hlt, -⟩ := StdMap.exists_of_at? hx
  rw [StdMap.floor?_of_mem h.vma.separated hj hle hlt] at hfloor
  cases hfloor
  exact ⟨hj, hle, hlt⟩

theorem virt_of_area (h : s.Valid env) {p : Nat} (hk : s.vmaMap.find? k = some v) (hle : k ≤ p)
    (hlt : p < k + v.size) : s.view.virt p = some (Area.byte v (p - k)) :=
  StdMap.at?_of_find? h.vma.separated hk hle hlt

/-- No entry lies inside another area. -/
theorem Valid.find?_inside {p : Nat} (h : s.Valid env) (hk : s.vmaMap.find? k = some v)
    (hlt : k < p) (hend : p < k + v.size) : s.vmaMap.find? p = none := by
  have hnone : s.vmaMap.find? (k + (p - k)) = none :=
    h.vma.separated.find?_inside hk (by omega) (by simp only [VirtualMemoryArea.area_size]; omega)
  rwa [show k + (p - k) = p by omega] at hnone

/-- Where an area ends and the addresses go on, the next one has its entry. -/
theorem Valid.isSome_end (h : s.Valid env) (hk : s.vmaMap.find? k = some v)
    (hin : (s.view.virt (k + v.size)).isSome) : (s.vmaMap.find? (k + v.size)).isSome := by
  obtain ⟨y, hy⟩ := Option.isSome_iff_exists.1 hin
  obtain ⟨j, w, hj, hjle, hjlt, -⟩ := StdMap.exists_of_at? hy
  simp only [VirtualMemoryArea.area_size] at hjlt
  rcases Nat.lt_trichotomy k j with hkj | rfl | hjk
  · have hend := h.vma.separated k v j w hk hj hkj
    simp only [VirtualMemoryArea.area_size] at hend
    rw [show k + v.size = j by omega, hj]
    rfl
  · rw [hk] at hj
    cases hj
    omega
  · have hend := h.vma.separated j w k v hj hk hjk
    simp only [VirtualMemoryArea.area_size] at hend
    omega

theorem protectSize_eq (size : Nat) (h : s.Valid env) (hk : s.vmaMap.find? k = some v) (hle : k ≤ addr)
    (hlt : addr < k + v.size) : min (U64.sub v.size (U64.sub addr v.base)) size =
      min (k + v.size - addr) size := by
  have hbase := h.vma.key k v hk
  have hend := h.vma.end_lt k v hk
  rw [hbase, U64.sub_of_le (by omega) hle, U64.sub_of_le (by omega) (by omega)]
  congr 1
  omega

/-- `ProtectBytes` for an area that is not protected. -/
theorem protectBytes_of_inert (size : Nat) (prot : MemoryProt) (h : s.Valid env)
    (hk : s.vmaMap.find? k = some v) (hle : k ≤ addr) (hlt : addr < k + v.size)
    (hinert : v.type = .free ∨ v.type = .poolReserved) :
    s.protectBytes addr k v size prot = .ok (s, min (k + v.size - addr) size) ∧
      updateOn (Set.Ico addr (addr + min (k + v.size - addr) size)) (VirtByte.withProt prot)
        s.view.virt = s.view.virt := by
  constructor
  · simp only [protectBytes, if_pos hinert, protectSize_eq size h hk hle hlt]
    rfl
  · refine (updateOn_congr fun p x hx => ?_).trans (updateOn_empty (g := VirtByte.withProt prot))
    by_cases hp : p ∈ Set.Ico addr (addr + min (k + v.size - addr) size)
    · right
      rw [Set.mem_Ico] at hp
      rw [virt_of_area h hk (by omega) (by omega)] at hx
      cases hx
      exact VirtByte.withProt_of_inert hinert
    · exact .inl (by simp [hp])

/-- The keys after a turn that protects `[addr, addr + n)` and whose bytes then read `f`. -/
structure TurnKeys (map map' : VMAMap) (addr n : Nat) (f : Nat → Option VirtByte) : Prop where
  away : ∀ q, q ≠ addr → q ≠ addr + n → ((map'.find? q).isSome ↔ (map.find? q).isSome)
  start : (map'.find? addr).isSome ↔ ¬SeamAt VirtByte.Continues f addr
  stop : (map.find? (addr + n)).isSome →
    ((map'.find? (addr + n)).isSome ↔ ¬SeamAt VirtByte.Continues f (addr + n))

/-- An entry for exactly the range, coalesced with what is next to it. -/
theorem TurnKeys.of_replaced {map map' : VMAMap} {w : VirtualMemoryArea} (hrep : map.Replaced map' addr n w)
    (hkeep : ∀ q, (map.find? q).isSome → (map'.find? q).isSome) :
    TurnKeys map (VMAMap.mergeAdjacent map' addr).1 addr n (VMAMap.mergeAdjacent map' addr).1.at? := by
  have hkeys := fun q => hrep.wf.isSome_mergeAdjacent_iff hrep.find (k := q)
  have hat : (VMAMap.mergeAdjacent map' addr).1.at? = map'.at? := funext hrep.wf.mergeAdjacent.2
  rw [hrep.size_eq, ← hat] at hkeys
  refine ⟨fun q hstart hstop => ?_, ?_, fun hstop => ?_⟩
  · rw [hkeys q]
    constructor
    · rintro ⟨hq, -⟩
      exact (hrep.keys q hq).resolve_right (by simp [hstart, hstop])
    · intro hq
      exact ⟨hkeep q hq, fun hend => by simp [hstart, hstop] at hend⟩
  · rw [hkeys addr]
    simp [hrep.find]
  · rw [hkeys (addr + n)]
    simp [hkeep _ hstop]

/-- `ProtectBytes` for an area that is protected: all depends on whether the entry of the area,
    which it looks at again at the end, is still there. -/
theorem protectBytes_of_active (prot : MemoryProt) (h : s.Valid env)
    (hk : s.vmaMap.find? k = some v) (hle : k ≤ addr) (hlt : addr < k + v.size) (hpos : 0 < size)
    (hactive : ¬(v.type = .free ∨ v.type = .poolReserved)) :
    ∃ map' : VMAMap, s.protectBytes addr k v size prot = (deref (map'.find? k) >>= fun _ =>
        .ok ({ s with vmaMap := map' }, min (k + v.size - addr) size)) ∧
      map'.at? = updateOn (Set.Ico addr (addr + min (k + v.size - addr) size))
        (VirtByte.withProt prot) s.view.virt ∧
      TurnKeys s.vmaMap map' addr (min (k + v.size - addr) size) map'.at? := by
  have hend := h.vma.end_lt k v hk
  have hsub := protectSize_eq size h hk hle hlt
  generalize hn : min (k + v.size - addr) size = n at hsub ⊢
  have hnpos : 0 < n := by omega
  obtain ⟨⟨map, new⟩, hcarve⟩ := h.vma.exists_carveVMA hk hle (show addr + n ≤ k + v.size by omega) hnpos
  obtain ⟨hhandle, v₁, w, hc, hfind, hw, hwbase, hwsize, hwt, hread, hrep⟩ :=
    h.vma.carve_modify (by omega) (by omega) hcarve
  simp only at hhandle
  subst hhandle
  obtain ⟨rfl⟩ : v₁ = v := by
    have hfloor := hc.floor? h.vma
    rw [StdMap.floor?_of_mem h.vma.separated hk hle hlt] at hfloor
    cases hfloor
    rfl
  have hnew := hrep (fun vma => { vma with prot := prot.forType v.type })
    ((retouch_prot _).wf hw (by rw [hwt]; exact fun hfree => hactive (.inl hfree))) hwbase hwsize
  -- neither carving nor the new protection erases an entry
  have hkeep : ∀ q, (s.vmaMap.find? q).isSome →
      ((map.modify new fun vma => { vma with prot := prot.forType v.type }).find? q).isSome := by
    intro q hq
    have hcarved := h.vma.isSome_carveVMA hcarve hq
    rw [StdMap.find?_modify]
    split
    · simp [hfind]
    · exact hcarved
  refine ⟨_, ?_, ?_, .of_replaced hnew hkeep⟩
  · simp only [protectBytes, if_neg hactive, hsub, hcarve, Outcome.ok_bind]
    rfl
  · funext p
    refine (hnew.mergeAdjacent.2 p).trans ?_
    split
    · rename_i hp
      have hx := hread (p - new) (by omega)
      rw [Nat.add_sub_cancel' hp.1] at hx
      rw [updateOn_of_mem (Set.mem_Ico.2 hp), show s.view.virt p = _ from hx, Option.map_some,
        VirtByte.withProt_of_active (by simpa [hwt] using hactive)]
      simp [hwt]
    · rename_i hp
      rw [updateOn_of_notMem (mt Set.mem_Ico.1 hp)]
      rfl

/-- `ProtectBytes` protects the part of the range that lies in the area. -/
theorem protectBytes_virt (h : s.Valid env) (huse : s.InUse addr size) (hpos : 0 < size)
    (hfloor : s.vmaMap.floor? addr = some (k, v))
    (hr : s.protectBytes addr k v size prot = .ok (s', n)) :
    n = min (k + v.size - addr) size ∧ 0 < n ∧
      s'.view.virt = updateOn (Set.Ico addr (addr + n)) (VirtByte.withProt prot) s.view.virt := by
  obtain ⟨hk, hle, hlt⟩ := h.mem_of_floor? (huse.2 addr (by rw [Set.mem_Ico]; omega)) hfloor
  by_cases hactive : v.type = .free ∨ v.type = .poolReserved
  · obtain ⟨heq, hsame⟩ := protectBytes_of_inert size prot h hk hle hlt hactive
    rw [heq] at hr
    cases hr
    exact ⟨rfl, by omega, hsame.symm⟩
  · obtain ⟨map', heq, hat, -⟩ := protectBytes_of_active prot h hk hle hlt hpos hactive
    simp only [heq, Outcome.bind_eq_ok, Except.ok.injEq, Prod.mk.injEq] at hr
    obtain ⟨_, -, rfl, rfl⟩ := hr
    exact ⟨rfl, by omega, hat⟩

/-! ## The range -/

theorem InUse.of_retouches {s₁ : MemoryManager} (h : s.InUse addr size)
    (hs : Retouches env s s₁) : s₁.InUse addr size := by
  refine ⟨h.1, fun p hp => ?_⟩
  have := congrArg Option.isSome (hs.same.virt p)
  simp only [Option.isSome_map] at this
  rw [this]
  exact h.2 p hp

/-- The loop protects what is left of the range. The induction is on the turns; every
    turn protects part of one area. -/
theorem protectLoop_virt {fuel done : Nat} (h : s.Valid env) (hle : done ≤ size)
    (huse : s.InUse (addr + done) (size - done)) (hlt : addr + size < 2 ^ 63)
    (hr : protectLoop prot fuel s addr size done = .ok s') :
    s'.view.virt =
      updateOn (Set.Ico (addr + done) (addr + size)) (VirtByte.withProt prot) s.view.virt := by
  induction fuel generalizing s done with
  | zero => cases hr
  | succ fuel ih =>
    simp only [protectLoop] at hr
    split at hr
    · have hcur : U64.add addr done = addr + done := U64.add_of_lt (by omega)
      have hrest : U64.sub size done = size - done := U64.sub_of_le (by omega) hle
      simp only [VMAMap.findVMA, Outcome.bind_eq_ok, deref_eq_ok, hcur] at hr
      obtain ⟨⟨k, v⟩, hfloor, ⟨s₁, n⟩, hbytes, hr⟩ := hr
      obtain ⟨hk, hkle, -⟩ := StdMap.floor?_eq_some.1 hfloor
      simp only at hk hkle hbytes hr
      have hbase := h.vma.key k v hk
      have hnogap : ¬v.base > addr + done := by omega
      simp only [if_neg hnogap, hcur, hrest] at hbytes hr
      have hstep := protectBytes_eq_ok h (by omega) (by omega) hfloor hbytes
      obtain ⟨hn, hpos, hvirt⟩ := protectBytes_virt h huse (by omega) hfloor hbytes
      rw [if_neg (by omega), U64.add_of_lt (by omega)] at hr
      have huse' : s₁.InUse (addr + (done + n)) (size - (done + n)) := by
        refine ⟨by omega, fun p hp => (huse.of_retouches hstep).2 p ?_⟩
        simp only [Set.mem_Ico] at hp ⊢
        omega
      rw [ih hstep.valid (by omega) huse' hr, hvirt,
        updateOn_updateOn (VirtByte.withProt_withProt prot), ← Nat.add_assoc,
        Set.Ico_union_Ico_eq_Ico (by omega) (by omega)]
    · rw [Outcome.pure_eq_ok] at hr
      subst hr
      rw [show Set.Ico (addr + done) (addr + size) = ∅ from Set.Ico_eq_empty (by omega),
        updateOn_empty]

theorem protect_virt (h : s.Valid env) (hcovers : s.vmaMap.Covers addr size)
    (hr : s.protect addr size prot = .ok s') :
    s'.view.virt = updateOn (Set.Ico addr (addr + size)) (VirtByte.withProt prot) s.view.virt := by
  simp only [protect] at hr
  split at hr
  · rename_i hzero
    rw [Outcome.pure_eq_ok] at hr
    subst hr hzero
    simp
  · have hin := h.vma.regions.covers_iff.1 hcovers
    obtain ⟨r, hr₁, hle, hlt⟩ :=
      (h.sound.usable _).1 (hin (addr + size - 1) (by rw [Set.mem_Ico]; omega))
    have := env.usable_nonempty r hr₁
    simp only [Outcome.bind_eq_ok] at hr
    obtain ⟨_, -, _, -, hr⟩ := hr
    exact protectLoop_virt h (Nat.zero_le _) ⟨by omega, hin⟩ (by omega) hr

/-! ## Which calls return -/

/-- The area that starts at `k` is protected in a turn of its own and merged into the one before
    it then. `f` are the bytes before the call: those below `k` in the range are protected when
    the turn comes. -/
def MergesBack (prot : MemoryProt) (f : Nat → Option VirtByte) (addr k : Nat) : Prop :=
  ∃ p x y, k = p + 1 ∧ f p = some x ∧ f k = some y ∧ ¬(y.type = .free ∨ y.type = .poolReserved) ∧
    VirtByte.Continues (if k = addr then x else x.withProt prot) (y.withProt prot) ∧
    (k ≠ addr → y.prot ≠ prot.forType y.type)

/-- No area of the range is merged into the one before it in the turn that protects it, which
    looks at its entry again after the merge. -/
def KeepsEntries (s : MemoryManager) (addr size : Nat) (prot : MemoryProt) : Prop :=
  ∀ k ∈ Set.Ico addr (addr + size), (s.vmaMap.find? k).isSome →
    ¬MergesBack prot s.view.virt addr k

/-- The state when `done` bytes are protected, beside the one before the call. The area that the
    next turn starts with may be part of the last one already. -/
structure Midway (s₀ s : MemoryManager) (prot : MemoryProt) (addr size done : Nat) : Prop where
  virt : s.view.virt = updateOn (Set.Ico addr (addr + done)) (VirtByte.withProt prot) s₀.view.virt
  keys : ∀ q, addr + done < q → q < addr + size →
    ((s.vmaMap.find? q).isSome ↔ (s₀.vmaMap.find? q).isSome)
  first : done = 0 → ((s.vmaMap.find? addr).isSome ↔ (s₀.vmaMap.find? addr).isSome)
  here : 0 < done → done < size → ∀ y, s₀.view.virt (addr + done) = some y →
    ¬(y.type = .free ∨ y.type = .poolReserved) → ((s.vmaMap.find? (addr + done)).isSome ↔
      (s₀.vmaMap.find? (addr + done)).isSome ∧ ¬SeamAt VirtByte.Continues s.view.virt (addr + done))

variable {s₀ : MemoryManager} {done : Nat}

theorem Midway.virt_here (h : Midway s₀ s prot addr size done) :
    s.view.virt (addr + done) = s₀.view.virt (addr + done) := by
  rw [h.virt, updateOn_of_notMem (by simp)]

theorem Midway.virt_before (h : Midway s₀ s prot addr size done) {p : Nat} (hp : addr + done = p + 1) :
    s.view.virt p = (s₀.view.virt p).map fun x => if addr + done = addr then x else x.withProt prot := by
  rw [h.virt]
  by_cases hzero : done = 0
  · subst hzero
    rw [updateOn_of_notMem (by simp)]
    simp
  · rw [updateOn_of_mem (by rw [Set.mem_Ico]; omega)]
    simp [hzero]

/-- The seam at the start of a turn, once its area is protected. -/
theorem Midway.seamAt_iff (h : Midway s₀ s prot addr size done) (hlt : done < size) (hpos : 0 < n)
    {y : VirtByte} (hy : s₀.view.virt (addr + done) = some y)
    (hactive : ¬(y.type = .free ∨ y.type = .poolReserved))
    (hkey : (s.vmaMap.find? (addr + done)).isSome) :
    SeamAt VirtByte.Continues (updateOn (Set.Ico (addr + done) (addr + done + n))
        (VirtByte.withProt prot) s.view.virt) (addr + done) ↔
      MergesBack prot s₀.view.virt addr (addr + done) := by
  have hat : updateOn (Set.Ico (addr + done) (addr + done + n)) (VirtByte.withProt prot) s.view.virt
      (addr + done) = some (y.withProt prot) := by
    rw [updateOn_of_mem (by rw [Set.mem_Ico]; omega), h.virt_here, hy, Option.map_some]
  have hbefore : ∀ p, addr + done = p + 1 → updateOn (Set.Ico (addr + done) (addr + done + n))
      (VirtByte.withProt prot) s.view.virt p = s.view.virt p := fun p hp =>
    updateOn_of_notMem (by rw [Set.mem_Ico]; omega)
  constructor
  · rintro ⟨p, x, y', hp, hx, hy', hcont⟩
    rw [hat] at hy'
    cases hy'
    rw [hbefore p hp, h.virt_before hp, Option.map_eq_some_iff] at hx
    obtain ⟨x₀, hx₀, rfl⟩ := hx
    refine ⟨p, x₀, y, hp, hx₀, hy, hactive, hcont, fun hne hprot => ?_⟩
    -- then nothing changed at the seam, which was not merged before
    have hsame : y.withProt prot = y := by rw [VirtByte.withProt_of_active hactive, ← hprot]
    refine ((h.here (by omega) hlt y hy hactive).1 hkey).2 ?_
    refine ⟨p, _, y, hp, by rw [h.virt_before hp, hx₀, Option.map_some], h.virt_here.trans hy, ?_⟩
    rw [← hsame]
    exact hcont
  · rintro ⟨p, x₀, y', hp, hx₀, hy', -, hcont, -⟩
    rw [hy] at hy'
    cases hy'
    refine ⟨p, _, _, hp, ?_, hat, hcont⟩
    rw [hbefore p hp, h.virt_before hp, hx₀, Option.map_some]

/-- An area that the turn before has merged already is in no danger. -/
theorem Midway.not_mergesBack (h : Midway s₀ s prot addr size done) (hlt : done < size)
    (hkey : ¬(s.vmaMap.find? (addr + done)).isSome) (hkey₀ : (s₀.vmaMap.find? (addr + done)).isSome) :
    ¬MergesBack prot s₀.view.virt addr (addr + done) := by
  rintro ⟨p, x₀, y, hp, hx₀, hy, hactive, -, hprot⟩
  have hzero : 0 < done := by
    by_contra hzero
    obtain rfl : done = 0 := by omega
    exact hkey ((h.first rfl).2 hkey₀)
  have hseam : SeamAt VirtByte.Continues s.view.virt (addr + done) := by
    by_contra hseam
    exact hkey ((h.here hzero hlt y hy hactive).2 ⟨hkey₀, hseam⟩)
  obtain ⟨p', x, y', hp', hx, hy', -, -, hsame, htype, -⟩ := hseam
  obtain rfl : p' = p := by omega
  rw [h.virt_here, hy] at hy'
  cases hy'
  rw [h.virt_before hp, hx₀, Option.map_some, if_neg (by omega), Option.some.injEq] at hx
  subst hx
  rw [VirtByte.withProt_type] at htype
  refine hprot (by omega) ?_
  rw [← hsame, VirtByte.withProt_of_active (by rw [htype]; exact hactive), htype]

/-- A turn. The next one starts at the end of the area, where an entry is left unless it was
    merged. -/
theorem Midway.turn {s₁ : MemoryManager} (h : Midway s₀ s prot addr size done)
    (hn : done + n < size → (s.vmaMap.find? (addr + done + n)).isSome) (hpos : 0 < n)
    (hvirt : s₁.view.virt = updateOn (Set.Ico (addr + done) (addr + done + n))
      (VirtByte.withProt prot) s.view.virt)
    (hkeys : TurnKeys s.vmaMap s₁.vmaMap (addr + done) n s₁.view.virt) :
    Midway s₀ s₁ prot addr size (done + n) where
  virt := by
    rw [hvirt, h.virt, updateOn_updateOn (VirtByte.withProt_withProt prot), ← Nat.add_assoc,
      Set.Ico_union_Ico_eq_Ico (by omega) (by omega)]
  keys := by
    intro q hq hlt
    rw [hkeys.away q (by omega) (by omega)]
    exact h.keys q (by omega) hlt
  first := by omega
  here := by
    intro _ hlt y _ _
    rw [← Nat.add_assoc, hkeys.stop (hn hlt), ← h.keys (addr + done + n) (by omega) (by omega)]
    simp [hn hlt]

/-- A turn over an area that is not protected. -/
theorem Midway.pass (h : Midway s₀ s prot addr size done) (hpos : 0 < n)
    (hsame : updateOn (Set.Ico (addr + done) (addr + done + n)) (VirtByte.withProt prot)
      s.view.virt = s.view.virt)
    (hinert : ∀ x, s.view.virt (addr + done + n - 1) = some x → x.type = .free ∨ x.type = .poolReserved) :
    Midway s₀ s prot addr size (done + n) where
  virt := by
    rw [← hsame, h.virt, updateOn_updateOn (VirtByte.withProt_withProt prot), ← Nat.add_assoc,
      Set.Ico_union_Ico_eq_Ico (by omega) (by omega)]
  keys := fun q hq hlt => h.keys q (by omega) hlt
  first := by omega
  here := by
    intro _ hlt y hy hactive
    rw [← Nat.add_assoc, h.keys (addr + done + n) (by omega) (by omega), iff_self_and]
    rintro - ⟨p, x, y', hp, hx, hy', -, -, -, htype, -⟩
    have hy'' : s.view.virt (addr + done + n) = some y := by
      rw [h.virt, updateOn_of_notMem (by rw [Set.mem_Ico]; omega), Nat.add_assoc]
      exact hy
    rw [hy''] at hy'
    cases hy'
    exact hactive (htype ▸ hinert x (by rwa [show addr + done + n - 1 = p by omega]))

theorem protectLoop_turn (fuel : Nat) (h : s.Valid env) (hlt : done < size) (hbound : addr + size < 2 ^ 63)
    (hfloor : s.vmaMap.floor? (addr + done) = some (k, v)) {r : Outcome MemoryManager}
    (hbytes : s.protectBytes (addr + done) k v (size - done) prot = (r >>= fun s' => .ok (s', n)))
    (hn : done + n ≤ size) :
    protectLoop prot (fuel + 1) s addr size done =
      (r >>= fun s' => protectLoop prot fuel s' addr size (done + n)) := by
  have hnogap : ¬v.base > addr + done := by
    obtain ⟨hk, hle, -⟩ := StdMap.floor?_eq_some.1 hfloor
    rw [h.vma.key k v hk]
    exact Nat.not_lt.2 hle
  simp only [protectLoop, if_pos hlt, U64.add_of_lt (show addr + done < 2 ^ 64 by omega),
    U64.sub_of_le (show size < 2 ^ 64 by omega) (Nat.le_of_lt hlt), VMAMap.findVMA, hfloor, deref,
    Outcome.ok_bind, if_neg hnogap, hbytes]
  cases r with
  | error e => rfl
  | ok s' =>
    simp only [Outcome.ok_bind, if_neg (show ¬n ≥ 2 ^ 63 by omega),
      U64.add_of_lt (show done + n < 2 ^ 64 by omega)]

/-- What is left to look at in the turn that starts in the area at `k`, and in the later ones. -/
theorem Midway.forall_mergesBack_iff (hmid : Midway s₀ s prot addr size done) (h : s.Valid env)
    (hk : s.vmaMap.find? k = some v) (hle : k ≤ addr + done) (hlt : done < size) (hpos : 0 < n)
    (hn : addr + done + n ≤ k + v.size) :
    (∀ q ∈ Set.Ico (addr + done) (addr + size), (s₀.vmaMap.find? q).isSome →
        ¬MergesBack prot s₀.view.virt addr q) ↔
      ((s₀.vmaMap.find? (addr + done)).isSome →
        ¬MergesBack prot s₀.view.virt addr (addr + done)) ∧
      ∀ q ∈ Set.Ico (addr + (done + n)) (addr + size), (s₀.vmaMap.find? q).isSome →
        ¬MergesBack prot s₀.view.virt addr q := by
  constructor
  · intro hall
    exact ⟨hall _ (by rw [Set.mem_Ico]; omega),
      fun q hq => hall q (by rw [Set.mem_Ico] at hq ⊢; omega)⟩
  · rintro ⟨hhere, hrest⟩ q hq hkey
    rw [Set.mem_Ico] at hq
    by_cases hstart : q = addr + done
    · subst hstart
      exact hhere hkey
    refine hrest q ?_ hkey
    rw [Set.mem_Ico]
    by_contra hinside
    -- no entry of the range starts inside the area
    rw [← hmid.keys q (by omega) hq.2, h.find?_inside hk (by omega) (by omega)] at hkey
    cases hkey

/-- A turn over a protected area leaves the entry of the area unless it merges it back. -/
theorem Midway.isSome_entry_iff {map' : VMAMap} (hmid : Midway s₀ s prot addr size done)
    (h : s.Valid env) (hk : s.vmaMap.find? k = some v) (hle : k ≤ addr + done)
    (hend : addr + done < k + v.size) (hlt : done < size) (hpos : 0 < n)
    (hactive : ¬(v.type = .free ∨ v.type = .poolReserved))
    (hat : map'.at? = updateOn (Set.Ico (addr + done) (addr + done + n)) (VirtByte.withProt prot)
      s.view.virt)
    (hkeys : TurnKeys s.vmaMap map' (addr + done) n map'.at?) :
    (map'.find? k).isSome ↔ ((s₀.vmaMap.find? (addr + done)).isSome →
      ¬MergesBack prot s₀.view.virt addr (addr + done)) := by
  have hy : s₀.view.virt (addr + done) = some (Area.byte v (addr + done - k)) :=
    hmid.virt_here ▸ virt_of_area h hk hle hend
  by_cases hstart : k = addr + done
  · subst hstart
    -- the turn starts at the entry of the area, which its merge may erase
    have hkey : (s.vmaMap.find? (addr + done)).isSome := by simp [hk]
    have hkey₀ : (s₀.vmaMap.find? (addr + done)).isSome := by
      by_cases hzero : done = 0
      · subst hzero
        exact (hmid.first rfl).1 hkey
      · exact ((hmid.here (by omega) hlt _ hy hactive).1 hkey).1
    rw [hkeys.start, hat, hmid.seamAt_iff hlt hpos hy hactive hkey]
    simp [hkey₀]
  · -- the area starts before the turn: its entry stays
    have hnone : ¬(s.vmaMap.find? (addr + done)).isSome := by
      simp [h.find?_inside hk (by omega) hend]
    refine iff_of_true ?_ fun hkey₀ => hmid.not_mergesBack hlt hnone hkey₀
    rw [hkeys.away k hstart (by omega)]
    simp [hk]

/-- The loop returns when no turn is left that erases the entry it looks at. The induction is on
    the turns. -/
theorem protectLoop_returns_iff {fuel : Nat} (h : s.Valid env) (hle : done ≤ size)
    (huse : s.InUse (addr + done) (size - done)) (hbound : addr + size < 2 ^ 63)
    (hfuel : size - done < fuel) (hmid : Midway s₀ s prot addr size done) :
    (∃ s', protectLoop prot fuel s addr size done = .ok s') ↔
      ∀ k ∈ Set.Ico (addr + done) (addr + size), (s₀.vmaMap.find? k).isSome →
        ¬MergesBack prot s₀.view.virt addr k := by
  induction fuel generalizing s done with
  | zero => omega
  | succ fuel ih =>
    by_cases hlt : done < size
    swap
    · simp only [protectLoop, if_neg hlt]
      refine iff_of_true ⟨s, rfl⟩ fun k hk => ?_
      rw [Set.mem_Ico] at hk
      omega
    obtain ⟨x, hx⟩ := Option.isSome_iff_exists.1 (huse.2 (addr + done) (by rw [Set.mem_Ico]; omega))
    obtain ⟨k, v, hk, hkle, hklt, -⟩ := StdMap.exists_of_at? hx
    simp only [VirtualMemoryArea.area_size] at hklt
    have hfloor := StdMap.floor?_of_mem h.vma.separated hk hkle hklt
    obtain ⟨n, hn⟩ : ∃ n, n = min (k + v.size - (addr + done)) (size - done) := ⟨_, rfl⟩
    have huse' : ∀ {s₁ : MemoryManager}, Retouches env s s₁ →
        s₁.InUse (addr + (done + n)) (size - (done + n)) := fun hs =>
      ⟨by omega, fun p hp => (huse.of_retouches hs).2 p (by rw [Set.mem_Ico] at hp ⊢; omega)⟩
    rw [hmid.forall_mergesBack_iff h hk hkle hlt (show 0 < n by omega) (by omega)]
    by_cases hactive : v.type = .free ∨ v.type = .poolReserved
    · obtain ⟨heq, hsame⟩ := protectBytes_of_inert (size - done) prot h hk hkle hklt hactive
      rw [← hn] at heq hsame
      have hmid' : Midway s₀ s prot addr size (done + n) := by
        refine hmid.pass (by omega) hsame fun y hy => ?_
        rw [virt_of_area h hk (by omega) (by omega)] at hy
        cases hy
        exact hactive
      rw [protectLoop_turn fuel h hlt hbound hfloor (r := .ok s) heq (by omega), Outcome.ok_bind,
        ih h (by omega) (huse' (.refl h)) (by omega) hmid']
      -- an area that is not protected is not merged back
      refine (and_iff_right ?_).symm
      rintro - ⟨p, y, y', -, -, hy', hactive', -⟩
      rw [← hmid.virt_here, virt_of_area h hk hkle hklt] at hy'
      cases hy'
      exact hactive' hactive
    · obtain ⟨map', heq, hat, hkeys⟩ :=
        protectBytes_of_active prot h hk hkle hklt (show 0 < size - done by omega) hactive
      rw [← hn] at heq hat hkeys
      -- the next turn starts at the end of the area
      have hnext : done + n < size → (s.vmaMap.find? (addr + done + n)).isSome := by
        intro hmore
        have hstop : addr + done + n = k + v.size := by omega
        rw [hstop]
        exact h.isSome_end hk (hstop ▸ huse.2 (addr + done + n) (by rw [Set.mem_Ico]; omega))
      have hmid' : Midway s₀ { s with vmaMap := map' } prot addr size (done + n) :=
        hmid.turn hnext (by omega) hat hkeys
      rw [← hmid.isSome_entry_iff h hk hkle hklt hlt (by omega) hactive hat hkeys,
        protectLoop_turn fuel h hlt hbound hfloor
          (r := deref (map'.find? k) >>= fun _ => .ok { s with vmaMap := map' })
          (by rw [heq]; cases map'.find? k <;> rfl) (by omega)]
      cases hentry : map'.find? k with
      | none => simp [deref]
      | some w =>
        have hbytes : s.protectBytes (addr + done) k v (size - done) prot =
            .ok ({ s with vmaMap := map' }, n) := by
          rw [heq, hentry]
          rfl
        have hstep := protectBytes_eq_ok h (by omega) (by omega) hfloor hbytes
        simp only [deref, Outcome.ok_bind, Option.isSome_some, true_and]
        exact ih hstep.valid (by omega) (huse' hstep) (by omega) hmid'

/-- `Protect` of a covered range returns exactly when it keeps the entries it looks at. -/
theorem protect_returns_iff (h : s.Valid env) (hcovers : s.vmaMap.Covers addr size) :
    (∃ s', s.protect addr size prot = .ok s') ↔ s.KeepsEntries addr size prot := by
  by_cases hzero : size = 0
  · subst hzero
    refine iff_of_true ⟨s, by simp [protect]; rfl⟩ fun k hk => ?_
    rw [Set.mem_Ico] at hk
    omega
  have hin := h.vma.regions.covers_iff.1 hcovers
  obtain ⟨r, hr₁, hle, hlt⟩ :=
    (h.sound.usable _).1 (hin (addr + size - 1) (by rw [Set.mem_Ico]; omega))
  have := env.usable_nonempty r hr₁
  obtain ⟨k, v, hk, hkle, hklt⟩ := h.vma.regions.isSome_at?_iff.1 (hin addr (by rw [Set.mem_Ico]; omega))
  have hvalid := (isValidMapping_of_find? h.vma.regions hk hkle hklt (by omega)).2 hcovers
  have hloop : s.protect addr size prot = protectLoop prot (size + 1) s addr size 0 := by
    simp only [protect, if_neg hzero, hvalid, Outcome.ok_bind, assertMsg, if_true]
  exact hloop ▸ protectLoop_returns_iff h (Nat.zero_le _) ⟨by omega, hin⟩ (by omega) (by omega)
    ⟨by simp, fun _ _ _ => Iff.rfl, fun _ => Iff.rfl, by omega⟩

/-- What protecting `[addr, addr + size)` means. -/
structure ProtectsRange (s s' : MemoryManager) (addr size : Nat) (prot : MemoryProt) : Prop where
  range : ∀ p ∈ Set.Ico addr (addr + size), ∀ x, s.view.virt p = some x → x.type ≠ .free →
    x.type ≠ .poolReserved →
    ∃ y, s'.view.virt p = some y ∧ y.prot = (prot &&& MemoryProt.flagMask).forType x.type
  outside : ∀ p, p ∉ Set.Ico addr (addr + size) → s'.view.virt p = s.view.virt p
  attributes : ∀ p, (s'.view.virt p).map VirtByte.attributes =
    (s.view.virt p).map VirtByte.attributes
  dmem : s'.view.dmem = s.view.dmem
  fmem : s'.view.fmem = s.view.fmem

/-- No byte of the range is mapped or reserved. -/
def Inert (s : MemoryManager) (addr size : Nat) : Prop :=
  ∀ p ∈ Set.Ico addr (addr + size), ∀ x, s.view.virt p = some x →
    x.type = .free ∨ x.type = .poolReserved

/-- When it returns, `Protect` has restricted the flags it sets exactly when there was nothing to
    restrict, or no byte to protect. -/
theorem protectsRange_iff (h : s.Valid env) (hcovers : s.vmaMap.Covers addr size)
    (hr : s.protect addr size prot = .ok s') : s.ProtectsRange s' addr size prot ↔
      prot &&& ~~~MemoryProt.flagMask = 0 ∨ s.Inert addr size := by
  have hvirt := protect_virt h hcovers hr
  have hsame := (protect_eq_ok h hr).same
  constructor
  · intro hrange
    by_cases hinert : s.Inert addr size
    · exact .inr hinert
    · simp only [Inert, not_forall, not_or] at hinert
      obtain ⟨p, hp, x, hx, hfree, hres⟩ := hinert
      -- a byte that is protected shows the flags
      obtain ⟨y, hy, hprot⟩ := hrange.range p hp x hx hfree hres
      rw [hvirt, updateOn_of_mem hp, hx, Option.map_some,
        VirtByte.withProt_of_active (by simp [hfree, hres]), Option.some.injEq] at hy
      subst hy
      exact .inl (MemoryProt.forType_restricted_iff.1 hprot)
  · intro hok
    refine ⟨fun p hp x hx hfree hres => ?_, fun p hp => ?_, fun p => ?_, hsame.dmem, hsame.fmem⟩
    · refine ⟨x.withProt prot, by rw [hvirt, updateOn_of_mem hp, hx, Option.map_some], ?_⟩
      rw [VirtByte.withProt_of_active (by simp [hfree, hres])]
      refine MemoryProt.forType_restricted_iff.2 (hok.resolve_right fun hinert => ?_)
      exact (hinert p hp x hx).elim hfree hres
    · rw [hvirt, updateOn_of_notMem hp]
    · rw [hvirt]
      by_cases hp : p ∈ Set.Ico addr (addr + size)
      · rw [updateOn_of_mem hp, Option.map_map]
        congr 1
        funext x
        exact VirtByte.attributes_withProt prot x
      · rw [updateOn_of_notMem hp]

/-- `Protect` returns, and protects as it should, exactly when it keeps the entries it looks at
    and has no flags to restrict, or no byte to protect. -/
theorem protect_protectsRange_iff (h : Reachable env anyCall s) (addr size : UInt64)
    (prot : MemoryProt) (hcovers : s.vmaMap.Covers addr.toNat size.toNat) :
    (∃ s', s.protect addr.toNat size.toNat prot = .ok s' ∧
        s.ProtectsRange s' addr.toNat size.toNat prot) ↔
      s.KeepsEntries addr.toNat size.toNat prot ∧
        (prot &&& ~~~MemoryProt.flagMask = 0 ∨ s.Inert addr.toNat size.toNat) := by
  rw [← protect_returns_iff h.valid hcovers]
  constructor
  · rintro ⟨s', hr, hrange⟩
    exact ⟨⟨s', hr⟩, (protectsRange_iff h.valid hcovers hr).1 hrange⟩
  · rintro ⟨⟨s', hr⟩, hflags⟩
    exact ⟨s', hr, (protectsRange_iff h.valid hcovers hr).2 hflags⟩

/-- Three pages of flexible memory: the first two differ in their protection only. -/
def mapPages : List Op :=
  [.mapMemory 0x200000000 0x4000 .cpuRead .fixed .flexible "a" false 0xFFFFFFFFFFFFFFFF 0,
   .mapMemory 0x200004000 0x4000 .noAccess .fixed .flexible "a" false 0xFFFFFFFFFFFFFFFF 0,
   .mapMemory 0x200008000 0x4000 .cpuRead .fixed .flexible "b" false 0xFFFFFFFFFFFFFFFF 0]

/-- The range is the second half of the second page and the first half of the third. No entry of it is
    merged into the area before it. -/
theorem protect_protectsRange_mapPages : ∃ s s', run .retail (init .retail) mapPages = .ok s ∧
    s.protect 0x200006000 0x4000 .cpuReadWrite = .ok s' ∧
    s.ProtectsRange s' 0x200006000 0x4000 .cpuReadWrite ∧
    ((∃ s', s.protect 0x200006000 0x4000 .cpuReadWrite = .ok s' ∧
        s.ProtectsRange s' 0x200006000 0x4000 .cpuReadWrite) ↔
      s.KeepsEntries 0x200006000 0x4000 .cpuReadWrite ∧
        (MemoryProt.cpuReadWrite &&& ~~~MemoryProt.flagMask = 0 ∨ s.Inert 0x200006000 0x4000)) := by
  obtain ⟨s, hs, hreach, ht⟩ := exists_reachable .retail mapPages
    (fun s => (s.protect 0x200006000 0x4000 .cpuReadWrite).toOption.any fun _ => true)
    (by decide) (by with_unfolding_all decide)
  obtain ⟨s', hr, -⟩ := exists_of_any ht
  have hcovers : s.vmaMap.Covers 0x200006000 0x4000 :=
    covers_retail hreach.valid (by decide) (by decide)
  exact ⟨s, s', hs, hr, (protectsRange_iff hreach.valid hcovers hr).2 (.inl (by decide)),
    protect_protectsRange_iff hreach 0x200006000 0x4000 .cpuReadWrite hcovers⟩

/-- A flag the manager has no use for is kept. And where the second of two pages becomes like
    the first, its entry is looked at after it has been erased. -/
theorem not_protectsRange_unknownFlag :
    (∃ s s', Reachable .retail anyCall s ∧ s.vmaMap.Covers 0x200000000 0x4000 ∧
      s.protect 0x200000000 0x4000 0x41 = .ok s' ∧ ¬s.ProtectsRange s' 0x200000000 0x4000 0x41) ∧
    ∃ s, Reachable .retail anyCall s ∧ s.vmaMap.Covers 0x200000000 0x8000 ∧
      s.protect 0x200000000 0x8000 .cpuReadWrite = .error .undefined := by
  obtain ⟨s, hs, hreach, ht⟩ := exists_reachable .retail mapPages
    (fun s => ((s.protect 0x200000000 0x4000 0x41).toOption.any
      fun (s' : MemoryManager) => decide ((s.vmaMap.at? 0x200000000).map VirtByte.type = some .flexible ∧
        (s'.vmaMap.at? 0x200000000).map VirtByte.prot = some 0x41)) &&
      match s.protect 0x200000000 0x8000 .cpuReadWrite with
      | .error e => decide (e = .undefined)
      | .ok _ => false)
    (by decide) (by with_unfolding_all decide)
  obtain ⟨hflag, hmerge⟩ := Bool.and_eq_true_iff.1 ht
  constructor
  · obtain ⟨s', hr, hok⟩ := exists_of_any hflag
    obtain ⟨hbefore, hafter⟩ := of_decide_eq_true hok
    refine ⟨s, s', hreach, covers_retail hreach.valid (by decide) (by decide), hr, fun hrange => ?_⟩
    obtain ⟨x, hx, hxt⟩ := Option.map_eq_some_iff.1 hbefore
    obtain ⟨y, hy, hprot⟩ := hrange.range 0x200000000 (by simp) x hx (by simp [hxt]) (by simp [hxt])
    rw [show s'.vmaMap.at? 0x200000000 = some y from hy, Option.map_some, hprot, hxt] at hafter
    revert hafter
    decide
  · refine ⟨s, hreach, covers_retail hreach.valid (by decide) (by decide), ?_⟩
    split at hmerge
    · rename_i e he
      rw [he, of_decide_eq_true hmerge]
    · cases hmerge

end MemoryManager

end Core
