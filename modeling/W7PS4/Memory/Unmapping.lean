-- SUMMARY: Unmapping refines its byte-level reading: releasing backings, unmapping part of an area, and the loops over a range.
import W7PS4.Memory.RangeValidation
import W7PS4.Memory.Sound

/-!
# Unmapping

The states the manager can be in are `Valid`: the three maps are well formed, no
seam lies between free bytes, and the bytes are `Sound`. Unmapping keeps that and
unmaps the bytes of its range, as `Memory.unmap` says.
-/

namespace Core

open Outcome (bind_eq_ok pure_eq_ok)
open PhysicalMemoryArea (area_size)
open StdMap (at?_of_find? exists_of_at? floor?_of_mem)

namespace PhysMap

/-- The physical addresses behind the offsets of `S`. -/
def addrs (areas : PhysMap) (S : Set Nat) : Set Nat :=
  {q | ∃ o ∈ S, ∃ b, areas.at? o = some b ∧ b.addr = q}

variable {areas map map' : PhysMap} {n k start size : Nat} {a : PhysicalMemoryArea}
  {f : PhysicalMemoryArea → PhysicalMemoryArea} {g : PhysByte → PhysByte}

/-- Consecutive offsets in one piece have consecutive addresses behind them. -/
theorem Backs.addrs_Ico (h : areas.Backs n) (hk : areas.find? k = some a) (hle : k ≤ start)
    (hend : start + size ≤ k + a.size) :
    areas.addrs (Set.Ico start (start + size)) =
      Set.Ico (a.base + (start - k)) (a.base + (start - k) + size) := by
  have hat : ∀ o, start ≤ o → o < start + size →
      areas.at? o = some ⟨a.base + (o - k), a.memoryType, a.dmaType⟩ := by
    intro o ho ho'
    exact at?_of_find? h.separated hk (by omega)
      (by simp only [area_size]; omega)
  ext q
  simp only [Set.mem_Ico]
  constructor
  · rintro ⟨o, ho, b, hb, rfl⟩
    rw [Set.mem_Ico] at ho
    rw [hat o ho.1 ho.2] at hb
    cases hb
    simp only
    omega
  · rintro ⟨hle, hlt⟩
    refine ⟨start + (q - (a.base + (start - k))), Set.mem_Ico.2 ⟨by omega, by omega⟩, _,
      hat _ (by omega) (by omega), ?_⟩
    simp only
    omega

theorem addrs_union (S T : Set Nat) : areas.addrs S ∪ areas.addrs T = areas.addrs (S ∪ T) := by
  ext q
  constructor
  · rintro (⟨o, ho, h⟩ | ⟨o, ho, h⟩)
    · exact ⟨o, .inl ho, h⟩
    · exact ⟨o, .inr ho, h⟩
  · rintro ⟨o, ho | ho, h⟩
    · exact .inl ⟨o, ho, h⟩
    · exact .inr ⟨o, ho, h⟩

end PhysMap

namespace MemoryManager

/-! ## Giving back physical memory -/

section

variable {areas map map' : PhysMap} {n k start : Nat} {x : PhysMap.Extent}
  {f : PhysicalMemoryArea → PhysicalMemoryArea} {g : PhysByte → PhysByte}

variable {es : List (Nat × PhysicalMemoryArea)}

/-- The loop relabels the physical bytes behind the offsets it is given, all of which
    the map has. The induction is on the pieces that are left; `k` is where the next
    one starts. -/
theorem retypeBacking_eq_ok (hback : areas.Backs n) (hf : PhysMap.Relabels f g)
    (hg : ∀ b, g (g b) = g b) {size left : Nat} (hes : es = areas.startingAt k)
    (hk : k = n ∨ ∃ a, areas.find? k = some a ∧ start < k + a.size)
    (hn : max k start + size ≤ n) (hwf : map.WF x)
    (hr : retypeBacking f start map es size = .ok (map', left)) :
    map'.WF x ∧ left = 0 ∧ map'.at? =
        updateOn (areas.addrs (Set.Ico (max k start) (max k start + size))) g map.at? ∧
      ∀ q ∈ areas.addrs (Set.Ico (max k start) (max k start + size)), (map.at? q).isSome := by
  induction es generalizing k map size with
  | nil =>
    simp only [retypeBacking, pure_eq_ok, Prod.mk.injEq] at hr
    obtain ⟨rfl, rfl⟩ := hr
    have hkn : k = n := by
      refine hk.resolve_right ?_
      rintro ⟨a, ha, -⟩
      rw [hback.separated.startingAt_eq_cons ha (hback.pos k a ha)] at hes
      cases hes
    have hsize : size = 0 := by omega
    subst hsize
    refine ⟨hwf, rfl, ?_, ?_⟩ <;> simp [PhysMap.addrs]
  | cons e es ih =>
    have hkn : k ≠ n := by
      rintro rfl
      rw [hback.toTiles.startingAt_end] at hes
      cases hes
    obtain ⟨a, ha, hstart⟩ := hk.resolve_left hkn
    have hpos := hback.pos k a ha
    have hle := hback.le k a ha
    have hphys := hback.phys_lt k a ha
    rw [hback.separated.startingAt_eq_cons ha hpos, List.cons.injEq] at hes
    obtain ⟨rfl, rfl⟩ := hes
    simp only [area_size] at hpos hle
    simp only [retypeBacking] at hr
    split at hr
    · rename_i hsize
      cases hr
      subst hsize
      refine ⟨hwf, rfl, ?_, ?_⟩ <;> simp [PhysMap.addrs]
    · rename_i hsize
      have hadd : U64.add a.base (max k start - k) = a.base + (max k start - k) :=
        U64.add_of_lt (by omega)
      have hsub : U64.sub a.size (max k start - k) = a.size - (max k start - k) :=
        U64.sub_of_le (by omega) (by omega)
      simp only [bind_eq_ok, hadd, hsub] at hr
      obtain ⟨map₁, hret, hr⟩ := hr
      obtain ⟨hwf₁, ⟨c, hc⟩, hat₁⟩ := hwf.retype (by omega) hf (.inl (by omega)) hret
      obtain ⟨hwf', hleft, hat', hall⟩ := ih rfl
        ((hback.toTiles.end_eq ha).imp id fun ⟨b, hb⟩ => ⟨b, hb, by
          simp only [area_size]; omega⟩)
        (by simp only [area_size]; omega) hwf₁ hr
      -- the offsets of this piece and those of the pieces that follow
      have hoffsets : Set.Ico (max k start) (max k start + size) =
          Set.Ico (max k start) (max k start + min size (a.size - (max k start - k))) ∪
            Set.Ico (max (k + Area.size a) start) (max (k + Area.size a) start +
              (size - min size (a.size - (max k start - k)))) := by
        ext o
        simp only [area_size, Set.mem_union, Set.mem_Ico]
        omega
      have hfits : max k start + min size (a.size - (max k start - k)) ≤ k + a.size := by omega
      have hhere := hback.addrs_Ico ha (Nat.le_max_left k start) hfits
      rw [hoffsets, ← PhysMap.addrs_union, hhere]
      refine ⟨hwf', hleft, ?_, ?_⟩
      · rw [hat', hat₁, updateOn_updateOn hg]
      · rintro q (hq | hq)
        · rw [Set.mem_Ico] at hq
          simp [hc.at? hwf hq.1 hq.2]
        · have hsome := hall q hq
          rwa [hat₁, isSome_updateOn] at hsome

theorem piecesFrom_eq_ok (hback : areas.Backs n) (hstart : start < n) (hr : piecesFrom areas start = .ok es) :
    ∃ k a, areas.find? k = some a ∧ k ≤ start ∧ start < k + a.size ∧ es = areas.startingAt k := by
  simp only [piecesFrom, bind_eq_ok, deref_eq_ok, pure_eq_ok] at hr
  obtain ⟨⟨k, a⟩, hfloor, rfl⟩ := hr
  obtain ⟨x, hx⟩ := hback.covered start hstart
  obtain ⟨j, b, hj, hjle, hjlt, -⟩ := exists_of_at? hx
  rw [floor?_of_mem hback.separated hj hjle hjlt] at hfloor
  cases hfloor
  exact ⟨k, a, hj, hjle, hjlt, rfl⟩

/-- Giving back what is behind `size` offsets from `start` on. -/
theorem retypeBehind_eq_ok (hback : areas.Backs n) (hf : PhysMap.Relabels f g)
    (hg : ∀ b, g (g b) = g b) {size left : Nat}
    (hpos : 0 < size) (hn : start + size ≤ n) (hes : piecesFrom areas start = .ok es)
    (hwf : map.WF x) (hr : retypeBacking f start map es size = .ok (map', left)) :
    map'.WF x ∧
      map'.at? = updateOn (areas.addrs (Set.Ico start (start + size))) g map.at? ∧
      ∀ q ∈ areas.addrs (Set.Ico start (start + size)), (map.at? q).isSome := by
  obtain ⟨k, a, ha, hle, hlt, rfl⟩ := piecesFrom_eq_ok hback (by omega) hes
  obtain ⟨hwf', -, hat, hall⟩ := retypeBacking_eq_ok hback hf hg rfl (.inr ⟨a, ha, hlt⟩)
    (by omega) hwf hr
  rw [Nat.max_eq_right hle] at hat hall
  exact ⟨hwf', hat, hall⟩

end

/-! ## Valid states -/

/-- Direct memory as the constructor sets it up. -/
def directExtent (env : Environment) : PhysMap.Extent := ⟨0, constructorTotalSize env, true⟩

/-- Flexible memory as the constructor sets it up. -/
def flexibleExtent (env : Environment) : PhysMap.Extent :=
  ⟨constructorTotalSize env,
    constructorTotalSize env + (ORBIS_KERNEL_FLEXIBLE_MEMORY_SIZE + env.extraFmemInMBytes), false⟩

structure Valid (env : Environment) (s : MemoryManager) : Prop where
  dmem : s.dmemMap.WF (directExtent env)
  fmem : s.fmemMap.WF (flexibleExtent env)
  vma : s.vmaMap.WF
  coalesced : s.vmaMap.Coalesced
  sound : s.view.Sound env
  usage_le : s.flexibleUsage ≤ s.totalFlexibleSize
  budget_lt : s.poolBudget < 2 ^ 64

variable {env : Environment} {s s' : MemoryManager} {addr size n k : Nat} {v : VirtualMemoryArea}

end MemoryManager

theorem VMAMap.WF.backed {map : VMAMap} (h : map.WF) {p : Nat} {x : VirtByte}
    (hx : map.at? p = some x) : x.type.hasPhysicalBacking ↔ ∃ b, x.backing = some b := by
  obtain ⟨k, v, hk, hle, hlt, rfl⟩ := exists_of_at? hx
  have hv := h.entry k v hk
  simp only [VirtualMemoryArea.area_size] at hlt
  simp only [VirtualMemoryArea.area_byte]
  constructor
  · intro hback
    exact (hv.backed hback).covered _ (by omega)
  · rintro ⟨b, hb⟩
    by_contra hno
    rw [hv.unbacked (by simpa using hno), VirtualMemoryArea.at?_empty] at hb
    cases hb

namespace MemoryManager

variable {env : Environment} {s s' : MemoryManager} {addr size n k : Nat} {v : VirtualMemoryArea}

theorem Valid.backed (h : s.Valid env) : s.view.Backed := fun _ _ hx => h.vma.backed hx

theorem finite_inUse (s : MemoryManager) : s.view.flexibleInUse.Finite :=
  StdMap.finite_at? s.fmemMap fun b : PhysByte => b.dmaType ≠ .free

theorem flexibleExtent_hi_lt (env : Environment) : (flexibleExtent env).hi < 2 ^ 60 := by
  have := env.extra_lt
  simp only [flexibleExtent, constructorTotalSize, ORBIS_KERNEL_TOTAL_MEM_DEV_PRO,
    ORBIS_KERNEL_FLEXIBLE_MEMORY_SIZE, oneMB]
  omega

/-- A set of flexible memory is no larger than flexible memory. -/
theorem ncard_fmem_le (h : s.fmemMap.WF (flexibleExtent env)) {Q : Set Nat}
    (hQ : ∀ q ∈ Q, (s.view.fmem q).isSome) : Q.ncard ≤ (flexibleExtent env).hi := by
  have hsub : Q ⊆ ↑(Finset.Ico 0 (flexibleExtent env).hi) := by
    intro q hq
    obtain ⟨b, hb⟩ := Option.isSome_iff_exists.1 (hQ q hq)
    obtain ⟨k, a, hk, hle, hlt, -⟩ := exists_of_at? hb
    have := h.bounds k a hk
    simp only [area_size] at hlt
    simp only [Finset.coe_Ico, Set.mem_Ico]
    omega
  have hcard := Set.ncard_le_ncard hsub (Finset.finite_toSet _)
  rwa [Set.ncard_coe_finset, Nat.card_Ico] at hcard

theorem Valid.usage_le_hi (h : s.Valid env) : s.flexibleUsage ≤ (flexibleExtent env).hi := by
  have husage : s.flexibleUsage = s.view.flexibleInUse.ncard := h.sound.usage_eq
  rw [husage]
  refine ncard_fmem_le h.fmem ?_
  rintro q ⟨b, hb, -⟩
  simp [hb]

theorem Valid.usage_lt (h : s.Valid env) : s.flexibleUsage < 2 ^ 64 := by
  have := h.usage_le_hi
  have := flexibleExtent_hi_lt env
  omega

/-! ## The bytes of one area -/

/-- `[addr, addr + n)` reads like the bytes of `v` from offset `j` on. -/
def Reads (s : MemoryManager) (addr n : Nat) (v : VirtualMemoryArea) (j : Nat) : Prop :=
  ∀ o, o < n → s.view.virt (addr + o) = some (Area.byte v (j + o))

theorem virt_of_carved (h : s.vmaMap.WF) (hc : s.vmaMap.Carved addr n v) :
    s.Reads addr n v (addr - v.base) := by
  intro o ho
  have := hc.le
  have := hc.fits
  refine (at?_of_find? h.separated hc.mem (by omega)
    (by simp only [VirtualMemoryArea.area_size]; omega)).trans ?_
  rw [Nat.sub_add_comm hc.le]

theorem ofType_of_reads {j : Nat} (h : s.Reads addr n v j) (t : VMAType) :
    s.view.ofType t (Set.Ico addr (addr + n)) =
      if v.type = t then Set.Ico addr (addr + n) else ∅ := by
  have hread : ∀ p ∈ Set.Ico addr (addr + n), ∃ x, s.view.virt p = some x ∧ x.type = v.type := by
    intro p hp
    rw [Set.mem_Ico] at hp
    have := h (p - addr) (by omega)
    rw [Nat.add_sub_cancel' hp.1] at this
    exact ⟨_, this, rfl⟩
  split
  · rename_i ht
    ext p
    refine ⟨fun hp => hp.1, fun hp => ⟨hp, ?_⟩⟩
    obtain ⟨x, hx, hxt⟩ := hread p hp
    exact ⟨x, hx, hxt.trans ht⟩
  · rename_i ht
    rw [Set.eq_empty_iff_forall_notMem]
    rintro p ⟨hp, x, hx, hxt⟩
    obtain ⟨y, hy, hyt⟩ := hread p hp
    rw [hx] at hy
    cases hy
    exact ht (hyt.symm.trans hxt)

theorem behind_of_reads {j : Nat} (h : s.Reads addr n v j) (t : VMAType) :
    s.view.behind t (Set.Ico addr (addr + n)) =
      if v.type = t then v.physAreas.addrs (Set.Ico j (j + n)) else ∅ := by
  have hread : ∀ p q, p ∈ Set.Ico addr (addr + n) → (s.view.Maps t p q ↔
      v.type = t ∧ ∃ b, v.physAreas.at? (j + (p - addr)) = some b ∧ b.addr = q) := by
    intro p q hp
    rw [Set.mem_Ico] at hp
    have hx := h (p - addr) (by omega)
    rw [Nat.add_sub_cancel' hp.1] at hx
    simp [Memory.Maps, hx]
  ext q
  split
  · rename_i ht
    constructor
    · rintro ⟨p, hp, hpq⟩
      obtain ⟨-, b, hb, hq⟩ := (hread p q hp).1 hpq
      rw [Set.mem_Ico] at hp
      exact ⟨_, Set.mem_Ico.2 ⟨by omega, by omega⟩, b, hb, hq⟩
    · rintro ⟨o, ho, b, hb, hq⟩
      rw [Set.mem_Ico] at ho
      have hp : addr + (o - j) ∈ Set.Ico addr (addr + n) := Set.mem_Ico.2 ⟨by omega, by omega⟩
      refine ⟨_, hp, (hread _ q hp).2 ⟨ht, b, ?_, hq⟩⟩
      rw [Nat.add_sub_cancel_left, Nat.add_sub_cancel' ho.1]
      exact hb
  · rename_i ht
    simp only [Set.mem_empty_iff_false, iff_false]
    rintro ⟨p, hp, hpq⟩
    exact ht ((hread p q hp).1 hpq).1

/-- A byte of a piece of an area, as the map of virtual memory has it. -/
theorem virt_of_piece (h : s.vmaMap.WF) {o i : Nat} {e : PhysicalMemoryArea}
    (hk : s.vmaMap.find? k = some v) (ht : v.type.hasPhysicalBacking)
    (he : v.physAreas.find? o = some e) (hi : i < e.size) :
    s.view.virt (k + o + i) = some ⟨v.type, v.prot, v.name, v.disallowMerge,
      some ⟨e.base + i, e.memoryType, e.dmaType⟩⟩ := by
  have hback := (h.entry k v hk).backed ht
  have hle := hback.le o e he
  simp only [area_size] at hle
  have hbyte : v.physAreas.at? (o + i) = some ⟨e.base + i, e.memoryType, e.dmaType⟩ := by
    refine (at?_of_find? hback.separated he (Nat.le_add_right _ _)
      (by simp only [area_size]; omega)).trans ?_
    simp
  refine (at?_of_find? h.separated hk (by omega)
    (by simp only [VirtualMemoryArea.area_size]; omega)).trans ?_
  have hoff : k + o + i - k = o + i := by omega
  simp [hoff, hbyte]

/-- Every mapped byte is a byte of a piece. -/
theorem piece_of_maps {t : VMAType} {p q : Nat} (hpq : s.view.Maps t p q) :
    ∃ k v o e i, s.vmaMap.find? k = some v ∧ v.type = t ∧ v.physAreas.find? o = some e ∧
      i < e.size ∧ p = k + o + i ∧ q = e.base + i := by
  obtain ⟨x, b, hx, rfl, hb, rfl⟩ := hpq
  obtain ⟨k, v, hk, hle, hlt, rfl⟩ := exists_of_at? hx
  obtain ⟨o, e, he, hoe, hot, rfl⟩ := exists_of_at? hb
  simp only [area_size] at hot
  exact ⟨k, v, o, e, p - k - o, hk, rfl, he, by omega, by omega, rfl⟩

/-! ## Unmapping part of an area -/

theorem relabels_withDmaType (t : PhysicalMemoryType) :
    PhysMap.Relabels (fun area => { area with dmaType := t }) (PhysByte.withDmaType t) where
  base _ := rfl
  size _ := rfl
  byte _ _ := rfl

/-- The direct memory behind the bytes of `U` is there. -/
def Present (s : MemoryManager) (U : Set Nat) : Prop :=
  ∀ q ∈ s.view.behind .direct U, (s.view.dmem q).isSome

/-- The physical side of unmapping `n` bytes of an area. -/
theorem releaseBacking_eq_ok (h : s.Valid env) (hc : s.vmaMap.Carved addr n v)
    (hr : s.releaseBacking v (addr - v.base) n = .ok s') :
    s'.dmemMap.WF (directExtent env) ∧
      s'.fmemMap.WF (flexibleExtent env) ∧
      s'.vmaMap = s.vmaMap ∧ s'.totalDirectSize = s.totalDirectSize ∧
      s'.totalFlexibleSize = s.totalFlexibleSize ∧
      s'.view = { s.view.unmap (Set.Ico addr (addr + n)) with virt := s.view.virt } ∧
      s.Present (Set.Ico addr (addr + n)) := by
  have hfits := hc.fits
  have hle := hc.le
  have hpos := hc.pos
  have hv := h.vma.entry _ v hc.mem
  have hbehind := behind_of_reads (virt_of_carved h.vma hc)
  have hcount := ofType_of_reads (virt_of_carved h.vma hc)
  -- nothing to give back
  have hpresent : v.type ≠ .direct → s.Present (Set.Ico addr (addr + n)) := by
    intro hd q hq
    rw [hbehind, if_neg hd] at hq
    cases hq
  have hsame : v.type ≠ .direct → v.type ≠ .flexible →
      s.view = { s.view.unmap (Set.Ico addr (addr + n)) with virt := s.view.virt } ∧
        s.Present (Set.Ico addr (addr + n)) := by
    intro hd hf
    refine ⟨Memory.ext rfl ?_ ?_ ?_ rfl, hpresent hd⟩
    · simp only [Memory.unmap, hbehind, if_neg hd, updateOn_empty]
    · simp only [Memory.unmap, hbehind, if_neg hf, updateOn_empty]
    · simp only [Memory.unmap, hcount, if_neg hf, Set.ncard_empty, Nat.sub_zero]
  simp only [releaseBacking] at hr
  split at hr
  · rename_i hempty
    rw [pure_eq_ok] at hr
    subst hr
    have hunbacked : ¬v.type.hasPhysicalBacking := by
      intro hback
      obtain ⟨x, hx⟩ := (hv.backed hback).covered 0 hv.pos
      obtain ⟨k, a, hk, -⟩ := exists_of_at? hx
      rw [← StdMap.mem_entries_iff, List.isEmpty_iff.1 hempty] at hk
      cases hk
    refine ⟨h.dmem, h.fmem, rfl, rfl, rfl, hsame ?_ ?_⟩
    · intro hd
      exact hunbacked (hd ▸ rfl)
    · intro hf
      exact hunbacked (hf ▸ rfl)
  · simp only [bind_eq_ok] at hr
    obtain ⟨pieces, hpieces, hr⟩ := hr
    split at hr
    · rename_i hd
      simp only [bind_eq_ok, pure_eq_ok, assertMsg_eq_ok] at hr
      obtain ⟨⟨map', left⟩, hret, -, -, rfl⟩ := hr
      obtain ⟨hwf, hat, hall⟩ := retypeBehind_eq_ok (hv.backed (hd ▸ rfl)) (relabels_withDmaType _)
        (PhysByte.withDmaType_withDmaType _) hpos (by omega) hpieces h.dmem hret
      refine ⟨hwf, h.fmem, rfl, rfl, rfl, Memory.ext rfl ?_ ?_ ?_ rfl, fun q hq => ?_⟩
      · simp only [Memory.unmap, hbehind, if_pos hd]
        exact hat
      · simp only [Memory.unmap, hbehind, hd, reduceCtorEq, if_false, updateOn_empty]
        rfl
      · simp only [Memory.unmap, hcount, hd, reduceCtorEq, if_false, Set.ncard_empty, Nat.sub_zero]
        rfl
      · rw [hbehind, if_pos hd] at hq
        exact hall q hq
    · rename_i hf
      simp only [bind_eq_ok, pure_eq_ok, assertMsg_eq_ok] at hr
      obtain ⟨⟨map', left⟩, hret, -, -, rfl⟩ := hr
      obtain ⟨hwf, hat, -⟩ := retypeBehind_eq_ok (hv.backed (hf ▸ rfl)) (relabels_withDmaType _)
        (PhysByte.withDmaType_withDmaType _) hpos (by omega) hpieces h.fmem hret
      have hused : n ≤ s.flexibleUsage := by
        have := h.sound.ncard_ofType_le h.backed s.finite_inUse (U := Set.Ico addr (addr + n))
        rwa [hcount, if_pos hf, StdMap.ncard_Ico_add] at this
      refine ⟨h.dmem, hwf, rfl, rfl, rfl, Memory.ext rfl ?_ ?_ ?_ rfl,
        hpresent (by rw [hf]; decide)⟩
      · simp only [Memory.unmap, hbehind, hf, reduceCtorEq, if_false, updateOn_empty]
        rfl
      · simp only [Memory.unmap, hbehind, if_pos hf]
        exact hat
      · simp only [Memory.unmap, hcount, if_pos hf, StdMap.ncard_Ico_add]
        exact U64.sub_of_le h.usage_lt hused
    · rename_i hd hf
      rw [pure_eq_ok] at hr
      subst hr
      exact ⟨h.dmem, h.fmem, rfl, rfl, rfl, hsame hd hf⟩

/-- Going from `s` to `s'` unmaps the bytes of `U` and changes nothing else. -/
structure Unmaps (env : Environment) (U : Set Nat) (s s' : MemoryManager) : Prop where
  valid : s'.Valid env
  view : s'.view = s.view.unmap U
  finite : U.Finite
  totalDirect : s'.totalDirectSize = s.totalDirectSize
  totalFlexible : s'.totalFlexibleSize = s.totalFlexibleSize

theorem Unmaps.refl (h : s.Valid env) : Unmaps env ∅ s s :=
  ⟨h, Memory.unmap_empty.symm, Set.finite_empty, rfl, rfl⟩

theorem Unmaps.trans {U W : Set Nat} {s₁ s₂ s₃ : MemoryManager} (h₁ : Unmaps env U s₁ s₂)
    (h₂ : Unmaps env W s₂ s₃) : Unmaps env (U ∪ W) s₁ s₃ where
  valid := h₂.valid
  view := by rw [h₂.view, h₁.view, Memory.unmap_unmap h₁.finite h₂.finite]
  finite := h₁.finite.union h₂.finite
  totalDirect := h₂.totalDirect.trans h₁.totalDirect
  totalFlexible := h₂.totalFlexible.trans h₁.totalFlexible

theorem Unmaps.congr {U W : Set Nat} (h : Unmaps env U s s') (hW : W.Finite)
    (heq : ∀ p x, s.view.virt p = some x → (p ∈ U ↔ p ∈ W) ∨ x.type = .free ∨ x.type = .pooled) :
    Unmaps env W s s' :=
  { h with view := h.view.trans (Memory.unmap_congr heq), finite := hW }

theorem Unmaps.isSome_virt {U : Set Nat} (h : Unmaps env U s s') (p : Nat) :
    (s'.view.virt p).isSome = (s.view.virt p).isSome := by
  rw [h.view]
  exact isSome_updateOn

theorem Unmaps.usage_le {U : Set Nat} (h : Unmaps env U s s') :
    s'.flexibleUsage ≤ s.flexibleUsage :=
  (congrArg Memory.usage h.view).trans_le (Nat.sub_le _ _)

theorem wf_markFree {w : VirtualMemoryArea} (hw : w.WF) : (markFree w).WF where
  pos := hw.pos
  backed := by simp [markFree, VMAType.hasPhysicalBacking]
  unbacked := by simp [markFree]
  free := by simp [markFree]

theorem unmapBytesFromEntry_eq_ok (h : s.Valid env) (haddr : addr < 2 ^ 64)
    (hsize : size < 2 ^ 64) (hfloor : s.vmaMap.floor? addr = some (k, v))
    (hr : s.unmapBytesFromEntry addr v size = .ok (s', n)) :
    (s' = s ∧ (v.type = .free ∨ v.type = .pooled) ∧
        n = min (U64.sub v.size (addr - v.base)) size) ∨
      (s.vmaMap.Carved addr n v ∧ n ≤ size ∧ Unmaps env (Set.Ico addr (addr + n)) s s' ∧
        s.Present (Set.Ico addr (addr + n))) := by
  obtain ⟨hk, hkle, -⟩ := StdMap.floor?_eq_some.1 hfloor
  simp only at hk hkle
  have hbase := h.vma.key k v hk
  have hstart : U64.sub addr v.base = addr - v.base := U64.sub_of_le haddr (by omega)
  simp only [unmapBytesFromEntry, hstart] at hr
  split at hr
  · rename_i hinert
    cases hr
    exact .inl ⟨rfl, hinert, rfl⟩
  · rename_i hactive
    simp only [bind_eq_ok, pure_eq_ok, Prod.mk.injEq] at hr
    obtain ⟨s₁, hrel, ⟨map, newIt⟩, hcarve, rfl, hn⟩ := hr
    rw [hn] at hrel hcarve
    right
    have hnsize : n ≤ size := by omega
    have hvma : s₁.vmaMap = s.vmaMap := by
      simp only [releaseBacking] at hrel
      split at hrel
      · rw [pure_eq_ok] at hrel
        rw [hrel]
      simp only [bind_eq_ok] at hrel
      obtain ⟨pieces, -, hrel⟩ := hrel
      split at hrel
      · simp only [bind_eq_ok, pure_eq_ok] at hrel
        obtain ⟨_, -, _, -, rfl⟩ := hrel
        rfl
      · simp only [bind_eq_ok, pure_eq_ok] at hrel
        obtain ⟨_, -, _, -, rfl⟩ := hrel
        rfl
      · rw [pure_eq_ok] at hrel
        rw [hrel]
    rw [hvma] at hcarve
    obtain ⟨hhandle, v₁, w, hc, -, hw, hwbase, hwsize, hwtype, hread, hrep⟩ :=
      h.vma.carve_modify haddr (by omega) hcarve
    have hv₁ : v₁ = v := by
      have := floor?_of_mem h.vma.separated hc.mem hc.le (p := addr)
        (by have := hc.pos; have := hc.fits; simp only [VirtualMemoryArea.area_size]; omega)
      rw [hfloor] at this
      cases this
      rfl
    subst hv₁
    simp only at hhandle
    subst hhandle
    obtain ⟨hdmem, hfmem, -, htd, htf, hview, hpresent⟩ := releaseBacking_eq_ok h hc hrel
    have hrep := hrep markFree (wf_markFree hw) hwbase hwsize
    obtain ⟨hwf, hat⟩ := hrep.mergeAdjacent
    have hview' : MemoryManager.view
        { s₁ with vmaMap := (VMAMap.mergeAdjacent (map.modify newIt markFree) newIt).1 } =
        s.view.unmap (Set.Ico newIt (newIt + n)) := by
      rw [view_vmaMap, hview]
      refine Memory.ext ?_ rfl rfl rfl rfl
      funext p
      refine (hat p).trans ?_
      split
      · rename_i hp
        rw [Memory.virt_unmap_of_mem (Set.mem_Ico.2 hp)]
        have hx := hread (p - newIt) (by omega)
        rw [Nat.add_sub_cancel' hp.1] at hx
        change _ = (s.vmaMap.at? p).map _
        rw [hx, Option.map_some, VirtByte.unmapped_of_active]
        · rfl
        · simpa [hwtype] using hactive
      · rename_i hp
        rw [Memory.virt_unmap_of_notMem (mt Set.mem_Ico.1 hp)]
        rfl
    refine ⟨hc, hnsize, ⟨⟨hdmem, hfmem, hwf, hrep.coalesced_mergeAdjacent h.coalesced, ?_, ?_, ?_⟩,
      hview', Set.finite_Ico _ _, htd, htf⟩, hpresent⟩
    · rw [hview']
      exact h.sound.unmap h.backed s.finite_inUse
    · have husage : s₁.flexibleUsage ≤ s.flexibleUsage :=
        (congrArg Memory.usage hview).trans_le (Nat.sub_le _ _)
      exact (husage.trans h.usage_le).trans_eq htf.symm
    · exact (congrArg Memory.budget hview).trans_lt h.budget_lt

/-- Unmapping from an address that is in use makes progress inside one area. -/
theorem unmapBytesFromEntry_of_usable (h : s.Valid env) (haddr : addr < 2 ^ 64)
    (hsize : size < 2 ^ 64) (hpos : 0 < size) (huse : (s.view.virt addr).isSome)
    (hfloor : s.vmaMap.floor? addr = some (k, v))
    (hr : s.unmapBytesFromEntry addr v size = .ok (s', n)) :
    0 < n ∧ n ≤ size ∧ addr + n < 2 ^ 64 ∧ Unmaps env (Set.Ico addr (addr + n)) s s' ∧
      s.Present (Set.Ico addr (addr + n)) := by
  obtain ⟨x, hx⟩ := Option.isSome_iff_exists.1 huse
  obtain ⟨j, w, hj, hjle, hjlt, -⟩ := exists_of_at? hx
  rw [floor?_of_mem h.vma.separated hj hjle hjlt] at hfloor
  cases hfloor
  have hbase := h.vma.key k v hj
  have hend := h.vma.end_lt k v hj
  simp only [VirtualMemoryArea.area_size] at hjlt
  rcases unmapBytesFromEntry_eq_ok h haddr hsize
    (floor?_of_mem h.vma.separated hj hjle hjlt) hr with ⟨rfl, hinert, hn⟩ | ⟨hc, hle, hu⟩
  · rw [U64.sub_of_le (by omega) (by omega)] at hn
    have hc : s'.vmaMap.Carved addr n v := ⟨hbase ▸ hj, by omega, by omega, by omega⟩
    refine ⟨by omega, by omega, by omega, (Unmaps.refl h).congr (Set.finite_Ico _ _) ?_, ?_⟩
    · intro p y hy
      by_cases hp : p ∈ Set.Ico addr (addr + n)
      · rw [Set.mem_Ico] at hp
        have hread := virt_of_carved h.vma hc (p - addr) (by omega)
        rw [Nat.add_sub_cancel' hp.1, hy] at hread
        cases hread
        exact .inr hinert
      · exact .inl (by simp [hp])
    · intro q hq
      rw [behind_of_reads (virt_of_carved h.vma hc), if_neg (by rcases hinert with hf | hf <;>
        simp [hf])] at hq
      cases hq
  · have := hc.fits
    exact ⟨hc.pos, hle, by omega, hu⟩

/-! ## Unmapping a range -/

/-- A range with every address in use. -/
def InUse (s : MemoryManager) (addr size : Nat) : Prop :=
  addr + size ≤ 2 ^ 64 ∧ ∀ p ∈ Set.Ico addr (addr + size), (s.view.virt p).isSome

/-- Unmapping a range: what was unmapped first, and what is left to unmap. -/
theorem Unmaps.step {s₁ : MemoryManager} {m : Nat} (hu : Unmaps env (Set.Ico addr (addr + n)) s s₁)
    (hrest : Unmaps env (Set.Ico (addr + n) (addr + m)) s₁ s') (hnm : n ≤ m) :
    Unmaps env (Set.Ico addr (addr + m)) s s' := by
  have := hu.trans hrest
  rwa [Set.Ico_union_Ico_eq_Ico (by omega) (by omega)] at this

theorem InUse.step {U : Set Nat} {s₁ : MemoryManager} (h : s.InUse addr size)
    (hu : Unmaps env U s s₁) (hn : n ≤ size) : s₁.InUse (addr + n) (size - n) := by
  refine ⟨by have := h.1; omega, fun p hp => ?_⟩
  rw [hu.isSome_virt]
  refine h.2 p ?_
  simp only [Set.mem_Ico] at hp ⊢
  omega

/-- What is behind the rest of a range after its first part has been unmapped. -/
theorem Present.step {s₁ : MemoryManager} {m : Nat} (h : s.Present (Set.Ico addr (addr + n)))
    (hu : Unmaps env (Set.Ico addr (addr + n)) s s₁)
    (hrest : s₁.Present (Set.Ico (addr + n) (addr + m))) :
    s.Present (Set.Ico addr (addr + m)) := by
  rintro q ⟨p, hp, hpq⟩
  by_cases hfirst : p ∈ Set.Ico addr (addr + n)
  · exact h q ⟨p, hfirst, hpq⟩
  have hsome := hrest q ⟨p, by simp only [Set.mem_Ico] at hp hfirst ⊢; omega, by
    rw [hu.view]
    exact (Memory.maps_unmap (by decide) (by decide)).2 ⟨hfirst, hpq⟩⟩
  rw [hu.view] at hsome
  exact (isSome_updateOn (m := s.view.dmem)).symm.trans hsome

theorem unmapMemoryImplLoop_eq_ok {fuel unmapped : Nat} (h : s.Valid env)
    (huse : s.InUse (addr + unmapped) (size - unmapped)) (hle : unmapped ≤ size)
    (hsize : size < 2 ^ 64) (haddr : addr + size ≤ 2 ^ 64)
    (hr : unmapMemoryImplLoop fuel s addr size unmapped = .ok s') :
    Unmaps env (Set.Ico (addr + unmapped) (addr + size)) s s' ∧
      s.Present (Set.Ico (addr + unmapped) (addr + size)) := by
  induction fuel generalizing s unmapped with
  | zero => cases hr
  | succ fuel ih =>
    simp only [unmapMemoryImplLoop, VMAMap.findVMA, bind_eq_ok, deref_eq_ok,
      assertMsg_eq_ok, decide_eq_true_eq] at hr
    obtain ⟨⟨k, v⟩, hfloor, ⟨s₁, n⟩, hunit, -, hn, hr⟩ := hr
    simp only at hunit hn hr
    -- the loop is a do-while: with nothing to unmap the assertion stops it
    have hlt : unmapped < size := by
      by_contra hge
      have hzero : size - unmapped = 0 := by omega
      rcases unmapBytesFromEntry_eq_ok h (U64.add_lt _ _) (by omega) hfloor hunit with
        ⟨-, -, hmin⟩ | ⟨-, hmin, -⟩ <;> omega
    have hcur : U64.add addr unmapped = addr + unmapped := U64.add_of_lt (by omega)
    rw [hcur] at hfloor hunit
    obtain ⟨-, hnle, -, hu, hp⟩ := unmapBytesFromEntry_of_usable h (by omega) (by omega) (by omega)
      (huse.2 _ (by simp only [Set.mem_Ico]; omega)) hfloor hunit
    split at hr
    · have huse' : s₁.InUse (addr + (unmapped + n)) (size - (unmapped + n)) := by
        have := huse.step hu hnle
        rwa [Nat.add_assoc, Nat.sub_sub] at this
      obtain ⟨hrest, hprest⟩ := ih hu.valid huse' (by omega) hr
      have hend : addr + size = addr + unmapped + (size - unmapped) := by omega
      rw [hend] at hrest hprest ⊢
      rw [← Nat.add_assoc] at hrest hprest
      exact ⟨hu.step hrest hnle, hp.step hu hprest⟩
    · rw [pure_eq_ok] at hr
      subst hr
      have hend : addr + unmapped + n = addr + size := by omega
      rw [hend] at hu hp
      exact ⟨hu, hp⟩

theorem unmapMemoryImpl_eq_ok (h : s.Valid env) (huse : s.InUse addr size) (hsize : size < 2 ^ 64)
    (hr : s.unmapMemoryImpl addr size = .ok s') :
    Unmaps env (Set.Ico addr (addr + size)) s s' ∧ s.Present (Set.Ico addr (addr + size)) := by
  have hstart : s.InUse (addr + 0) (size - 0) := huse
  exact unmapMemoryImplLoop_eq_ok h hstart (Nat.zero_le _) hsize huse.1 hr

/-- Starting at an address between the regions, nothing is unmapped: the size that
    is left of the area before wraps round, and the loop is over or stuck. -/
theorem unmapMemoryImpl_of_not_usable (h : s.Valid env) (haddr : addr < 2 ^ 64)
    (hsize : size < 2 ^ 64) (huse : (s.view.virt addr) = none)
    (hr : s.unmapMemoryImpl addr size = .ok s') : s' = s := by
  have hout : ∀ k v, s.vmaMap.find? k = some v → k ≤ addr → k + v.size ≤ addr :=
    (StdMap.at?_eq_none h.vma.separated).1 huse
  have hinert : ∀ {a k v size s₁ n}, a ≤ addr → (k + v.size ≤ a) →
      s.vmaMap.floor? a = some (k, v) → size < 2 ^ 64 →
      s.unmapBytesFromEntry a v size = .ok (s₁, n) →
      s₁ = s ∧ n = min (U64.sub v.size (a - k)) size := by
    intro a k v size s₁ n ha hka hfloor hsize hunit
    have hbase := h.vma.key k v (StdMap.floor?_eq_some.1 hfloor).1
    rcases unmapBytesFromEntry_eq_ok h (by omega) hsize hfloor hunit with ⟨rfl, -, hn⟩ | ⟨hc, -⟩
    · exact ⟨rfl, hbase ▸ hn⟩
    · have := hc.fits
      have := hc.pos
      omega
  simp only [unmapMemoryImpl, unmapMemoryImplLoop, VMAMap.findVMA, bind_eq_ok,
    deref_eq_ok, assertMsg_eq_ok, decide_eq_true_eq, Nat.zero_add, Nat.sub_zero,
    U64.add_of_lt (show addr + 0 < 2 ^ 64 from haddr), Nat.add_zero] at hr
  obtain ⟨⟨k, v⟩, hfloor, ⟨s₁, n⟩, hunit, -, hn, hr⟩ := hr
  obtain ⟨hk, hkle, hkmax⟩ := StdMap.floor?_eq_some.1 hfloor
  simp only at hk hkle hkmax hunit hn hr
  have hend := hout k v hk hkle
  have hlt := h.vma.end_lt k v hk
  obtain ⟨rfl, hn'⟩ := hinert (Nat.le_refl _) hend hfloor hsize hunit
  split at hr
  · -- the second turn is back at the end of the same area and makes no progress
    rename_i hless
    exfalso
    have hback : U64.add addr n = k + v.size := by
      simp only [U64.sub, U64.add] at hn' ⊢
      omega
    cases size with
    | zero => omega
    | succ fuel =>
      simp only [unmapMemoryImplLoop, VMAMap.findVMA, bind_eq_ok, deref_eq_ok,
        assertMsg_eq_ok, decide_eq_true_eq, hback] at hr
      obtain ⟨⟨j, w⟩, hfloor', ⟨s₂, n₂⟩, hunit', -, hn₂, -⟩ := hr
      have hsame : s₁.vmaMap.floor? (k + v.size) = some (k, v) := by
        refine StdMap.floor?_eq_some.2 ⟨hk, by simp only; omega, ?_⟩
        intro i b hi hile
        exact hkmax i b hi (by omega)
      rw [hsame] at hfloor'
      cases hfloor'
      obtain ⟨-, hn₂'⟩ := hinert hend (Nat.le_refl _) hsame (by omega) hunit'
      simp only [Nat.add_sub_cancel_left, U64.sub] at hn₂' hn₂
      omega
  · rw [pure_eq_ok] at hr
    exact hr.symm

/-! ## Checking a range -/

/-- A valid range that starts at a usable address is in use as a whole. -/
theorem isValidMapping_eq_true (h : s.vmaMap.WF) (huse : (s.view.virt addr).isSome)
    (haddr : addr < 2 ^ 64)
    (hr : isValidMapping s.vmaMap addr size = .ok true) : s.InUse addr size := by
  rcases Nat.eq_zero_or_pos size with rfl | hpos
  · exact ⟨by omega, by simp⟩
  · obtain ⟨k, v, hk, hle, hlt⟩ := h.regions.isSome_at?_iff.1 huse
    have hcovers := (isValidMapping_of_find? h.regions hk hle hlt hpos).1 hr
    have := h.regions.end_lt_of_covers hcovers hpos
    exact ⟨by omega, h.regions.covers_iff.1 hcovers⟩

/-- `UnmapMemory`: an error and no change, or the aligned range unmapped. When the
    range starts between the regions nothing is unmapped. -/
theorem unmapMemory_eq_ok (h : s.Valid env) (haddr : addr < 2 ^ 64) (hsize : size < 2 ^ 64)
    {r : Except OrbisError Unit} (hr : s.unmapMemory addr size = .ok (s', r)) :
    (s' = s ∧ (r ≠ .ok () ∨ size = 0 ∨ s.view.virt (alignDown addr 0x4000) = none)) ∨
      (r = .ok () ∧ (s.view.virt (alignDown addr 0x4000)).isSome ∧
        s.InUse (alignDown addr 0x4000) (alignUp size 0x4000) ∧
        Unmaps env (Set.Ico (alignDown addr 0x4000)
          (alignDown addr 0x4000 + alignUp size 0x4000)) s s' ∧
        s.Present (Set.Ico (alignDown addr 0x4000)
          (alignDown addr 0x4000 + alignUp size 0x4000))) := by
  simp only [unmapMemory] at hr
  split at hr
  · rename_i hzero
    cases hr
    exact .inl ⟨rfl, .inr (.inl hzero)⟩
  simp only [bind_eq_ok] at hr
  obtain ⟨valid, hvalid, hr⟩ := hr
  split at hr
  · cases hr
    exact .inl ⟨rfl, .inl (by simp)⟩
  rename_i htrue
  simp only [Bool.not_eq_true', Bool.not_eq_false] at htrue
  subst htrue
  simp only [bind_eq_ok, pure_eq_ok, Prod.mk.injEq] at hr
  obtain ⟨s₁, himpl, rfl, rfl⟩ := hr
  have hdown : alignDown addr 0x4000 < 2 ^ 64 := alignDown_lt haddr
  have hup : alignUp size 0x4000 < 2 ^ 64 := alignUp_lt hsize
  cases huse : s.view.virt (alignDown addr 0x4000) with
  | none =>
    exact .inl ⟨unmapMemoryImpl_of_not_usable h hdown hup huse himpl, .inr (.inr rfl)⟩
  | some x =>
    have hin := isValidMapping_eq_true h.vma (by simp [huse]) hdown hvalid
    exact .inr ⟨rfl, rfl, hin, unmapMemoryImpl_eq_ok h hin hup himpl⟩

end MemoryManager

end Core
