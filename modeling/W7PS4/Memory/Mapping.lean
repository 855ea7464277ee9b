-- SUMMARY: Mapping refines its byte-level reading: what a fixed mapping overwrites, the new area, and the memory behind it.
import W7PS4.Memory.Backing

/-!
# Mapping

`CreateArea` unmaps what a fixed mapping overwrites and carves the new area out of
a free one. `MapMemory` then puts physical memory behind it.
-/

namespace Core

open Outcome (bind_eq_ok pure_eq_ok)

namespace MemoryManager

variable {env : Environment} {s s' : MemoryManager} {addr size n k : Nat} {v : VirtualMemoryArea}

/-! ## Overwriting -/

/-- Unmapping part of an area unmaps some bytes, and exactly those that it counts
    when it starts at an address that is in use. -/
theorem unmaps_of_unmapBytesFromEntry (h : s.Valid env) (haddr : addr < 2 ^ 64)
    (hsize : size < 2 ^ 64) (hpos : 0 < size) (hfloor : s.vmaMap.floor? addr = some (k, v))
    (hr : s.unmapBytesFromEntry addr v size = .ok (s', n)) :
    n ≤ size ∧ ∃ U, Unmaps env U s s' ∧ ((s.view.virt addr).isSome →
      addr + n < 2 ^ 64 ∧ U = Set.Ico addr (addr + n)) := by
  by_cases huse : (s.view.virt addr).isSome
  · obtain ⟨-, hle, hlt, hu, -⟩ := unmapBytesFromEntry_of_usable h haddr hsize hpos huse hfloor hr
    exact ⟨hle, _, hu, fun _ => ⟨hlt, rfl⟩⟩
  rcases unmapBytesFromEntry_eq_ok h haddr hsize hfloor hr with
    ⟨rfl, -, hn⟩ | ⟨-, hle, hu, -⟩
  · exact ⟨by omega, ∅, Unmaps.refl h, fun hsome => absurd hsome huse⟩
  · exact ⟨hle, _, hu, fun hsome => absurd hsome huse⟩

/-- The loop unmaps the range when every address of it is in use. -/
theorem overwriteLoop_eq_ok {fuel : Nat} (h : s.Valid env) (haddr : addr < 2 ^ 64)
    (hsize : size < 2 ^ 64) (hfloor : s.vmaMap.floor? addr = some (k, v))
    (hr : s.overwriteLoop fuel v addr size = .ok s') :
    ∃ U, Unmaps env U s s' ∧ (s.InUse addr size → U = Set.Ico addr (addr + size)) := by
  induction fuel generalizing s addr size k v with
  | zero => cases hr
  | succ fuel ih =>
    simp only [overwriteLoop] at hr
    split at hr
    · rename_i hzero
      rw [pure_eq_ok] at hr
      subst hr
      subst hzero
      exact ⟨∅, Unmaps.refl h, fun _ => by simp⟩
    · rename_i hne
      simp only [VMAMap.findVMA, bind_eq_ok, deref_eq_ok] at hr
      obtain ⟨⟨s₁, n⟩, hunit, ⟨k₁, v₁⟩, hfloor₁, hr⟩ := hr
      simp only at hfloor₁ hr
      obtain ⟨hle, U₁, hu₁, hexact₁⟩ :=
        unmaps_of_unmapBytesFromEntry h haddr hsize (by omega) hfloor hunit
      obtain ⟨U₂, hu₂, hexact₂⟩ := ih hu₁.valid (U64.add_lt _ _) (by omega) hfloor₁ hr
      refine ⟨U₁ ∪ U₂, hu₁.trans hu₂, fun huse => ?_⟩
      obtain ⟨hlt, rfl⟩ := hexact₁ (huse.2 addr (Set.mem_Ico.2 ⟨Nat.le_refl _, by omega⟩))
      have hnext : U64.add addr n = addr + n := U64.add_of_lt hlt
      rw [hnext] at hexact₂
      rw [hexact₂ (huse.step hu₁ hle), Set.Ico_union_Ico_eq_Ico (by omega) (by omega)]
      congr 1
      omega

/-! ## New areas -/

/-- What `CreateArea` has done before it sets the attributes of the new area. `s₁`
    is `s` with the bytes of `W` unmapped. In `map` the free area `v` has exactly
    the requested range. -/
structure Creates (env : Environment) (addr size : Nat) (W : Set Nat) (s s₁ : MemoryManager)
    (map : VMAMap) (v : VirtualMemoryArea) : Prop where
  unmaps : Unmaps env W s s₁
  free : ∀ p ∈ Set.Ico addr (addr + size), ∃ x, s₁.view.virt p = some x ∧ x.type = .free
  base : v.base = addr
  size_eq : v.size = size
  wf : v.WF
  replaced : ∀ f : VirtualMemoryArea → VirtualMemoryArea, (f v).WF → (f v).base = addr →
    (f v).size = size → s₁.vmaMap.Replaced (map.modify addr f) addr size (f v)

/-- The attributes `CreateArea` gives an area. -/
def newAttributes (prot : MemoryProt) (flags : MemoryMapFlags) (type : VMAType) (name : String)
    (vma : VirtualMemoryArea) : VirtualMemoryArea :=
  { vma with disallowMerge := flags.has .noCoalesce, prot := prot.appendRead, name, type,
             physAreas := ∅ }

/-- What `CreateArea` overwrites. -/
def overwritten (flags : MemoryMapFlags) (addr size : Nat) : Set Nat :=
  if flags.has .fixed then Set.Ico addr (addr + size) else ∅

theorem createArea_eq_ok {prot : MemoryProt} {flags : MemoryMapFlags} {type : VMAType}
    {name : String} {handle : Nat} (h : s.Valid env) (haddr : addr < 2 ^ 64)
    (hsize : size < 2 ^ 64)
    (hr : s.createArea addr size prot flags type name = .ok (s', handle)) :
    handle = addr ∧ ∃ s₁ map v, Creates env addr size (overwritten flags addr size) s s₁ map v ∧
      s' = { s₁ with vmaMap := map.modify addr (newAttributes prot flags type name) } := by
  simp only [createArea, VMAMap.findVMA, bind_eq_ok, deref_eq_ok, assertMsg_eq_ok,
    pure_eq_ok, Prod.mk.injEq] at hr
  obtain ⟨⟨k, v₀⟩, hfloor, s₁, hover, ⟨k₁, v₁⟩, hfloor₁, -, hfree, ⟨map, new⟩, hcarve, rfl, rfl⟩ := hr
  simp only at hover hfree
  have hunmaps : ∃ U, Unmaps env U s s₁ ∧
      (s.InUse addr size → U = overwritten flags addr size) := by
    unfold overwritten
    split at hover
    · rename_i hfixed
      rw [if_pos hfixed]
      exact overwriteLoop_eq_ok h haddr hsize hfloor hover
    rename_i hfixed
    rw [pure_eq_ok] at hover
    exact ⟨∅, hover ▸ Unmaps.refl h, fun _ => (if_neg hfixed).symm⟩
  obtain ⟨U, hu, hexact⟩ := hunmaps
  obtain ⟨hhandle, v, w, hc, -, hw, hwbase, hwsize, hwtype, hread, hrep⟩ :=
    hu.valid.vma.carve_modify haddr hsize hcarve
  simp only at hhandle
  subst hhandle
  have hfits := hc.fits
  have hend := hu.valid.vma.end_lt _ v hc.mem
  have hv : v₁ = v := by
    have := StdMap.floor?_of_mem hu.valid.vma.separated hc.mem hc.le (p := new)
      (by have := hc.pos; simp only [VirtualMemoryArea.area_size]; omega)
    rw [hfloor₁] at this
    cases this
    rfl
  subst hv
  have hbytes : ∀ p ∈ Set.Ico new (new + size), ∃ x, s₁.view.virt p = some x ∧ x.type = .free := by
    intro p hp
    rw [Set.mem_Ico] at hp
    have hx := hread (p - new) (by omega)
    rw [Nat.add_sub_cancel' hp.1] at hx
    exact ⟨_, hx, hwtype.trans (by simpa [VirtualMemoryArea.isFree] using hfree)⟩
  have huse : s.InUse new size := by
    refine ⟨by omega, fun p hp => ?_⟩
    obtain ⟨x, hx, -⟩ := hbytes p hp
    rw [← hu.isSome_virt p, hx]
    rfl
  exact ⟨rfl, s₁, map, w, ⟨hexact huse ▸ hu, hbytes, hwbase, hwsize, hw, hrep⟩, rfl⟩

/-- A byte of a new area before it has physical memory. -/
def newByte (prot : MemoryProt) (flags : MemoryMapFlags) (type : VMAType) (name : String) :
    VirtByte :=
  ⟨type, prot.appendRead, name, flags.has .noCoalesce, none⟩

/-- `final` is `map` with the area at `addr` coalesced, or `map` itself. -/
def Settled (map : VMAMap) (addr : Nat) (final : VMAMap) : Prop :=
  final = map ∨ final = (VMAMap.mergeAdjacent map addr).1

/-- The new area in place. -/
theorem Creates.place {W : Set Nat} {s₁ : MemoryManager} {map final : VMAMap}
    {prot : MemoryProt} {flags : MemoryMapFlags} {type : VMAType} {name : String}
    {areas : PhysMap} {fd : VirtualMemoryArea → Int}
    (hc : Creates env addr size W s s₁ map v) (htype : type ≠ .free)
    (hbacked : type.hasPhysicalBacking → areas.Backs size)
    (hplain : type.hasPhysicalBacking = false → areas = ∅)
    (hfinal : Settled (map.modify addr fun vma => { newAttributes prot flags type name vma with
      physAreas := areas, fd := fd vma }) addr final) :
    final.WF ∧ final.Coalesced ∧ final.at? = (s₁.view.place addr size fun o =>
      { newByte prot flags type name with backing := areas.at? o }).virt := by
  have hrep := hc.replaced
    (fun vma => { newAttributes prot flags type name vma with physAreas := areas, fd := fd vma })
    ⟨hc.wf.pos, hc.size_eq.symm ▸ hbacked, hplain, fun hfree => absurd hfree htype⟩
    hc.base hc.size_eq
  have hcoal := hc.unmaps.valid.coalesced
  rcases hfinal with rfl | rfl
  · exact ⟨hrep.wf, hrep.coalesced hcoal htype, funext hrep.at?⟩
  · exact ⟨hrep.mergeAdjacent.1, hrep.coalesced_mergeAdjacent hcoal,
      funext hrep.mergeAdjacent.2⟩

/-! ## The memory behind a new area -/

theorem claims_flexible :
    PhysMap.Claims .free (fun area => { area with dmaType := .flexible })
      (PhysByte.withDmaType .flexible) where
  toRelabels := relabels_withDmaType _
  idem := PhysByte.withDmaType_withDmaType _
  addr _ := rfl
  ne _ := by simp

theorem Valid.dmem_lt (h : s.dmemMap.WF (directExtent env)) {q : Nat} {b : PhysByte}
    (hb : s.view.dmem q = some b) : q < constructorTotalSize env := by
  obtain ⟨k, a, hk, hle, hlt, -⟩ := StdMap.exists_of_at? hb
  have := (h.bounds k a hk).2
  simp only [PhysicalMemoryArea.area_size] at hlt
  simp only [directExtent] at this
  omega

/-- What a walk over physical memory took, byte by byte. -/
theorem exists_bytes_of_takes {wanted : PhysicalMemoryType} {g : PhysByte → PhysByte}
    {map map' areas : PhysMap} (ht : PhysMap.Takes wanted g map map' areas 0 size)
    (haddr : ∀ b, (g b).addr = b.addr) :
    ∃ y : Nat → PhysByte, (∀ o, o < size → areas.at? o = some (y o)) ∧
      (∀ o, o < size → ∃ b, map.at? (y o).addr = some b ∧ b.dmaType = wanted ∧ y o = g b) ∧
      (∀ o o', o < size → o' < size → (y o).addr = (y o').addr → o = o') ∧
      map'.at? = updateOn {q | ∃ o < size, (y o).addr = q} g map.at? := by
  have htaken : ∀ o : Fin size, ∃ b, map.at? b.addr = some b ∧ b.dmaType = wanted ∧
      areas.at? o = some (g b) := fun o => ht.taken o (Nat.zero_le _) (by omega)
  choose b hb hbt hareas using htaken
  have hread : ∀ o (ho : o < size), areas.at? o = some (g (b ⟨o, ho⟩)) :=
    fun o ho => hareas ⟨o, ho⟩
  have hy : ∀ o (ho : o < size), (areas.at? o).getD ⟨0, 0, .free⟩ = g (b ⟨o, ho⟩) := by
    intro o ho
    rw [hread o ho]
    rfl
  refine ⟨fun o => (areas.at? o).getD ⟨0, 0, .free⟩, ?_, ?_, ?_, ?_⟩
  · intro o ho
    simp only [hy o ho]
    exact hread o ho
  · intro o ho
    simp only [hy o ho]
    exact ⟨_, by rw [haddr]; exact hb _, hbt _, rfl⟩
  · intro o o' ho ho' heq
    simp only [hy o ho, hy o' ho'] at heq
    exact ht.inj o o' _ _ (Nat.zero_le _) (by omega) (Nat.zero_le _) (by omega) (hread o ho)
      (hread o' ho') heq
  · rw [ht.bytes]
    congr 1
    ext q
    constructor
    · rintro ⟨o, ho, c, hc, hq⟩
      rw [Set.mem_Ico, Nat.zero_add] at ho
      exact ⟨o, ho.2, by simpa only [hc, Option.getD_some] using hq⟩
    · rintro ⟨o, ho, hq⟩
      exact ⟨o, Set.mem_Ico.2 ⟨Nat.zero_le _, by omega⟩, _, hread o ho, hy o ho ▸ hq⟩

/-- The physical memory `MapMemory` finds, by the type of the mapping. -/
theorem mapBacking_eq_ok {type : VMAType} {phys : Nat} {areas : PhysMap}
    (hr : s.mapBacking size type phys = .ok (s', areas)) (hd : s.dmemMap.WF (directExtent env))
    (hf : s.fmemMap.WF (flexibleExtent env)) (hsize : size < 2 ^ 64) (hphys : phys < 2 ^ 64) :
    (type ≠ .flexible ∧ type ≠ .direct ∧ areas = ∅ ∧ s' = s) ∨
    (type = .flexible ∧ areas.Backs size ∧ ∃ map : PhysMap, map.WF (flexibleExtent env) ∧
      PhysMap.Takes .free (PhysByte.withDmaType .flexible) s.fmemMap map areas 0 size ∧
      s' = { s with fmemMap := map, flexibleUsage := U64.add s.flexibleUsage size }) ∨
    (type = .direct ∧ areas.Backs size ∧ ∃ map : PhysMap, map.WF (directExtent env) ∧
      map.at? = updateOn (Set.Ico phys (phys + size)) (PhysByte.withDmaType .mapped) s.dmemMap.at? ∧
      (∀ o, o < size →
        areas.at? o = (s.dmemMap.at? (phys + o)).map (PhysByte.withDmaType .mapped)) ∧
      (∀ q ∈ Set.Ico phys (phys + size), (s.dmemMap.at? q).isSome) ∧
      s' = { s with dmemMap := map }) := by
  simp only [mapBacking] at hr
  split at hr
  · simp only [bind_eq_ok, assertMsg_eq_ok, decide_eq_true_eq, pure_eq_ok,
      Prod.mk.injEq] at hr
    obtain ⟨⟨map, areas', left⟩, htake, -, rfl, rfl, rfl⟩ := hr
    obtain ⟨hwf, -, ht, -⟩ :=
      PhysMap.takeBacking_eq_ok hf claims_flexible (.inr rfl) hsize htake
    have hb := ht.backs
    rw [Nat.sub_zero, Nat.zero_add] at hb
    exact .inr (.inl ⟨rfl, hb, map, hwf, ht, rfl⟩)
  · simp only [bind_eq_ok, pure_eq_ok, Prod.mk.injEq] at hr
    obtain ⟨⟨map, areas'⟩, htake, rfl, rfl⟩ := hr
    obtain ⟨hwf, hb, hat, hareas, hsome⟩ := PhysMap.takeDirect_eq_ok hd hphys hsize htake
    exact .inr (.inr ⟨rfl, hb, map, hwf, hat, hareas, hsome, rfl⟩)
  · rename_i hnf hnd
    cases hr
    exact .inl ⟨hnf, hnd, rfl, rfl⟩

theorem Creates.isSome {W : Set Nat} {s₁ : MemoryManager} {map : VMAMap}
    (hc : Creates env addr size W s s₁ map v) :
    ∀ p ∈ Set.Ico addr (addr + size), (s₁.view.virt p).isSome := by
  intro p hp
  obtain ⟨x, hx, -⟩ := hc.free p hp
  simp [hx]

/-- A new area without physical memory. -/
theorem Creates.mapsPlain {W : Set Nat} {s₁ : MemoryManager} {map final : VMAMap}
    {prot : MemoryProt} {flags : MemoryMapFlags} {type : VMAType} {name : String}
    {fd : VirtualMemoryArea → Int} {phys : Nat} (hc : Creates env addr size W s s₁ map v)
    (hfree : type ≠ .free) (hplain : type.hasPhysicalBacking = false)
    (hfinal : Settled (map.modify addr fun vma => { newAttributes prot flags type name vma with
      physAreas := ∅, fd := fd vma }) addr final) :
    Valid env { s₁ with vmaMap := final } ∧
      s₁.view.MapsArea addr size (newByte prot flags type name) phys
        (MemoryManager.view { s₁ with vmaMap := final }) := by
  have h₁ := hc.unmaps.valid
  obtain ⟨hwf, hcoal, hvirt⟩ := hc.place hfree (by simp [hplain]) (fun _ => rfl) hfinal
  have hview : MemoryManager.view { s₁ with vmaMap := final } =
      s₁.view.mapPlain addr size (newByte prot flags type name) :=
    Memory.ext hvirt rfl rfl rfl rfl
  rw [hview]
  exact ⟨⟨h₁.dmem, h₁.fmem, hwf, hcoal, hview ▸ h₁.sound.mapPlain hc.isSome rfl, h₁.usage_le,
    h₁.budget_lt⟩,
    .plain hplain⟩

/-- The parts of `MapMemory` after its checks. The new area is coalesced or not. -/
theorem mapMemoryAt_parts {prot : MemoryProt} {flags : MemoryMapFlags} {type : VMAType}
    {name : String} {phys : Nat}
    (hr : s.mapMemoryAt env addr size prot flags type name phys = .ok s') :
    ∃ s₂ handle s₃ areas final,
      s.createArea addr size prot flags type name = .ok (s₂, handle) ∧
      s₂.mapBacking size type phys = .ok (s₃, areas) ∧
      Settled (s₃.vmaMap.modify handle fun vma => { vma with physAreas := areas }) handle final ∧
      s' = { s₃ with vmaMap := final } := by
  simp only [mapMemoryAt, bind_eq_ok] at hr
  obtain ⟨⟨s₂, handle⟩, hcreate, ⟨s₃, areas⟩, hback, hr⟩ := hr
  split at hr
  · rw [pure_eq_ok] at hr
    exact ⟨s₂, handle, s₃, areas, _, hcreate, hback, .inr rfl, hr.symm⟩
  · rw [pure_eq_ok] at hr
    exact ⟨s₂, handle, s₃, areas, _, hcreate, hback, .inl rfl, hr.symm⟩

/-- `MapMemory` after its checks. What a fixed mapping overwrites is unmapped
    first, so that the whole range is free. -/
theorem mapMemoryAt_eq_ok {prot : MemoryProt} {flags : MemoryMapFlags} {type : VMAType}
    {name : String} {phys : Nat} (h : s.Valid env) (haddr : addr < 2 ^ 64) (hsize : size < 2 ^ 64)
    (hphys : phys < 2 ^ 64) (hfree : type ≠ .free) (hpooled : type ≠ .pooled)
    (husage : type = .flexible → U64.add s.flexibleUsage size ≤ s.totalFlexibleSize)
    (hr : s.mapMemoryAt env addr size prot flags type name phys = .ok s') :
    s'.Valid env ∧ ∃ s₁, Unmaps env (overwritten flags addr size) s s₁ ∧
      (∀ p ∈ Set.Ico addr (addr + size), ∃ x, s₁.view.virt p = some x ∧ x.type = .free) ∧
      s₁.view.MapsArea addr size (newByte prot flags type name) phys s'.view := by
  obtain ⟨s₂, handle, s₃, areas, final, hcreate, hback, hfinal, rfl⟩ := mapMemoryAt_parts hr
  obtain ⟨rfl, s₁, map, v, hc, rfl⟩ := createArea_eq_ok h haddr hsize hcreate
  have hu := hc.unmaps
  have h₁ := hu.valid
  have hsome := hc.isSome
  have hcases := mapBacking_eq_ok hback h₁.dmem h₁.fmem hsize hphys
  have hvma : s₃.vmaMap = map.modify handle (newAttributes prot flags type name) := by
    rcases hcases with ⟨-, -, -, rfl⟩ | ⟨-, -, _, -, -, rfl⟩ | ⟨-, -, _, -, -, -, -, rfl⟩ <;> rfl
  rw [hvma, StdMap.modify_modify] at hfinal
  rcases hcases with ⟨hnf, hnd, rfl, rfl⟩ | ⟨rfl, hb, fmem, hfm, ht, rfl⟩ |
    ⟨rfl, hb, dmem, hdm, hat, hareas, hin, rfl⟩
  · have hplain : type.hasPhysicalBacking = false := by
      cases type <;> simp_all [VMAType.hasPhysicalBacking]
    obtain ⟨hvalid, hmaps⟩ := hc.mapsPlain hfree hplain hfinal
    exact ⟨hvalid, s₁, hu, hc.free, hmaps⟩
  · obtain ⟨y, hread, htaken, hinj, hbytes⟩ := exists_bytes_of_takes ht fun _ => rfl
    obtain ⟨hwf, hcoal, hvirt⟩ := hc.place hfree (fun _ => hb)
      (by simp [VMAType.hasPhysicalBacking]) hfinal
    have hy : s₁.view.TakesFree y size := by
      refine ⟨fun o ho => ?_, hinj⟩
      obtain ⟨b, hb, hbt, -⟩ := htaken o ho
      exact ⟨b, hb, hbt⟩
    have hfits : size ≤ (flexibleExtent env).hi := by
      refine hy.ncard ▸ ncard_fmem_le h₁.fmem ?_
      rintro q ⟨o, ho, rfl⟩
      obtain ⟨b, hb, -⟩ := hy.free o ho
      simp [hb]
    have hhi := flexibleExtent_hi_lt env
    have hadd : U64.add s₁.flexibleUsage size = s₁.flexibleUsage + size :=
      U64.add_of_lt (by have := h₁.usage_le_hi; omega)
    have hle : s₁.flexibleUsage + size ≤ s₁.totalFlexibleSize := by
      have hbudget := husage rfl
      rw [U64.add_of_lt (by have := h.usage_le_hi; omega)] at hbudget
      have := hu.usage_le
      have := hu.totalFlexible
      omega
    have hview : MemoryManager.view { s₁ with
        vmaMap := final, fmemMap := fmem, flexibleUsage := U64.add s₁.flexibleUsage size } =
        s₁.view.mapFlexible handle size (newByte prot flags .flexible name) y := by
      refine Memory.ext (hvirt.trans ?_) rfl hbytes hadd rfl
      refine (Memory.virt_place_congr fun o ho => ?_).trans Memory.virt_mapFlexible.symm
      rw [hread o ho]
    refine ⟨⟨h₁.dmem, hfm, hwf, hcoal, ?_, hadd.trans_le hle, h₁.budget_lt⟩, s₁, hu, hc.free, ?_⟩
    · exact hview ▸ h₁.sound.mapFlexible s₁.finite_inUse hsome rfl hy
    · refine hview ▸ .flexible rfl hy fun o ho q b hq hb => ?_
      exact ht.lowest o _ (Nat.zero_le _) (by omega) (hread o ho) q b hq (hbytes ▸ hb)
  · obtain ⟨hwf, hcoal, hvirt⟩ := hc.place hfree (fun _ => hb)
      (by simp [VMAType.hasPhysicalBacking]) hfinal
    have hview : MemoryManager.view { s₁ with vmaMap := final, dmemMap := dmem } =
        s₁.view.mapDirect handle size (newByte prot flags .direct name) phys := by
      refine Memory.ext (hvirt.trans ?_) hat rfl rfl rfl
      refine (Memory.virt_place_congr fun o ho => ?_).trans Memory.virt_mapDirect.symm
      rw [hareas o ho]
      rfl
    have hbytes : ∀ o, o < size → ∃ b, s₁.view.dmem (phys + o) = some b ∧ b.addr = phys + o := by
      intro o ho
      obtain ⟨b, hb⟩ := Option.isSome_iff_exists.1
        (hin (phys + o) (Set.mem_Ico.2 ⟨Nat.le_add_right _ _, by omega⟩))
      exact ⟨b, hb, h₁.dmem.addr_of_at? hb⟩
    refine ⟨⟨hdm, h₁.fmem, hwf, hcoal, ?_, h₁.usage_le, h₁.budget_lt⟩, s₁, hu, hc.free, ?_⟩
    · exact hview ▸ h₁.sound.mapDirect hsome rfl hbytes fun q b hb => Valid.dmem_lt h₁.dmem hb
    · exact hview ▸ .direct rfl hbytes

/-! ## The checks before a mapping -/

section

variable {validateDmem : Bool} {endAddr : Nat} {es : List (Nat × PhysicalMemoryArea)}

theorem checkDmemAreas_eq_none (hs : es.Pairwise fun e e' => e.2.base < e'.2.base)
    (hr : checkDmemAreas validateDmem endAddr es = none) :
    ∀ e ∈ es, e.2.base < endAddr → e.2.dmaType = .allocated ∨ e.2.dmaType = .mapped := by
  induction es with
  | nil => simp
  | cons e es ih =>
    obtain ⟨k, area⟩ := e
    rw [List.pairwise_cons] at hs
    simp only [checkDmemAreas] at hr
    intro e he hlt
    split at hr
    · split at hr
      · cases hr
      · rename_i htype
        split at hr
        · cases hr
        rcases List.mem_cons.1 he with rfl | hmem
        · simp only [ne_eq, Bool.and_eq_true, decide_eq_true_eq, not_and, Decidable.not_not]
            at htype
          by_cases ha : area.dmaType = .allocated
          · exact .inl ha
          · exact .inr (htype ha)
        · exact ih hs.2 hr e hmem hlt
    · rename_i hge
      rcases List.mem_cons.1 he with rfl | hmem
      · exact absurd hlt hge
      · exact absurd (Nat.lt_trans (hs.1 e hmem) hlt) hge

/-- The validating check finds a mapped area that no unallocated one precedes. -/
theorem checkDmemAreas_eq_busy (hs : es.Pairwise fun e e' => e.2.base < e'.2.base) :
    checkDmemAreas true endAddr es = some .EBUSY ↔
      ∃ e ∈ es, e.2.base < endAddr ∧ e.2.dmaType = .mapped ∧ ∀ e' ∈ es, e'.2.base < e.2.base →
        e'.2.dmaType = .allocated ∨ e'.2.dmaType = .mapped := by
  induction es with
  | nil => simp [checkDmemAreas]
  | cons e es ih =>
    obtain ⟨k, area⟩ := e
    rw [List.pairwise_cons] at hs
    have hfirst : ∀ e ∈ (k, area) :: es, ¬e.2.base < area.base := by
      intro e he hlt
      rcases List.mem_cons.1 he with rfl | hmem
      · exact Nat.lt_irrefl _ hlt
      · exact Nat.lt_asymm hlt (hs.1 e hmem)
    simp only [checkDmemAreas]
    split
    · rename_i hlt
      split
      · rename_i htype
        simp only [ne_eq, Bool.and_eq_true, decide_eq_true_eq] at htype
        simp only [Option.some.injEq, reduceCtorEq, false_iff]
        rintro ⟨e, he, -, hmapped, hearlier⟩
        rcases List.mem_cons.1 he with rfl | hmem
        · exact htype.2 hmapped
        · rcases hearlier _ List.mem_cons_self (hs.1 e hmem) with h | h
          · exact htype.1 h
          · exact htype.2 h
      · rename_i hused
        simp only [ne_eq, Bool.and_eq_true, decide_eq_true_eq, not_and, Decidable.not_not] at hused
        split
        · rename_i htype
          simp only [Bool.true_and, decide_eq_true_eq] at htype
          simp only [true_iff]
          exact ⟨_, List.mem_cons_self, hlt, htype, fun e' he' h => absurd h (hfirst e' he')⟩
        · rename_i htype
          simp only [Bool.true_and, decide_eq_true_eq] at htype
          have halloc : area.dmaType = .allocated := by
            by_contra hno
            exact htype (hused hno)
          rw [ih hs.2]
          constructor
          · rintro ⟨e, he, hend, hmapped, hearlier⟩
            refine ⟨e, List.mem_cons_of_mem _ he, hend, hmapped, fun e' he' h => ?_⟩
            rcases List.mem_cons.1 he' with rfl | hmem
            · exact .inl halloc
            · exact hearlier e' hmem h
          · rintro ⟨e, he, hend, hmapped, hearlier⟩
            rcases List.mem_cons.1 he with rfl | hmem
            · exact absurd hmapped htype
            · exact ⟨e, hmem, hend, hmapped,
                fun e' he' => hearlier e' (List.mem_cons_of_mem _ he')⟩
    · rename_i hge
      simp only [reduceCtorEq, false_iff]
      rintro ⟨e, he, hend, -⟩
      rcases List.mem_cons.1 he with rfl | hmem
      · exact hge hend
      · exact hge (Nat.lt_trans (hs.1 e hmem) hend)

end

/-- The areas from the one `FindDmemArea` returns, up to the end of a range, hold
    the bytes of the range. -/
theorem exists_startingAt_of_at? {map : PhysMap} {x : PhysMap.Extent} (h : map.WF x) {q : Nat}
    {a : PhysicalMemoryArea} {b : PhysByte} (hfloor : map.floor? addr = some (k, a)) (hle : addr ≤ q)
    (hb : map.at? q = some b) :
    ∃ e ∈ map.startingAt k, e.2.base ≤ q ∧ q < e.2.base + e.2.size ∧ e.2.dmaType = b.dmaType := by
  obtain ⟨j, c, hj, hjle, hjlt, rfl⟩ := StdMap.exists_of_at? hb
  have hbase := h.key j c hj
  obtain ⟨hk, hkle, hmax⟩ := StdMap.floor?_eq_some.1 hfloor
  have hkj : k ≤ j := by
    by_contra hlt
    have hsep := h.separated j c k a hj hk (by omega)
    simp only at hkle
    omega
  simp only [PhysicalMemoryArea.area_size] at hjlt
  exact ⟨(j, c), StdMap.mem_startingAt_iff.2 ⟨hj, hkj⟩, by simp only; omega, by simp only; omega, rfl⟩

theorem pairwise_base_startingAt {map : PhysMap} {x : PhysMap.Extent} (h : map.WF x) :
    (map.startingAt k).Pairwise fun e e' => e.2.base < e'.2.base := by
  refine StdMap.sorted_startingAt.imp_of_mem ?_
  rintro ⟨i, a⟩ ⟨j, b⟩ hi hj hlt
  have hia := h.key i a (StdMap.mem_startingAt_iff.1 hi).1
  have hjb := h.key j b (StdMap.mem_startingAt_iff.1 hj).1
  simp only at hlt ⊢
  omega

/-- A physical range that passes the checks of `MapMemory`. -/
theorem checkPhysRange_eq_none (h : s.dmemMap.WF (directExtent env)) {validateDmem : Bool}
    {phys : Nat} (hphys : phys ≠ U64.max) (hlt : phys + size < 2 ^ 64)
    (hr : s.checkPhysRange size validateDmem phys = .ok none) :
    ∀ q ∈ Set.Ico phys (phys + size), ∀ b, s.view.dmem q = some b →
      b.dmaType = .allocated ∨ b.dmaType = .mapped := by
  simp only [checkPhysRange, if_neg hphys, U64.add_of_lt hlt] at hr
  split at hr
  · simp [pure_eq_ok] at hr
  simp only [bind_eq_ok, deref_eq_ok, pure_eq_ok] at hr
  obtain ⟨⟨k, a⟩, hfloor, hnone⟩ := hr
  intro q hq b hb
  rw [Set.mem_Ico] at hq
  obtain ⟨e, he, hle, -, htype⟩ := exists_startingAt_of_at? h hfloor hq.1 hb
  exact htype ▸ checkDmemAreas_eq_none (pairwise_base_startingAt h) hnone e he (by omega)

theorem searchFreeLoop_lt {limit alignment : Nat}
    {es : List (Nat × VirtualMemoryArea)} (hes : ∀ e ∈ es, e.2.base < 2 ^ 64) :
    searchFreeLoop limit size alignment es < 2 ^ 64 := by
  induction es with
  | nil => simp [searchFreeLoop, U64.max]
  | cons e es ih =>
    obtain ⟨j, w⟩ := e
    have hrest := ih fun e he => hes e (List.mem_cons_of_mem _ he)
    have hbase : w.base < 2 ^ 64 := hes (j, w) List.mem_cons_self
    simp only [searchFreeLoop]
    split_ifs
    · exact hrest
    · exact hrest
    · simp [U64.max]
    · exact alignUp_lt hbase
    · exact hrest

theorem searchFree_lt {map : VMAMap} (h : map.WF) {alignment a : Nat} (haddr : addr < 2 ^ 64)
    (hr : searchFree env map addr size alignment = .ok a) : a < 2 ^ 64 := by
  have hmax : max addr env.systemManagedVirtualBase < 2 ^ 64 :=
    Nat.max_lt.2 ⟨haddr, env.systemManagedVirtualBase_lt⟩
  simp only [searchFree, VMAMap.findVMA, bind_eq_ok] at hr
  obtain ⟨valid, -, hr⟩ := hr
  split at hr
  · rw [pure_eq_ok] at hr
    simp [← hr, U64.max]
  split at hr
  · cases hr
  simp only [bind_eq_ok, deref_eq_ok] at hr
  obtain ⟨⟨it, w⟩, -, hr⟩ := hr
  split at hr
  · rw [pure_eq_ok] at hr
    exact hr ▸ alignUp_lt hmax
  rw [pure_eq_ok] at hr
  subst hr
  refine searchFreeLoop_lt ?_
  rintro ⟨j, w⟩ he
  obtain ⟨hj, -⟩ := StdMap.mem_startingAt_iff.1 (List.mem_of_mem_tail he)
  have := h.key j w hj
  have := h.end_lt j w hj
  simp only
  omega

/-- The chosen address is an address, and a fixed mapping is where it was asked for. -/
theorem chooseAddress_eq_ok (h : s.vmaMap.WF) {flags : MemoryMapFlags} {alignment a : Nat}
    (haddr : addr < 2 ^ 64)
    (hr : chooseAddress env s addr size flags alignment = .ok (.ok a)) :
    a < 2 ^ 64 ∧ (flags.has .fixed → a = addr) := by
  simp only [chooseAddress] at hr
  split at hr
  · simp only [VMAMap.findVMA, bind_eq_ok] at hr
    obtain ⟨valid, -, hr⟩ := hr
    split at hr
    · simp [pure_eq_ok] at hr
    simp only [bind_eq_ok, deref_eq_ok] at hr
    obtain ⟨_, -, hr⟩ := hr
    split at hr
    · simp [pure_eq_ok] at hr
    · simp only [pure_eq_ok, Except.ok.injEq] at hr
      exact ⟨hr ▸ haddr, fun _ => hr.symm⟩
  · split at hr
    · rename_i hfixed
      simp only [bind_eq_ok] at hr
      obtain ⟨b, hb, hr⟩ := hr
      split at hr
      · simp [pure_eq_ok] at hr
      simp only [pure_eq_ok, Except.ok.injEq] at hr
      subst hr
      refine ⟨searchFree_lt h ?_ hb, fun hfix => ?_⟩
      · split
        · simp [DEFAULT_MAPPING_BASE]
        · exact haddr
      · simp [hfix] at hfixed
    · simp only [pure_eq_ok, Except.ok.injEq] at hr
      exact ⟨hr ▸ haddr, fun _ => hr.symm⟩

theorem overwritten_chosen {flags : MemoryMapFlags} {a : Nat} (h : flags.has .fixed → a = addr) :
    overwritten flags a size = overwritten flags addr size := by
  unfold overwritten
  split
  · rename_i hfixed
    rw [h hfixed]
  · rfl

theorem mapMemoryChecks_eq_ok {flags : MemoryMapFlags} {type : VMAType} {validateDmem : Bool}
    {phys alignment a : Nat}
    (hr : mapMemoryChecks env s addr size flags type validateDmem phys alignment = .ok (.ok a)) :
    (type = .flexible → U64.add s.flexibleUsage size ≤ s.totalFlexibleSize) ∧
      s.checkPhysRange size validateDmem phys = .ok none ∧
      ∃ alignment, chooseAddress env s addr size flags alignment = .ok (.ok a) := by
  simp only [mapMemoryChecks] at hr
  split at hr
  · simp [pure_eq_ok] at hr
  split at hr
  · simp [pure_eq_ok] at hr
  split at hr
  · simp [pure_eq_ok] at hr
  rename_i hbudget
  simp only [bind_eq_ok] at hr
  obtain ⟨e, hcheck, hr⟩ := hr
  cases e with
  | some e => simp [pure_eq_ok] at hr
  | none =>
    refine ⟨?_, hcheck, _, hr⟩
    rintro rfl
    simpa using hbudget

/-! ## Mapping memory and files -/

/-- A mapping of the bytes `x` at `[a, a + size)`, after the bytes of `W`, which it
    overwrites, have been unmapped. -/
structure Maps (env : Environment) (W : Set Nat) (a size : Nat) (x : VirtByte) (phys : Nat)
    (s s' : MemoryManager) : Prop where
  valid : s'.Valid env
  used : x.type = .direct → ∀ q ∈ Set.Ico phys (phys + size),
    ∃ b, s.view.dmem q = some b ∧ (b.dmaType = .allocated ∨ b.dmaType = .mapped)
  result : ∃ s₁, Unmaps env W s s₁ ∧
    (∀ p ∈ Set.Ico a (a + size), ∃ x, s₁.view.virt p = some x ∧ x.type = .free) ∧
    s₁.view.MapsArea a size x phys s'.view

/-- `MapMemory`: an error and no change, or a mapping at the address it returns. -/
theorem mapMemory_eq_ok {prot : MemoryProt} {flags : MemoryMapFlags} {type : VMAType}
    {name : String} {validateDmem : Bool} {phys alignment : Nat} {r : Except OrbisError Nat}
    (h : s.Valid env) (haddr : addr < 2 ^ 64) (hsize : size < 2 ^ 64) (hphys : phys < 2 ^ 64)
    (hfree : type ≠ .free) (hpooled : type ≠ .pooled)
    (hr : s.mapMemory env addr size prot flags type name validateDmem phys alignment =
      .ok (s', r)) :
    (∃ e, r = .error e ∧ s' = s) ∨
      ∃ a, r = .ok a ∧ Maps env (overwritten flags addr size) a size
        (newByte prot flags type name) phys s s' := by
  simp only [mapMemory, bind_eq_ok] at hr
  obtain ⟨checked, hchecks, hr⟩ := hr
  cases checked with
  | error e =>
    cases hr
    exact .inl ⟨e, rfl, rfl⟩
  | ok a =>
    simp only [bind_eq_ok, pure_eq_ok, Prod.mk.injEq] at hr
    obtain ⟨s₂, hmap, rfl, rfl⟩ := hr
    obtain ⟨hbudget, hphysRange, _, hchoose⟩ := mapMemoryChecks_eq_ok hchecks
    obtain ⟨halt, hfixed⟩ := chooseAddress_eq_ok h.vma haddr hchoose
    obtain ⟨hvalid, s₁, hu, hfreed, hmaps⟩ :=
      mapMemoryAt_eq_ok h halt hsize hphys hfree hpooled hbudget hmap
    rw [overwritten_chosen hfixed] at hu
    refine .inr ⟨a, rfl, hvalid, ?_, s₁, hu, hfreed, hmaps⟩
    rintro hdirect q hq
    rw [Set.mem_Ico] at hq
    have hold : ∀ o, o < size → ∃ b, s.view.dmem (phys + o) = some b := by
      intro o ho
      obtain ⟨b, hb, -⟩ := hmaps.direct_bytes hdirect o ho
      rw [hu.view] at hb
      obtain ⟨c, hc, -⟩ := updateOn_eq_some.1 hb
      exact ⟨c, hc⟩
    have hlt : phys + size < 2 ^ 64 := by
      obtain ⟨b, hb⟩ := hold (size - 1) (by omega)
      have := Valid.dmem_lt h.dmem hb
      have := h.dmem.hi_lt
      simp only [directExtent] at this
      omega
    obtain ⟨b, hb⟩ := hold (q - phys) (by omega)
    rw [Nat.add_sub_cancel' hq.1] at hb
    have hne : phys ≠ U64.max := by
      simp only [U64.max]
      omega
    exact ⟨b, hb, checkPhysRange_eq_none h.dmem hne hlt hphysRange q (Set.mem_Ico.2 hq) b hb⟩

/-- `MapFile`: an error and no change, or a mapping without physical memory. -/
theorem mapFile_eq_ok {prot : MemoryProt} {flags : MemoryMapFlags} {fd : Int}
    {file : Option MappableFile} {r : Except OrbisError Nat} (h : s.Valid env)
    (haddr : addr < 2 ^ 64) (hsize : size < 2 ^ 64)
    (hr : s.mapFile env addr size prot flags fd file = .ok (s', r)) :
    (∃ e, r = .error e ∧ s' = s) ∨
      ∃ a prot, r = .ok a ∧ Maps env (overwritten flags addr size) a size
        (newByte prot flags .file "anon") 0 s s' := by
  simp only [mapFile] at hr
  split at hr
  · cases hr
    exact .inl ⟨_, rfl, rfl⟩
  split at hr
  · cases hr
    exact .inl ⟨_, rfl, rfl⟩
  simp only [bind_eq_ok] at hr
  obtain ⟨prot', -, -, -, choice, hchoose, hr⟩ := hr
  cases choice with
  | error e =>
    cases hr
    exact .inl ⟨e, rfl, rfl⟩
  | ok a =>
    simp only [bind_eq_ok, pure_eq_ok, Prod.mk.injEq] at hr
    obtain ⟨⟨s₂, handle⟩, hcreate, rfl, rfl⟩ := hr
    obtain ⟨halt, hfixed⟩ := chooseAddress_eq_ok h.vma haddr hchoose
    obtain ⟨rfl, s₁, map, v, hc, rfl⟩ := createArea_eq_ok h halt hsize hcreate
    rw [overwritten_chosen hfixed] at hc
    have hfile : VMAType.file ≠ .free := by decide
    rw [StdMap.modify_modify]
    obtain ⟨hvalid, hmaps⟩ := hc.mapsPlain hfile rfl (.inl rfl)
    exact .inr ⟨handle, _, rfl, hvalid, by simp [newByte], s₁, hc.unmaps, hc.free, hmaps⟩

end MemoryManager

end Core
