-- SUMMARY: Which entries of the map of virtual areas carving adds and coalescing erases, told from the bytes next to them.
import W7PS4.Memory.VmaMap

/-!
# Merged areas

A reference to an entry of `vma_map` outlives the calls that change the map, unless one
of them erases the entry. `CarveVMA` erases none. `MergeAdjacent` erases the entry after
the one it is called for, or that entry itself, when the bytes on both sides of the seam
say the same.
-/

namespace Core

open StdMap (SeamAt JoinsSeams exists_of_at? at?_of_find? find?_insert)
open Outcome (bind_eq_ok pure_eq_ok)

/-- What `CanMergeWith` compares, for the last byte of one area and the first of the next. -/
def VirtByte.Continues (x y : VirtByte) : Prop :=
  x.disallowMerge = false ∧ y.disallowMerge = false ∧ x.prot = y.prot ∧ x.type = y.type ∧
    x.name = y.name ∧ (x.type = .direct → ∃ b c, x.backing = some b ∧ y.backing = some c ∧
      b.addr + 1 = c.addr ∧ b.memoryType = c.memoryType)

namespace VirtualMemoryArea

variable {v w : VirtualMemoryArea}

/-- The physical test compares the memory behind the two bytes. -/
theorem physicallyAdjacent_iff (hv : v.WF) (hw : w.WF) (hvback : v.type.hasPhysicalBacking)
    (hwback : w.type.hasPhysicalBacking) : v.physicallyAdjacent w ↔
      ∃ b c, v.physAreas.at? (v.size - 1) = some b ∧ w.physAreas.at? 0 = some c ∧
        b.addr + 1 = c.addr ∧ b.memoryType = c.memoryType := by
  have hbv := (hv.backed hvback).toTiles
  have hbw := (hw.backed hwback).toTiles
  have hpos := hv.pos
  obtain ⟨f, hf⟩ := hbw.first?_eq hw.pos
  have hfirst := (StdMap.first?_eq_some.1 hf).1
  obtain ⟨x, hx⟩ := hbv.covered 0 hv.pos
  obtain ⟨o, e, he, -⟩ := exists_of_at? hx
  obtain ⟨⟨k, a⟩, hl⟩ : ∃ e, v.physAreas.last? = some e :=
    ⟨_, List.getLast?_eq_some_getLast (List.ne_nil_of_mem (StdMap.mem_entries_iff.2 he))⟩
  have hlast := (StdMap.last?_eq_some.1 hl).1
  have hend := hbv.last?_eq hl
  have hapos := hbv.pos k a hlast
  simp only [PhysicalMemoryArea.area_size] at hend hapos
  have hatv : v.physAreas.at? (v.size - 1) = some (Area.byte a (v.size - 1 - k)) :=
    at?_of_find? hbv.separated hlast (by omega)
      (by simp only [PhysicalMemoryArea.area_size]; omega)
  have hatw : w.physAreas.at? 0 = some (Area.byte f 0) := by
    have hfpos := hbw.pos 0 f hfirst
    exact at?_of_find? hbw.separated hfirst le_rfl (by simpa using hfpos)
  simp only [physicallyAdjacent, hl, hf, hatv, hatw, Bool.and_eq_true, beq_iff_eq]
  constructor
  · rintro ⟨hbase, htype⟩
    exact ⟨_, _, rfl, rfl, by simp only [PhysicalMemoryArea.area_byte]; omega, htype⟩
  · rintro ⟨b, c, hb, hc, haddr, htype⟩
    cases hb
    cases hc
    simp only [PhysicalMemoryArea.area_byte] at haddr htype
    exact ⟨by omega, htype⟩

/-- Two areas that touch may be merged when the bytes at the seam say the same. -/
theorem canMergeWith_iff_continues (hv : v.WF) (hw : w.WF) (hbase : v.base + v.size = w.base) :
    v.canMergeWith w ↔ VirtByte.Continues (Area.byte v (v.size - 1)) (Area.byte w 0) := by
  rw [canMergeWith_iff]
  simp only [VirtByte.Continues, area_byte, hbase, true_and]
  constructor
  · rintro ⟨hdv, hdw, hadj, hprot, htype, hname⟩
    refine ⟨hdv, hdw, hprot, htype, hname, fun hdir => ?_⟩
    exact (physicallyAdjacent_iff hv hw (hdir ▸ rfl) (htype ▸ hdir ▸ rfl)).1 (hadj hdir)
  · rintro ⟨hdv, hdw, hprot, htype, hname, hadj⟩
    refine ⟨hdv, hdw, fun hdir => ?_, hprot, htype, hname⟩
    exact (physicallyAdjacent_iff hv hw (hdir ▸ rfl) (htype ▸ hdir ▸ rfl)).2 (hadj hdir)

end VirtualMemoryArea

namespace VMAMap

variable {map : VMAMap} {r : VMAMap × Nat} {addr size k off : Nat} {v : VirtualMemoryArea}

/-! ## Coalescing -/

theorem WF.joinsSeams (h : map.WF) :
    JoinsSeams VirtualMemoryArea.canMergeWith VirtByte.Continues map := by
  intro k v w hk hw
  have hpos := (h.entry k v hk).pos
  have hlast := at?_of_find? (p := k + v.size - 1) h.separated hk (by omega)
    (by simp only [VirtualMemoryArea.area_size]; omega)
  have hfirst := at?_of_find? h.separated hw le_rfl
    (by have := (h.entry _ w hw).pos; simp only [VirtualMemoryArea.area_size] at this ⊢; omega)
  rw [Nat.sub_self] at hfirst
  rw [show k + v.size - 1 - k = v.size - 1 by omega] at hlast
  rw [VirtualMemoryArea.canMergeWith_iff_continues (h.entry k v hk) (h.entry _ w hw)
    (by rw [h.key k v hk, h.key _ w hw]; rfl)]
  simp only [VirtualMemoryArea.area_size] at hfirst ⊢
  constructor
  · intro hcont
    exact ⟨k + v.size - 1, _, _, by omega, hlast, hfirst, hcont⟩
  · rintro ⟨p, x, y, hp, hx, hy, hcont⟩
    obtain rfl : p = k + v.size - 1 := by omega
    rw [hlast] at hx
    rw [hfirst] at hy
    cases hx
    cases hy
    exact hcont

/-- `MergeAdjacent` erases the two ends of the area, each where the bytes go on across it. -/
theorem WF.isSome_mergeAdjacent_iff (h : map.WF) (hk : map.find? addr = some v) :
    ((VMAMap.mergeAdjacent map addr).1.find? k).isSome ↔ (map.find? k).isSome ∧
      ¬((k = addr ∨ k = addr + v.size) ∧ SeamAt VirtByte.Continues map.at? k) := by
  have hpos := (h.entry addr v hk).pos
  obtain ⟨hwf, hat⟩ : VMAMap.WF (StdMap.mergeNext VirtualMemoryArea.canMergeWith VirtualMemoryArea.join
    map addr) ∧ _ := h.mergeNext
  obtain ⟨w, hw⟩ := Option.isSome_iff_exists.1 (StdMap.find?_mergeNext_isSome
    VirtualMemoryArea.canMergeWith VirtualMemoryArea.join hk)
  simp only [VMAMap.mergeAdjacent, StdMap.mergeAdjacent]
  rw [StdMap.isSome_mergePrev_iff hwf.separated hwf.joinsSoundly hwf.joinsSeams hw,
    StdMap.isSome_mergeNext_iff h.separated h.joinsSoundly h.joinsSeams hk hpos, funext hat]
  simp only [VirtualMemoryArea.area_size]
  tauto

/-! ## Carving -/

theorem WF.isSome_split (h : map.WF) {handle : Nat} (hr : VMAMap.split map handle off = .ok r)
    (hk : (map.find? k).isSome) : (r.1.find? k).isSome := by
  obtain ⟨v, -, -, -, rfl⟩ := split_eq_ok h hr
  simp only [find?_insert]
  split_ifs
  · rfl
  · rfl
  · exact hk

/-- `CarveVMA` erases no entry. -/
theorem WF.isSome_carveVMA (h : map.WF) (hr : VMAMap.carveVMA map addr size = .ok r)
    (hk : (map.find? k).isSome) : (r.1.find? k).isSome := by
  simp only [VMAMap.carveVMA, bind_eq_ok] at hr
  obtain ⟨⟨handle, v⟩, -, _, -, hr⟩ := hr
  split at hr
  · rw [pure_eq_ok] at hr
    exact hr ▸ hk
  simp only [bind_eq_ok] at hr
  obtain ⟨_, -, m₁, hm₁, hr⟩ := hr
  have hfst : m₁.WF ∧ (m₁.find? k).isSome := by
    split at hm₁
    · obtain ⟨r₁, hr₁, rfl⟩ := Outcome.map_eq_ok.1 hm₁
      exact ⟨(h.split hr₁).1, h.isSome_split hr₁ hk⟩
    · rw [pure_eq_ok] at hm₁
      exact hm₁ ▸ ⟨h, hk⟩
  split at hr
  · exact hfst.1.isSome_split hr hfst.2
  · rw [pure_eq_ok] at hr
    exact hr ▸ hfst.2

end VMAMap

end Core
