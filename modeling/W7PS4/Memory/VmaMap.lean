-- SUMMARY: Virtual memory areas and the map of them: splitting, coalescing and carving, and what each does to the bytes and their backing.
import W7PS4.Memory.PhysMap

/-!
# The map of virtual memory areas

A `VirtualMemoryArea` describes a range of guest addresses. The areas of type
`Direct`, `Flexible` and `Pooled` are backed: their `phys_areas` map offsets
into the area to pieces of physical memory. `backing` reads off the physical
byte behind a virtual one.
-/

namespace Core

open StdMap (at?_of_find? exists_of_at? find?_empty find?_insert)
open Outcome (bind_eq_ok pure_eq_ok)

inductive VMAType where
  | free | reserved | direct | flexible | pooled | poolReserved | stack | code | file | system
deriving DecidableEq, Repr

/-- `MemoryProt`, a set of flags. -/
abbrev MemoryProt := BitVec 32

namespace MemoryProt

def noAccess : MemoryProt := 0
def cpuRead : MemoryProt := 1
def cpuWrite : MemoryProt := 2
def cpuReadWrite : MemoryProt := 3
def cpuExec : MemoryProt := 4
def gpuRead : MemoryProt := 16
def gpuWrite : MemoryProt := 32
def gpuReadWrite : MemoryProt := 48

/-- On PS4, read is appended to write mappings. -/
def appendRead (prot : MemoryProt) : MemoryProt :=
  if prot &&& cpuWrite ≠ 0 then prot ||| cpuRead else prot

end MemoryProt

structure VirtualMemoryArea where
  base : Nat
  size : Nat
  physAreas : PhysMap
  type : VMAType
  prot : MemoryProt
  name : String
  fd : Int
  disallowMerge : Bool
deriving DecidableEq

/-- What a virtual area says about one of its bytes. The file descriptor is not
    part of it: `CanMergeWith` does not compare it, so coalescing forgets it. -/
structure VirtByte where
  type : VMAType
  prot : MemoryProt
  name : String
  disallowMerge : Bool
  backing : Option PhysByte
deriving DecidableEq

instance : Area VirtualMemoryArea VirtByte where
  size v := v.size
  byte v off := ⟨v.type, v.prot, v.name, v.disallowMerge, v.physAreas.at? off⟩

namespace VirtualMemoryArea

@[simp] theorem area_size (v : VirtualMemoryArea) : Area.size v = v.size := rfl
@[simp] theorem area_byte (v : VirtualMemoryArea) (off : Nat) :
    Area.byte v off =
      ⟨v.type, v.prot, v.name, v.disallowMerge, v.physAreas.at? off⟩ := rfl

def contains (v : VirtualMemoryArea) (addr size : Nat) : Bool :=
  addr ≥ v.base && U64.add addr size ≤ v.base + v.size

def isFree (v : VirtualMemoryArea) : Bool := v.type == .free

def isMapped (v : VirtualMemoryArea) : Bool :=
  v.type != .free && v.type != .reserved && v.type != .poolReserved

end VirtualMemoryArea

/-- The types of areas that physical memory stands behind. -/
def VMAType.hasPhysicalBacking : VMAType → Bool
  | .direct | .flexible | .pooled => true
  | _ => false

namespace VirtualMemoryArea

/-- The test for two direct areas: the second goes on where the first stops in
    physical memory, with the same memory type. A direct area is never without
    physical areas, so there are always two pieces to compare. -/
def physicallyAdjacent (v next : VirtualMemoryArea) : Bool :=
  match v.physAreas.last?, next.physAreas.first? with
  | some (_, lastPhys), some (_, firstNextPhys) =>
    lastPhys.base + lastPhys.size == firstNextPhys.base &&
      lastPhys.memoryType == firstNextPhys.memoryType
  | _, _ => false

def canMergeWith (v next : VirtualMemoryArea) : Bool :=
  if v.disallowMerge || next.disallowMerge then false
  else if v.base + v.size ≠ next.base then false
  else if v.type = .direct ∧ next.type = .direct ∧ ¬v.physicallyAdjacent next then false
  else if v.prot ≠ next.prot ∨ v.type ≠ next.type then false
  else v.name == next.name

/-- What `MergeAdjacent` makes of an area and the one after it. The physical
    areas of the second move up by the size of the first. -/
def join (v next : VirtualMemoryArea) : VirtualMemoryArea :=
  { v with
    size := v.size + next.size
    physAreas := StdMap.concat v.physAreas v.size next.physAreas }

/-- One turn of the loop in `Split` over the physical areas of the area that is
    cut at `offsetInVma`. The three tests exclude each other. -/
def splitPhysArea (offsetInVma : Nat) (parts : PhysMap × PhysMap)
    (e : Nat × PhysicalMemoryArea) : PhysMap × PhysMap :=
  let (old, new) := parts
  let (offset, region) := e
  -- Fully contained in first VMA
  let old := if offset + region.size ≤ offsetInVma then old.insert offset region else old
  -- Split between both VMAs
  let (old, new) :=
    if offset < offsetInVma ∧ offset + region.size > offsetInVma then
      let sizeInOld := offsetInVma - offset
      (old.insert offset { region with size := sizeInOld },
        new.insert 0 { region with
          base := region.base + sizeInOld, size := region.size - sizeInOld })
    else (old, new)
  -- Fully contained in new VMA
  let new := if offset ≥ offsetInVma then new.insert (offset - offsetInVma) region else new
  (old, new)

def splitPhysAreas (areas : PhysMap) (offsetInVma : Nat) : PhysMap × PhysMap :=
  areas.entries.foldl (splitPhysArea offsetInVma) (∅, ∅)

/-- The two areas `Split` makes of one. -/
def cut (v : VirtualMemoryArea) (offsetInVma : Nat) : VirtualMemoryArea × VirtualMemoryArea :=
  let old := { v with size := offsetInVma }
  let new := { v with base := v.base + offsetInVma, size := v.size - offsetInVma }
  if v.type.hasPhysicalBacking then
    let (oldAreas, newAreas) := splitPhysAreas v.physAreas offsetInVma
    ({ old with physAreas := oldAreas }, { new with physAreas := newAreas })
  else (old, new)

end VirtualMemoryArea

abbrev VMAMap := StdMap Nat VirtualMemoryArea

namespace VMAMap

def mergeAdjacent (map : VMAMap) (iter : Nat) : VMAMap × Nat :=
  StdMap.mergeAdjacent VirtualMemoryArea.canMergeWith VirtualMemoryArea.join map iter

def split (map : VMAMap) (vmaHandle offsetInVma : Nat) : Outcome (VMAMap × Nat) := do
  let oldVma ← deref (map.find? vmaHandle)
  assertMsg (offsetInVma < oldVma.size && offsetInVma > 0) ""
  let (oldVma, newVma) := oldVma.cut offsetInVma
  return ((map.insert vmaHandle oldVma).emplace newVma.base newVma, newVma.base)

/-- `FindVMA`. -/
def findVMA (map : VMAMap) (target : Nat) : Outcome (Nat × VirtualMemoryArea) :=
  deref (map.floor? target)

def carveVMA (map : VMAMap) (virtualAddr size : Nat) : Outcome (VMAMap × Nat) := do
  let (vmaHandle, vma) ← findVMA map virtualAddr
  assertMsg (vma.base ≤ virtualAddr) "Adding a mapping to already mapped region"
  let startInVma := virtualAddr - vma.base
  let endInVma := U64.add startInVma size
  if startInVma = 0 ∧ size = vma.size then
    -- if requesting the whole VMA, return it
    return (map, vmaHandle)
  assertMsg (endInVma ≤ vma.size) "Mapping cannot fit inside free region"
  let map ← (if endInVma ≠ vma.size then Prod.fst <$> split map vmaHandle endInVma
    else pure map : Outcome VMAMap)
  if startInVma ≠ 0 then split map vmaHandle startInVma else return (map, vmaHandle)

end VMAMap

/-! ## Splitting the physical areas -/

namespace VirtualMemoryArea

variable {areas : PhysMap} {n off k p : Nat} {a : PhysicalMemoryArea} {v w : VirtualMemoryArea}

/-- What the first area keeps of a piece. -/
private def leftPart (off : Nat) (e : Nat × PhysicalMemoryArea) :
    Option (Nat × PhysicalMemoryArea) :=
  if e.1 + e.2.size ≤ off then some e
  else if e.1 < off then some (e.1, { e.2 with size := off - e.1 })
  else none

/-- What the second area gets of a piece. -/
private def rightPart (off : Nat) (e : Nat × PhysicalMemoryArea) :
    Option (Nat × PhysicalMemoryArea) :=
  if off ≤ e.1 then some (e.1 - off, e.2)
  else if off < e.1 + e.2.size then
    some (0, { e.2 with base := e.2.base + (off - e.1), size := e.2.size - (off - e.1) })
  else none

private theorem leftPart_fst {e x : Nat × PhysicalMemoryArea} (h : leftPart off e = some x) :
    x.1 = e.1 := by
  simp only [leftPart] at h
  split at h
  · cases h
    rfl
  split at h
  · cases h
    rfl
  · cases h

private theorem foldl_splitPhysArea (es : List (Nat × PhysicalMemoryArea)) (old new : PhysMap) :
    es.foldl (splitPhysArea off) (old, new) =
      (old.insertAll (es.filterMap (leftPart off)), new.insertAll (es.filterMap (rightPart off))) := by
  induction es generalizing old new with
  | nil => rfl
  | cons e es ih =>
    rw [List.foldl_cons, splitPhysArea]
    simp only
    rw [ih, List.filterMap_cons, List.filterMap_cons]
    rcases Nat.lt_or_ge e.1 off with hlt | hge
    · rcases Nat.lt_or_ge off (e.1 + e.2.size) with hin | hout
      · simp [leftPart, rightPart, hlt, hin, Nat.not_le.2 hlt, Nat.not_le.2 hin]
      · simp [leftPart, rightPart, hout, Nat.not_le.2 hlt, Nat.not_lt.2 hout]
    · rcases Nat.lt_or_ge off (e.1 + e.2.size) with hin | hout
      · simp [leftPart, rightPart, hge, Nat.not_lt.2 hge, Nat.not_le.2 hin]
      · simp [leftPart, rightPart, hge, hout, Nat.not_lt.2 hge]

theorem find?_splitPhysAreas_left :
    (splitPhysAreas areas off).1.find? k = some a ↔
      ∃ b, areas.find? k = some b ∧ (k + b.size ≤ off ∧ a = b ∨
        k < off ∧ off < k + b.size ∧ a = { b with size := off - k }) := by
  have hkeys : (areas.entries.filterMap (leftPart off)).Pairwise fun e e' => e.1 ≠ e'.1 := by
    refine areas.sorted.filterMap _ ?_
    intro e e' hlt x hx y hy
    rw [leftPart_fst hx, leftPart_fst hy]
    exact ne_of_lt hlt
  rw [splitPhysAreas, foldl_splitPhysArea, StdMap.find?_insertAll hkeys]
  simp only [find?_empty, reduceCtorEq, and_false, or_false, List.mem_filterMap]
  constructor
  · rintro ⟨e, he, hpart⟩
    have hfind := StdMap.mem_entries_iff.1 he
    simp only [leftPart] at hpart
    split at hpart
    · cases hpart
      exact ⟨a, hfind, .inl ⟨by assumption, rfl⟩⟩
    split at hpart
    · cases hpart
      exact ⟨e.2, hfind, .inr ⟨by assumption, by omega, rfl⟩⟩
    · cases hpart
  · rintro ⟨b, hb, ⟨hle, rfl⟩ | ⟨hlt, hin, rfl⟩⟩
    · exact ⟨(k, a), StdMap.mem_entries_iff.2 hb, by simp [leftPart, hle]⟩
    · exact ⟨(k, b), StdMap.mem_entries_iff.2 hb, by simp [leftPart, hlt, Nat.not_le.2 hin]⟩

theorem find?_splitPhysAreas_right (h : areas.Tiles n) :
    (splitPhysAreas areas off).2.find? k = some a ↔
      areas.find? (k + off) = some a ∨
        k = 0 ∧ ∃ j b, areas.find? j = some b ∧ j < off ∧ off < j + b.size ∧
          a = { b with base := b.base + (off - j), size := b.size - (off - j) } := by
  have hkeys : (areas.entries.filterMap (rightPart off)).Pairwise fun e e' => e.1 ≠ e'.1 := by
    have hsep : areas.entries.Pairwise fun e e' => e.1 + e.2.size ≤ e'.1 ∧ 0 < e.2.size := by
      refine areas.sorted.imp_of_mem ?_
      intro e e' he he' hlt
      exact ⟨h.separated e.1 e.2 e'.1 e'.2 (StdMap.mem_entries_iff.1 he)
        (StdMap.mem_entries_iff.1 he') hlt, h.pos e.1 e.2 (StdMap.mem_entries_iff.1 he)⟩
    refine hsep.filterMap _ ?_
    rintro e e' ⟨hle, hpos⟩ x hx y hy
    simp only [rightPart] at hx hy
    split at hx
    · cases hx
      rw [if_pos (by omega)] at hy
      cases hy
      simp only
      omega
    · split at hx
      · cases hx
        rw [if_pos (by omega)] at hy
        cases hy
        simp only
        omega
      · cases hx
  rw [splitPhysAreas, foldl_splitPhysArea, StdMap.find?_insertAll hkeys]
  simp only [find?_empty, reduceCtorEq, and_false, or_false, List.mem_filterMap]
  constructor
  · rintro ⟨e, he, hpart⟩
    have hfind := StdMap.mem_entries_iff.1 he
    simp only [rightPart] at hpart
    split at hpart
    · cases hpart
      left
      rw [Nat.sub_add_cancel (by assumption)]
      exact hfind
    · split at hpart
      · cases hpart
        exact .inr ⟨rfl, e.1, e.2, hfind, by omega, by assumption, rfl⟩
      · cases hpart
  · rintro (hk | ⟨rfl, j, b, hj, hlt, hin, rfl⟩)
    · exact ⟨(k + off, a), StdMap.mem_entries_iff.2 hk, by simp [rightPart]⟩
    · exact ⟨(j, b), StdMap.mem_entries_iff.2 hj, by simp [rightPart, Nat.not_le.2 hlt, hin]⟩

theorem separated_splitPhysAreas_left (h : areas.Backs n) : StdMap.Separated (splitPhysAreas areas off).1 := by
  intro j c k d hj hk hjk
  obtain ⟨c', hc', hc⟩ := find?_splitPhysAreas_left.1 hj
  obtain ⟨d', hd', hd⟩ := find?_splitPhysAreas_left.1 hk
  have := h.separated j c' k d' hc' hd' hjk
  simp only [PhysicalMemoryArea.area_size] at this ⊢
  rcases hc with ⟨-, rfl⟩ | ⟨hjo, hin, rfl⟩
  · exact this
  · simp only
    omega

theorem separated_splitPhysAreas_right (h : areas.Backs n) :
    StdMap.Separated (splitPhysAreas areas off).2 := by
  intro j c k d hj hk hjk
  rw [find?_splitPhysAreas_right h.toTiles] at hj hk
  simp only [PhysicalMemoryArea.area_size]
  rcases hj with hj | ⟨rfl, i, c', hi, hio, hin, rfl⟩
  · rcases hk with hk | ⟨rfl, -⟩
    · have := h.separated _ c _ d hj hk (by omega)
      simp only [PhysicalMemoryArea.area_size] at this
      omega
    · omega
  · rcases hk with hk | ⟨rfl, -⟩
    · have := h.separated i c' _ d hi hk (by omega)
      simp only [PhysicalMemoryArea.area_size] at this
      simp only
      omega
    · omega

theorem at?_splitPhysAreas_left {o : Nat} (h : areas.Backs n) (hlt : off < n) (ho : o < off) :
    (splitPhysAreas areas off).1.at? o = areas.at? o := by
  have hsep := @separated_splitPhysAreas_left areas n off h
  obtain ⟨x, hx⟩ := h.covered o (by omega)
  obtain ⟨k, b, hk, hko, hob, rfl⟩ := exists_of_at? hx
  rw [hx]
  by_cases hin : off < k + b.size
  · rw [at?_of_find? hsep (find?_splitPhysAreas_left.2
      ⟨b, hk, .inr ⟨by omega, hin, rfl⟩⟩) hko (by simp only [PhysicalMemoryArea.area_size]; omega)]
    rfl
  · exact at?_of_find? hsep (find?_splitPhysAreas_left.2
      ⟨b, hk, .inl ⟨by omega, rfl⟩⟩) hko hob

theorem at?_splitPhysAreas_right {o : Nat} (h : areas.Backs n) (ho : o < n - off) :
    (splitPhysAreas areas off).2.at? o = areas.at? (off + o) := by
  have hsep := @separated_splitPhysAreas_right areas n off h
  obtain ⟨x, hx⟩ := h.covered (off + o) (by omega)
  obtain ⟨k, b, hk, hko, hob, rfl⟩ := exists_of_at? hx
  simp only [PhysicalMemoryArea.area_size] at hob
  rw [hx]
  rcases Nat.lt_or_ge k off with hlt | hge
  · rw [at?_of_find? hsep ((find?_splitPhysAreas_right h.toTiles).2
      (.inr ⟨rfl, k, b, hk, hlt, by omega, rfl⟩)) (Nat.zero_le o)
      (by simp only [PhysicalMemoryArea.area_size]; omega)]
    simp only [PhysicalMemoryArea.area_byte, Option.some.injEq, PhysByte.mk.injEq, and_self,
      and_true]
    omega
  · rw [at?_of_find? (k := k - off) (a := b) hsep
      ((find?_splitPhysAreas_right h.toTiles).2 (.inl (by rw [Nat.sub_add_cancel hge]; exact hk)))
      (by omega) (by simp only [PhysicalMemoryArea.area_size]; omega)]
    simp only [PhysicalMemoryArea.area_byte, Option.some.injEq, PhysByte.mk.injEq, and_self,
      and_true]
    omega

theorem backs_splitPhysAreas_left (h : areas.Backs n) (hlt : off < n) :
    (splitPhysAreas areas off).1.Backs off := by
  refine ⟨⟨separated_splitPhysAreas_left h, ?_, ?_, ?_⟩, ?_⟩
  · intro k b hk
    obtain ⟨c, hc, ⟨-, rfl⟩ | ⟨hlt, hin, rfl⟩⟩ := find?_splitPhysAreas_left.1 hk
    · exact h.pos k b hc
    · simp only [PhysicalMemoryArea.area_size]
      omega
  · intro k b hk
    obtain ⟨c, hc, ⟨hle, rfl⟩ | ⟨hlt, hin, rfl⟩⟩ := find?_splitPhysAreas_left.1 hk
    · exact hle
    · simp only [PhysicalMemoryArea.area_size]
      omega
  · intro o ho
    rw [at?_splitPhysAreas_left h hlt ho]
    exact h.covered o (by omega)
  · intro k b hk
    obtain ⟨c, hc, ⟨-, rfl⟩ | ⟨hlt, hin, rfl⟩⟩ := find?_splitPhysAreas_left.1 hk
    · exact h.phys_lt k b hc
    · have := h.phys_lt k c hc
      simp only
      omega

theorem backs_splitPhysAreas_right (h : areas.Backs n) : (splitPhysAreas areas off).2.Backs (n - off) := by
  have hle := h.le
  simp only [PhysicalMemoryArea.area_size] at hle
  refine ⟨⟨separated_splitPhysAreas_right h, ?_, ?_, ?_⟩, ?_⟩
  · intro k b hk
    rcases (find?_splitPhysAreas_right h.toTiles).1 hk with hk | ⟨-, j, c, hj, hlt, hin, rfl⟩
    · exact h.pos _ b hk
    · simp only [PhysicalMemoryArea.area_size]
      omega
  · intro k b hk
    simp only [PhysicalMemoryArea.area_size]
    rcases (find?_splitPhysAreas_right h.toTiles).1 hk with hk | ⟨rfl, j, c, hj, hlt, hin, rfl⟩
    · have := hle _ b hk
      omega
    · have := hle j c hj
      simp only
      omega
  · intro o ho
    rw [at?_splitPhysAreas_right h ho]
    exact h.covered _ (by omega)
  · intro k b hk
    rcases (find?_splitPhysAreas_right h.toTiles).1 hk with hk | ⟨-, j, c, hj, hlt, hin, rfl⟩
    · exact h.phys_lt _ b hk
    · have := h.phys_lt j c hj
      simp only
      omega

/-- Cutting a backing in two gives two backings, and every byte keeps the
    physical byte behind it. -/
theorem backs_splitPhysAreas (h : areas.Backs n) (hlt : off < n) :
    (splitPhysAreas areas off).1.Backs off ∧ (splitPhysAreas areas off).2.Backs (n - off) ∧
      (∀ o, o < off → (splitPhysAreas areas off).1.at? o = areas.at? o) ∧
      ∀ o, (splitPhysAreas areas off).2.at? o = areas.at? (off + o) := by
  have hright := @backs_splitPhysAreas_right areas n off h
  refine ⟨backs_splitPhysAreas_left h hlt, hright, fun o ho => at?_splitPhysAreas_left h hlt ho, ?_⟩
  intro o
  rcases Nat.lt_or_ge o (n - off) with ho | ho
  · exact at?_splitPhysAreas_right h ho
  · rw [hright.toTiles.at?_eq_none ho, h.toTiles.at?_eq_none (by omega)]

/-! ## Well-formed areas -/

/-- An area that is not empty, whose physical areas back exactly its bytes if its
    type has a backing and are absent otherwise. A free area has the attributes
    the constructor and `UnmapBytesFromEntry` give it, so that two free
    neighbours can always be merged. -/
structure WF (v : VirtualMemoryArea) : Prop where
  pos : 0 < v.size
  backed : v.type.hasPhysicalBacking → v.physAreas.Backs v.size
  unbacked : v.type.hasPhysicalBacking = false → v.physAreas = ∅
  free : v.type = .free → v.prot = .noAccess ∧ v.name = "" ∧ v.disallowMerge = false

theorem at?_empty : (∅ : PhysMap).at? p = none := rfl

theorem WF.cut (h : v.WF) (hpos : 0 < off) (hlt : off < v.size) :
    StdMap.Cut v off (v.cut off).1 (v.cut off).2 ∧ (v.cut off).1.WF ∧ (v.cut off).2.WF := by
  unfold VirtualMemoryArea.cut
  split
  · rename_i hback
    obtain ⟨hL, hR, hatL, hatR⟩ := backs_splitPhysAreas (h.backed hback) hlt
    refine ⟨⟨hpos, Nat.le_of_lt hlt, rfl, rfl, ?_, ?_⟩, ⟨hpos, fun _ => hL, ?_, h.free⟩,
      ⟨Nat.sub_pos_of_lt hlt, fun _ => hR, ?_, h.free⟩⟩
    · intro o ho
      simp [hatL o ho]
    · intro o _
      simp [hatR o]
    · simp [hback]
    · simp [hback]
  · rename_i hback
    simp only [Bool.not_eq_true] at hback
    have hnone := h.unbacked hback
    refine ⟨⟨hpos, Nat.le_of_lt hlt, rfl, rfl, fun o _ => rfl, ?_⟩,
      ⟨hpos, by simp [hback], fun _ => hnone, h.free⟩,
      ⟨Nat.sub_pos_of_lt hlt, by simp [hback], fun _ => hnone, h.free⟩⟩
    intro o _
    simp [hnone, at?_empty]

@[simp] theorem cut_fst_base : (v.cut off).1.base = v.base := by
  unfold VirtualMemoryArea.cut
  split <;> rfl

@[simp] theorem cut_snd_base : (v.cut off).2.base = v.base + off := by
  unfold VirtualMemoryArea.cut
  split <;> rfl

@[simp] theorem cut_fst_size : (v.cut off).1.size = off := by
  unfold VirtualMemoryArea.cut
  split <;> rfl

@[simp] theorem cut_snd_size : (v.cut off).2.size = v.size - off := by
  unfold VirtualMemoryArea.cut
  split <;> rfl

@[simp] theorem cut_fst_type : (v.cut off).1.type = v.type := by
  unfold VirtualMemoryArea.cut
  split <;> rfl

@[simp] theorem cut_snd_type : (v.cut off).2.type = v.type := by
  unfold VirtualMemoryArea.cut
  split <;> rfl

/-- What two areas that may be merged have in common. -/
theorem canMergeWith_iff : v.canMergeWith w ↔
    v.disallowMerge = false ∧ w.disallowMerge = false ∧ v.base + v.size = w.base ∧
      (v.type = .direct → v.physicallyAdjacent w) ∧ v.prot = w.prot ∧ v.type = w.type ∧
      v.name = w.name := by
  unfold canMergeWith
  constructor
  · intro h
    split at h
    · cases h
    split at h
    · cases h
    split at h
    · cases h
    split at h
    · cases h
    rename_i hd hb hadj hpt
    simp only [Bool.or_eq_true, not_or, Bool.not_eq_true] at hd
    simp only [not_or, ne_eq, Decidable.not_not] at hb hpt
    refine ⟨hd.1, hd.2, hb, ?_, hpt.1, hpt.2, by simpa using h⟩
    intro hdir
    by_contra hno
    exact hadj ⟨hdir, hpt.2 ▸ hdir, hno⟩
  · rintro ⟨hv, hw, hbase, hadj, hprot, htype, hname⟩
    rw [if_neg (by simp [hv, hw]), if_neg (by simp [hbase]), if_neg, if_neg (by simp [hprot, htype])]
    · simp [hname]
    · rintro ⟨hdir, -, hno⟩
      exact hno (hadj hdir)

theorem WF.join (hv : v.WF) (hw : w.WF) (hcan : v.canMergeWith w) :
    StdMap.Cut (v.join w) v.size v w ∧ (v.join w).WF := by
  obtain ⟨hdv, hdw, hbase, -, hprot, htype, hname⟩ := canMergeWith_iff.1 hcan
  have hvpos := hv.pos
  have hwpos := hw.pos
  cases hback : v.type.hasPhysicalBacking with
  | true =>
    have hbv := hv.backed hback
    have hbw := hw.backed (htype ▸ hback)
    obtain ⟨htiles, hat⟩ := hbv.toTiles.concat hbw.toTiles
    refine ⟨⟨hvpos, ?_, rfl, ?_, ?_, ?_⟩, ⟨?_, ?_, ?_, ?_⟩⟩
    · simp [VirtualMemoryArea.join]
    · simp [VirtualMemoryArea.join]
    · intro o ho
      simp [VirtualMemoryArea.join, hat, ho]
    · intro o _
      simp [VirtualMemoryArea.join, hat, hprot, htype, hname, hdv, hdw]
    · simp only [VirtualMemoryArea.join]
      omega
    · intro _
      refine ⟨htiles, ?_⟩
      intro k a hk
      rcases hbv.toTiles.find?_concat.1 hk with ⟨-, hk⟩ | hk
      · exact hbw.phys_lt _ a hk
      · exact hbv.phys_lt k a hk
    · simp [VirtualMemoryArea.join, hback]
    · exact hv.free
  | false =>
    have hnv := hv.unbacked hback
    have hnw := hw.unbacked (htype ▸ hback)
    have hcat : StdMap.concat (∅ : PhysMap) v.size ∅ = ∅ := rfl
    refine ⟨⟨hvpos, ?_, rfl, ?_, ?_, ?_⟩, ⟨?_, ?_, ?_, ?_⟩⟩
    · simp [VirtualMemoryArea.join]
    · simp [VirtualMemoryArea.join]
    · intro o _
      simp [VirtualMemoryArea.join, hcat, hnv, hnw]
    · intro o _
      simp [VirtualMemoryArea.join, hcat, hnv, hnw, hprot, htype, hname, hdv, hdw, at?_empty]
    · simp only [VirtualMemoryArea.join]
      omega
    · simp [VirtualMemoryArea.join, hback]
    · intro _
      simp only [VirtualMemoryArea.join, hnv, hnw, hcat]
    · exact hv.free

/-- Two free areas that touch can be merged. -/
theorem WF.canMergeWith_of_free (hv : v.WF) (hw : w.WF) (hvf : v.type = .free)
    (hwf : w.type = .free) (hbase : v.base + v.size = w.base) : v.canMergeWith w := by
  obtain ⟨hvp, hvn, hvd⟩ := hv.free hvf
  obtain ⟨hwp, hwn, hwd⟩ := hw.free hwf
  refine canMergeWith_iff.2 ⟨hvd, hwd, hbase, ?_, hvp.trans hwp.symm, hvf.trans hwf.symm,
    hvn.trans hwn.symm⟩
  intro hdir
  rw [hvf] at hdir
  cases hdir

end VirtualMemoryArea

/-! ## Well-formed maps -/

namespace VMAMap

structure WF (map : VMAMap) : Prop where
  key : ∀ k v, map.find? k = some v → v.base = k
  separated : map.Separated
  entry : ∀ k v, map.find? k = some v → v.WF
  end_lt : ∀ k v, map.find? k = some v → k + v.size < 2 ^ 64

variable {map map' : VMAMap} {k off addr size p : Nat} {v v' : VirtualMemoryArea}

theorem WF.joinsSoundly (h : map.WF) :
    StdMap.JoinsSoundly VirtualMemoryArea.canMergeWith VirtualMemoryArea.join map := by
  intro k v j w hk hj hcan
  have hjw := (StdMap.next?_eq_some.1 hj).1
  have hbase := (VirtualMemoryArea.canMergeWith_iff.1 hcan).2.2.1
  have hkv := h.key k v hk
  have hjw' := h.key j w hjw
  refine ⟨?_, ((h.entry k v hk).join (h.entry j w hjw) hcan).1⟩
  simp only [VirtualMemoryArea.area_size]
  omega

theorem WF.joined (h : map.WF)
    (hj : StdMap.Joined VirtualMemoryArea.canMergeWith VirtualMemoryArea.join map map') :
    map'.WF where
  key := hj.forall_entry h.key fun k v _ _ hk _ _ => h.key k v hk
  separated := hj.separated h.separated h.joinsSoundly
  entry := hj.forall_entry h.entry fun k v j w hk hj hcan =>
    ((h.entry k v hk).join (h.entry j w (StdMap.next?_eq_some.1 hj).1) hcan).2
  end_lt := by
    refine hj.forall_entry h.end_lt ?_
    intro k v j w hk hj hcan
    obtain ⟨rfl, -⟩ := h.joinsSoundly k v j w hk hj hcan
    have := h.end_lt _ w (StdMap.next?_eq_some.1 hj).1
    simp only [VirtualMemoryArea.area_size] at this
    simp only [VirtualMemoryArea.join]
    omega

theorem WF.mergeAdjacent (h : map.WF) :
    (mergeAdjacent map k).1.WF ∧ ∀ p, (mergeAdjacent map k).1.at? p = map.at? p := by
  refine StdMap.mergeAdjacent_induction
    (P := fun m => VMAMap.WF m ∧ ∀ p, m.at? p = map.at? p) ⟨h, fun _ => rfl⟩ ?_
  rintro m m' ⟨hm, heq⟩ hj
  exact ⟨hm.joined hj, fun p => (hj.at?_eq hm.separated hm.joinsSoundly).trans (heq p)⟩

variable {r : VMAMap × Nat} {w : VirtualMemoryArea}

/-- What `split` does when it returns. -/
theorem split_eq_ok (h : map.WF) (hr : split map k off = .ok r) :
    ∃ v, map.find? k = some v ∧ 0 < off ∧ off < v.size ∧
      r = ((map.insert k (v.cut off).1).insert (k + off) (v.cut off).2, k + off) := by
  simp only [split, bind_eq_ok, deref_eq_ok, assertMsg_eq_ok, Bool.and_eq_true,
    decide_eq_true_eq, pure_eq_ok] at hr
  obtain ⟨v, hv, -, ⟨hlt, hpos⟩, rfl⟩ := hr
  refine ⟨v, hv, hpos, hlt, ?_⟩
  have hfree : (map.insert k (v.cut off).1).find? (k + off) = none := by
    rw [find?_insert, if_neg (by omega)]
    exact h.separated.find?_inside hv hpos hlt
  rw [VirtualMemoryArea.cut_snd_base, h.key k v hv, StdMap.emplace_of_find?_eq_none hfree]

theorem WF.split (h : map.WF) (hr : split map k off = .ok r) : r.1.WF ∧ ∀ p, r.1.at? p = map.at? p := by
  obtain ⟨v, hv, hpos, hlt, rfl⟩ := split_eq_ok h hr
  have hfree := h.separated.find?_inside hv hpos hlt
  obtain ⟨hcut, hwl, hwr⟩ := (h.entry k v hv).cut hpos hlt
  have hend := h.end_lt k v hv
  have hkey := h.key k v hv
  refine ⟨⟨?_, h.separated.split hv hcut hfree, ?_, ?_⟩,
    fun p => StdMap.at?_split h.separated hv hcut hfree⟩
  · intro j w hj
    simp only [find?_insert] at hj
    split at hj
    · cases hj
      simp_all
    split at hj
    · cases hj
      simp_all
    · exact h.key j w hj
  · intro j w hj
    simp only [find?_insert] at hj
    split at hj
    · cases hj
      exact hwr
    split at hj
    · cases hj
      exact hwl
    · exact h.entry j w hj
  · intro j w hj
    simp only [find?_insert] at hj
    split at hj
    · cases hj
      simp only [VirtualMemoryArea.cut_snd_size]
      omega
    split at hj
    · cases hj
      simp only [VirtualMemoryArea.cut_fst_size]
      omega
    · exact h.end_lt j w hj

/-! ## Carving -/

/-- The bytes `[addr, addr + size)`, at least one, lie in the area `v`. -/
structure Carved (map : VMAMap) (addr size : Nat) (v : VirtualMemoryArea) : Prop where
  mem : map.find? v.base = some v
  le : v.base ≤ addr
  fits : addr + size ≤ v.base + v.size
  pos : 0 < size

theorem Carved.floor? (h : map.WF) (hc : Carved map addr size v) :
    map.floor? addr = some (v.base, v) := by
  have hpos := hc.pos
  have hfits := hc.fits
  exact StdMap.floor?_of_mem h.separated hc.mem hc.le
    (by simp only [VirtualMemoryArea.area_size]; omega)

/-- The area at `k` is cut at `off`: its first part is still at `k`, the second one is the only new entry. -/
theorem WF.split_entries (h : map.WF) (hk : map.find? k = some v) (hr : VMAMap.split map k off = .ok r) :
    0 < off ∧ off < v.size ∧ r.2 = k + off ∧ r.1.find? k = some (v.cut off).1 ∧
      r.1.find? (k + off) = some (v.cut off).2 ∧
      ∀ j, (r.1.find? j).isSome → (map.find? j).isSome ∨ j = k + off := by
  obtain ⟨w, hw, hpos, hlt, rfl⟩ := split_eq_ok h hr
  obtain rfl : v = w := Option.some.inj (hk.symm.trans hw)
  refine ⟨hpos, hlt, rfl, ?_, by simp, ?_⟩
  · simp only [find?_insert]
    rw [if_neg (by omega), if_pos trivial]
  · intro j hj
    simp only [find?_insert] at hj
    split at hj
    · exact .inr (by assumption)
    split at hj
    · rename_i hjk
      exact .inl (by simp [hjk, hk])
    · exact .inl hj

/-- The area at `k` has lost what is behind `off`, if there is any. -/
structure Shortened (map map' : VMAMap) (k off : Nat) (v v' : VirtualMemoryArea) : Prop where
  wf : map'.WF
  at_eq : ∀ p, map'.at? p = map.at? p
  entry : map'.find? k = some v'
  size_eq : v'.size = off
  type : v'.type = v.type
  keys : ∀ j, (map'.find? j).isSome → (map.find? j).isSome ∨ j = k + off

/-- What follows the range is cut off. -/
theorem WF.shorten (h : map.WF) (hk : map.find? k = some v)
    (hr : (if off ≠ v.size then Prod.fst <$> VMAMap.split map k off else pure map : Outcome VMAMap) = .ok map') :
    ∃ v', Shortened map map' k off v v' := by
  split at hr
  · obtain ⟨r, hsplit, rfl⟩ := Outcome.map_eq_ok.1 hr
    obtain ⟨hwf, hat⟩ := h.split hsplit
    obtain ⟨-, -, -, hfst, -, hkeys⟩ := h.split_entries hk hsplit
    exact ⟨_, hwf, hat, hfst, by simp, by simp, hkeys⟩
  · rename_i heq
    simp only [ne_eq, Decidable.not_not] at heq
    rw [pure_eq_ok] at hr
    subst hr
    exact ⟨v, h, fun _ => rfl, hk, heq.symm, rfl, fun _ hj => .inl hj⟩

/-- `CarveVMA` changes no byte and leaves an entry for exactly the range. The
    only new seams are the two ends of the range. -/
theorem WF.carveVMA (h : map.WF) (haddr : addr < 2 ^ 64) (hsize : size < 2 ^ 64)
    (hr : carveVMA map addr size = .ok r) : r.1.WF ∧ (∀ p, r.1.at? p = map.at? p) ∧ r.2 = addr ∧
      (∃ v v', Carved map addr size v ∧ r.1.find? addr = some v' ∧ v'.size = size ∧
        v'.type = v.type) ∧
      ∀ k, (r.1.find? k).isSome → (map.find? k).isSome ∨ k = addr ∨ k = addr + size := by
  simp only [VMAMap.carveVMA, findVMA, bind_eq_ok, deref_eq_ok, assertMsg_eq_ok,
    decide_eq_true_eq] at hr
  obtain ⟨⟨k, v⟩, hfloor, -, hle, hr⟩ := hr
  obtain ⟨hk, hkv, -⟩ := StdMap.floor?_eq_some.1 hfloor
  simp only at hk hkv hle hr
  have hbase := h.key k v hk
  have hend := h.end_lt k v hk
  have hpos := (h.entry k v hk).pos
  have hmem : map.find? v.base = some v := by rw [hbase]; exact hk
  rw [hbase] at hle hr
  split at hr
  · -- the range is a whole area
    rename_i hwhole
    rw [pure_eq_ok] at hr
    subst hr
    have hkaddr : k = addr := by omega
    subst hkaddr
    exact ⟨h, fun _ => rfl, rfl, ⟨v, v, ⟨hmem, by omega, by omega, by omega⟩, hk, hwhole.2.symm, rfl⟩,
      fun _ hj => .inl hj⟩
  simp only [bind_eq_ok, assertMsg_eq_ok, decide_eq_true_eq] at hr
  obtain ⟨-, hfits, m₁, hm₁, hr⟩ := hr
  obtain ⟨v₁, hshort⟩ := h.shorten hk hm₁
  have hpos₁ := (hshort.wf.entry k v₁ hshort.entry).pos
  have hsize₁ := hshort.size_eq
  split at hr
  · -- what precedes the range is cut off; the sum cannot have wrapped
    obtain ⟨hwf, hat⟩ := hshort.wf.split hr
    obtain ⟨-, hlt, hhandle, -, hsnd, hkeys⟩ := hshort.wf.split_entries hshort.entry hr
    have hadd : U64.add (addr - k) size = addr - k + size := by
      simp only [U64.add] at hsize₁ ⊢
      omega
    have hka : k + (addr - k) = addr := by omega
    rw [hka] at hhandle hsnd
    refine ⟨hwf, fun p => (hat p).trans (hshort.at_eq p), hhandle,
      ⟨v, (v₁.cut (addr - k)).2, ⟨hmem, by omega, by omega, by omega⟩, hsnd, ?_, ?_⟩, ?_⟩
    · rw [VirtualMemoryArea.cut_snd_size]
      omega
    · rw [VirtualMemoryArea.cut_snd_type, hshort.type]
    · intro j hj
      rcases hkeys j hj with hj | hj
      · rcases hshort.keys j hj with hj | hj
        · exact .inl hj
        · exact .inr (.inr (by omega))
      · exact .inr (.inl (by omega))
  · rename_i heq
    simp only [ne_eq, Decidable.not_not] at heq
    rw [pure_eq_ok] at hr
    subst hr
    have hkaddr : k = addr := by omega
    subst hkaddr
    have hadd : U64.add (k - k) size = size := by
      simp only [U64.add]
      omega
    rw [hadd] at hsize₁ hfits
    have hkeys := hshort.keys
    rw [hadd] at hkeys
    refine ⟨hshort.wf, hshort.at_eq, rfl,
      ⟨v, v₁, ⟨hmem, by omega, by omega, by omega⟩, hshort.entry, hsize₁, hshort.type⟩, ?_⟩
    intro j hj
    rcases hkeys j hj with hj | hj
    · exact .inl hj
    · exact .inr (.inr hj)

/-- A range that lies in one area can be carved. -/
theorem WF.exists_carveVMA (h : map.WF) (hk : map.find? k = some v) (hle : k ≤ addr)
    (hfits : addr + size ≤ k + v.size) (hpos : 0 < size) : ∃ r, VMAMap.carveVMA map addr size = .ok r := by
  have hbase := h.key k v hk
  have hend := h.end_lt k v hk
  have hfloor : map.floor? addr = some (k, v) :=
    StdMap.floor?_of_mem h.separated hk hle (by simp only [VirtualMemoryArea.area_size]; omega)
  have hadd : U64.add (addr - v.base) size = addr - k + size := by
    rw [hbase, U64.add_of_lt (by omega)]
  have hsplit : ∀ {m : VMAMap} {w : VirtualMemoryArea} (off : Nat), m.find? k = some w →
      0 < off → off < w.size → ∃ r, VMAMap.split m k off = .ok r := by
    intro m w off hw hpos hlt
    simp only [VMAMap.split, bind_eq_ok, deref_eq_ok, assertMsg_eq_ok, Bool.and_eq_true,
      decide_eq_true_eq]
    exact ⟨_, w, hw, (), ⟨hlt, hpos⟩, rfl⟩
  -- what follows the range is cut off first; the area then ends where the range does
  obtain ⟨m₁, hm₁, w, hw, hsize⟩ : ∃ m₁, (if U64.add (addr - v.base) size ≠ v.size then
        Prod.fst <$> VMAMap.split map k (U64.add (addr - v.base) size) else pure map : Outcome VMAMap) =
      .ok m₁ ∧ ∃ w, m₁.find? k = some w ∧ w.size = addr - k + size := by
    by_cases hwhole : addr - k + size = v.size
    · exact ⟨map, by rw [if_neg (by omega)]; rfl, v, hk, hwhole.symm⟩
    obtain ⟨r, hr⟩ := hsplit (addr - k + size) hk (by omega) (by omega)
    obtain ⟨-, -, -, hfst, -⟩ := h.split_entries hk hr
    exact ⟨r.1, by rw [hadd, if_pos hwhole, hr]; rfl, (v.cut (addr - k + size)).1, hfst, by simp⟩
  simp only [VMAMap.carveVMA, findVMA, bind_eq_ok, deref_eq_ok, assertMsg_eq_ok,
    decide_eq_true_eq]
  suffices hrest : ∃ r, (if addr - v.base = 0 ∧ size = v.size then pure (map, k) else do
      assertMsg (U64.add (addr - v.base) size ≤ v.size) "Mapping cannot fit inside free region"
      let m ← (if U64.add (addr - v.base) size ≠ v.size then
        Prod.fst <$> VMAMap.split map k (U64.add (addr - v.base) size) else pure map : Outcome VMAMap)
      if addr - v.base ≠ 0 then VMAMap.split m k (addr - v.base) else return (m, k) :
        Outcome (VMAMap × Nat)) = .ok r by
    obtain ⟨r, hr⟩ := hrest
    exact ⟨r, (k, v), hfloor, (), by simp only; omega, hr⟩
  split
  · exact ⟨_, rfl⟩
  simp only [bind_eq_ok, assertMsg_eq_ok, decide_eq_true_eq]
  by_cases hstart : addr - v.base = 0
  · exact ⟨_, (), by omega, m₁, hm₁, by rw [if_neg (by simpa using hstart)]; rfl⟩
  · obtain ⟨r, hr⟩ := hsplit (addr - v.base) hw (by omega) (by omega)
    exact ⟨r, (), by omega, m₁, hm₁, by rw [if_pos hstart]; exact hr⟩

/-- Changing the entry of an area, not its place. -/
theorem WF.insert (h : map.WF) (hk : map.find? k = some v) (hw : v'.WF)
    (hbase : v'.base = k) (hsize : v'.size = v.size) :
    VMAMap.WF (map.insert k v') ∧ ∀ p, (map.insert k v').at? p =
      if k ≤ p ∧ p < k + v.size then some (Area.byte v' (p - k)) else map.at? p := by
  refine ⟨⟨?_, h.separated.insert_of_size_le hk (by simp [hsize]), ?_, ?_⟩,
    fun p => StdMap.at?_insert_of_size_eq h.separated hk hsize⟩
  · intro j w hj
    simp only [find?_insert] at hj
    split at hj
    · cases hj
      simp_all
    · exact h.key j w hj
  · intro j w hj
    simp only [find?_insert] at hj
    split at hj
    · cases hj
      exact hw
    · exact h.entry j w hj
  · intro j w hj
    simp only [find?_insert] at hj
    split at hj
    · rename_i hjk
      cases hj
      have := h.end_lt k v hk
      omega
    · exact h.end_lt j w hj

/-! ## Free neighbours -/

/-- The byte at `k` and the one after it are both free. -/
def FreeSeam (map : VMAMap) (k : Nat) : Prop :=
  ∃ x y, map.at? k = some x ∧ map.at? (k + 1) = some y ∧ x.type = .free ∧ y.type = .free

/-- No area starts between two free bytes. -/
def Coalesced (map : VMAMap) : Prop :=
  ∀ k, (map.find? (k + 1)).isSome → ¬map.FreeSeam k

/-- Maps with the same bytes and no new seams. -/
theorem Coalesced.of_at?_eq (h : map.Coalesced) (hat : ∀ p, map'.at? p = map.at? p)
    (hkeys : ∀ k, (map'.find? k).isSome → (map.find? k).isSome) : map'.Coalesced := by
  intro k hk
  rintro ⟨x, y, hx, hy, hxf, hyf⟩
  rw [hat] at hx hy
  exact h k (hkeys _ hk) ⟨x, y, hx, hy, hxf, hyf⟩

theorem keys_mergeAdjacent (hk : ((mergeAdjacent map addr).1.find? k).isSome) :
    (map.find? k).isSome := by
  refine StdMap.mergeAdjacent_induction (P := fun m => (m.find? k).isSome → (map.find? k).isSome)
    (fun h => h) ?_ hk
  intro m m' hm hj hk
  exact hm (hj.find?_isSome hk)

private theorem keys_mergeNext
    (hk : ((StdMap.mergeNext VirtualMemoryArea.canMergeWith VirtualMemoryArea.join map addr).find?
      k).isSome) : (map.find? k).isSome := by
  rcases StdMap.mergeNext_cases VirtualMemoryArea.canMergeWith VirtualMemoryArea.join map addr with h | h
  · rwa [h] at hk
  · exact h.find?_isSome hk

theorem WF.mergeNext (h : map.WF) :
    VMAMap.WF (StdMap.mergeNext VirtualMemoryArea.canMergeWith VirtualMemoryArea.join map addr) ∧
      ∀ p, (StdMap.mergeNext VirtualMemoryArea.canMergeWith VirtualMemoryArea.join map addr).at? p =
        map.at? p := by
  rcases StdMap.mergeNext_cases VirtualMemoryArea.canMergeWith VirtualMemoryArea.join map addr with hj | hj
  · rw [hj]
    exact ⟨h, fun _ => rfl⟩
  · exact ⟨h.joined hj, fun p => hj.at?_eq h.separated h.joinsSoundly⟩

theorem WF.type_of_at? (h : map.WF) (hk : map.find? k = some v) {x : VirtByte}
    (hx : map.at? k = some x) : x.type = v.type := by
  have hpos := (h.entry k v hk).pos
  rw [at?_of_find? h.separated hk (Nat.le_refl k) (by simp [hpos])] at hx
  cases hx
  rfl

/-- The seam before the entry at `k + 1` is gone after the second half of
    `MergeAdjacent`. -/
private theorem WF.not_freeSeam_mergePrev (h : map.WF)
    (hk : ((StdMap.mergePrev VirtualMemoryArea.canMergeWith VirtualMemoryArea.join map
      (k + 1)).1.find? (k + 1)).isSome) : ¬map.FreeSeam k := by
  rintro ⟨x, y, hx, hy, hxf, hyf⟩
  have hfind : (map.find? (k + 1)).isSome := by
    rcases StdMap.mergePrev_cases VirtualMemoryArea.canMergeWith VirtualMemoryArea.join map (k + 1) with hj | hj
    · rwa [hj] at hk
    · exact hj.find?_isSome hk
  obtain ⟨w, hw⟩ := Option.isSome_iff_exists.1 hfind
  obtain ⟨j, u, hj, hle, hlt, rfl⟩ := exists_of_at? hx
  have htouch := h.separated j u (k + 1) w hj hw (by omega)
  simp only [VirtualMemoryArea.area_size] at hlt htouch
  have hprev : map.prev? (k + 1) = some (j, u) := by
    refine StdMap.prev?_eq_some.2 ⟨hj, by simp only; omega, ?_⟩
    intro i c hi hik
    by_contra hji
    have := h.separated j u i c hj hi (by simpa using hji)
    simp only [VirtualMemoryArea.area_size] at this
    omega
  have hju := h.key j u hj
  have hwk := h.key (k + 1) w hw
  have hcan := (h.entry j u hj).canMergeWith_of_free (h.entry _ w hw) hxf
    ((h.type_of_at? hw hy).symm.trans hyf) (by omega)
  rw [StdMap.mergePrev_removes hprev hw hcan] at hk
  simp at hk

/-- The seam after the entry at `addr` is gone after the first half. -/
private theorem WF.not_freeSeam_mergeNext (h : map.WF) (hv : map.find? addr = some v)
    (hend : addr + v.size = k + 1)
    (hk : ((StdMap.mergeNext VirtualMemoryArea.canMergeWith VirtualMemoryArea.join map addr).find?
      (k + 1)).isSome) : ¬map.FreeSeam k := by
  rintro ⟨x, y, hx, hy, hxf, hyf⟩
  obtain ⟨w, hw⟩ := Option.isSome_iff_exists.1 (keys_mergeNext hk)
  have hpos := (h.entry addr v hv).pos
  have hvf : v.type = .free := by
    rw [at?_of_find? h.separated hv (by omega)
      (by simp only [VirtualMemoryArea.area_size]; omega)] at hx
    cases hx
    exact hxf
  have hnext : map.next? addr = some (k + 1, w) := by
    refine StdMap.next?_eq_some.2 ⟨hw, by simp only; omega, ?_⟩
    intro i c hi hik
    have := h.separated addr v i c hv hi hik
    simp only [VirtualMemoryArea.area_size] at this
    simp only
    omega
  have hbv := h.key addr v hv
  have hbw := h.key (k + 1) w hw
  have hcan := (h.entry addr v hv).canMergeWith_of_free (h.entry _ w hw) hvf
    ((h.type_of_at? hw hy).symm.trans hyf) (by omega)
  rw [StdMap.mergeNext_removes hv hnext hcan] at hk
  simp at hk

/-- Coalescing an area repairs the seams at its two ends. -/
theorem WF.coalesced_mergeAdjacent (h : map.WF) (hv : map.find? addr = some v)
    (hseams : ∀ k, (map.find? (k + 1)).isSome → k + 1 ≠ addr → k + 1 ≠ addr + v.size →
      ¬map.FreeSeam k) :
    (VMAMap.mergeAdjacent map addr).1.Coalesced := by
  intro k hk hseam
  have hkeys := keys_mergeAdjacent hk
  have hseam' : map.FreeSeam k := by
    obtain ⟨x, y, hx, hy, hf⟩ := hseam
    rw [h.mergeAdjacent.2] at hx hy
    exact ⟨x, y, hx, hy, hf⟩
  unfold VMAMap.mergeAdjacent StdMap.mergeAdjacent at hk
  by_cases hstart : k + 1 = addr
  · subst hstart
    refine h.mergeNext.1.not_freeSeam_mergePrev hk ?_
    obtain ⟨x, y, hx, hy, hf⟩ := hseam'
    exact ⟨x, y, by rw [h.mergeNext.2]; exact hx, by rw [h.mergeNext.2]; exact hy, hf⟩
  · by_cases hend : k + 1 = addr + v.size
    · refine h.not_freeSeam_mergeNext hv hend.symm ?_ hseam'
      rcases StdMap.mergePrev_cases VirtualMemoryArea.canMergeWith VirtualMemoryArea.join
        (StdMap.mergeNext VirtualMemoryArea.canMergeWith VirtualMemoryArea.join map addr) addr
        with hj | hj
      · rwa [hj] at hk
      · exact hj.find?_isSome hk
    · exact hseams k hkeys hstart hend hseam'

/-- No two neighbouring areas are both free. -/
theorem WF.not_both_free (h : map.WF) (hc : map.Coalesced)
    (hv : map.find? k = some v) (hw : map.find? (k + v.size) = some w) (hvf : v.type = .free) :
    w.type ≠ .free := by
  intro hwf
  have hpos := (h.entry k v hv).pos
  have hposw := (h.entry _ w hw).pos
  have hlast := at?_of_find? (p := k + v.size - 1) h.separated hv (by omega)
    (by simp only [VirtualMemoryArea.area_size]; omega)
  have hfirst := at?_of_find? (p := k + v.size) h.separated hw (Nat.le_refl _)
    (by simp only [VirtualMemoryArea.area_size]; omega)
  have hpred : k + v.size - 1 + 1 = k + v.size := Nat.sub_add_cancel (by omega)
  refine hc (k + v.size - 1) ?_ ⟨_, _, hlast, by rw [hpred]; exact hfirst, hvf, hwf⟩
  rw [hpred, hw]
  rfl

/-! ## Replacing a range -/

/-- `map'` is `map` with an entry `w` for exactly `[addr, addr + size)`. -/
structure Replaced (map map' : VMAMap) (addr size : Nat) (w : VirtualMemoryArea) : Prop where
  wf : map'.WF
  find : map'.find? addr = some w
  size_eq : w.size = size
  at? : ∀ p, map'.at? p =
    if addr ≤ p ∧ p < addr + size then some (Area.byte w (p - addr)) else map.at? p
  keys : ∀ k, (map'.find? k).isSome → (map.find? k).isSome ∨ k = addr ∨ k = addr + size

/-- Carving a range and changing the carved area. `v'` is the part of the area `v`
    that was carved out. -/
theorem WF.carve_modify (h : map.WF) (haddr : addr < 2 ^ 64) (hsize : size < 2 ^ 64)
    (hr : VMAMap.carveVMA map addr size = .ok r) :
    r.2 = addr ∧ ∃ v v', Carved map addr size v ∧ r.1.find? addr = some v' ∧ v'.WF ∧
      v'.base = addr ∧ v'.size = size ∧ v'.type = v.type ∧
      (∀ o, o < size → map.at? (addr + o) = some (Area.byte v' o)) ∧
      ∀ f : VirtualMemoryArea → VirtualMemoryArea, (f v').WF → (f v').base = addr →
        (f v').size = size → Replaced map (r.1.modify addr f) addr size (f v') := by
  obtain ⟨hwf, hat, hhandle, ⟨v, v', hcarved, hfind, hsz, hty⟩, hkeys⟩ := h.carveVMA haddr hsize hr
  have hread : ∀ o, o < size → map.at? (addr + o) = some (Area.byte v' o) := by
    intro o ho
    rw [← hat, at?_of_find? hwf.separated hfind (by omega)
      (by simp only [VirtualMemoryArea.area_size]; omega), Nat.add_sub_cancel_left]
  refine ⟨hhandle, v, v', hcarved, hfind, hwf.entry _ _ hfind, hwf.key _ _ hfind, hsz, hty, hread,
    ?_⟩
  intro f hw hbase hfsz
  obtain ⟨hwf', hat'⟩ := hwf.insert hfind hw hbase (hfsz.trans hsz.symm)
  rw [StdMap.modify_of_find?_eq_some hfind]
  refine ⟨hwf', by simp, hfsz, ?_, ?_⟩
  · intro p
    rw [hat', hsz, hat]
  · intro k hk
    simp only [find?_insert] at hk
    split at hk
    · exact .inr (.inl (by assumption))
    · exact hkeys k hk

/-- Changing an area where it is. -/
theorem WF.modify_replaced (h : map.WF) (hk : map.find? k = some v)
    {f : VirtualMemoryArea → VirtualMemoryArea} (hw : (f v).WF) (hbase : (f v).base = k)
    (hsize : (f v).size = v.size) : Replaced map (map.modify k f) k v.size (f v) := by
  obtain ⟨hwf, hat⟩ := h.insert hk hw hbase hsize
  rw [StdMap.modify_of_find?_eq_some hk]
  refine ⟨hwf, by simp, hsize, hat, ?_⟩
  intro j hj
  simp only [find?_insert] at hj
  split at hj
  · exact .inr (.inl (by assumption))
  · exact .inl hj

theorem Replaced.mergeAdjacent {w : VirtualMemoryArea} (h : Replaced map map' addr size w) :
    (VMAMap.mergeAdjacent map' addr).1.WF ∧ ∀ p, (VMAMap.mergeAdjacent map' addr).1.at? p =
      if addr ≤ p ∧ p < addr + size then some (Area.byte w (p - addr)) else map.at? p :=
  ⟨h.wf.mergeAdjacent.1, fun p => (h.wf.mergeAdjacent.2 p).trans (h.at? p)⟩

/-- Away from the ends of the range there are no new seams. -/
private theorem Replaced.not_freeSeam (h : Replaced map map' addr size w)
    (hc : map.Coalesced) (hk : (map'.find? (k + 1)).isSome) (hstart : k + 1 ≠ addr)
    (hend : k + 1 ≠ addr + size) : ¬map'.FreeSeam k := by
  rintro ⟨x, y, hx, hy, hf⟩
  have hkey := ((h.keys _ hk).resolve_right (by simp [hstart, hend]))
  by_cases hin : addr ≤ k ∧ k < addr + size
  · -- an entry strictly inside the new one
    have hlt : k + 1 - addr < Area.size w := by
      simp only [VirtualMemoryArea.area_size, h.size_eq]
      omega
    have hinside := h.wf.separated.find?_inside h.find (by omega) hlt
    rw [Nat.add_sub_cancel' (by omega)] at hinside
    simp [hinside] at hk
  · rw [h.at?, if_neg hin] at hx
    rw [h.at?, if_neg (by omega)] at hy
    exact hc k hkey ⟨x, y, hx, hy, hf⟩

/-- Coalescing the new entry leaves no seam between free bytes. -/
theorem Replaced.coalesced_mergeAdjacent (h : Replaced map map' addr size w) (hc : map.Coalesced) :
    (VMAMap.mergeAdjacent map' addr).1.Coalesced :=
  h.wf.coalesced_mergeAdjacent h.find fun _ hk hstart hend =>
    h.not_freeSeam hc hk hstart (h.size_eq ▸ hend)

/-- An entry that is not free needs no coalescing for that. -/
theorem Replaced.coalesced (h : Replaced map map' addr size w)
    (hc : map.Coalesced) (hw : w.type ≠ .free) : map'.Coalesced := by
  have hpos := (h.wf.entry _ _ h.find).pos
  have hsz := h.size_eq
  intro k hk hseam
  by_cases hstart : k + 1 = addr
  · obtain ⟨x, y, -, hy, -, hyf⟩ := hseam
    rw [h.at?, if_pos (by omega)] at hy
    cases hy
    exact hw hyf
  · by_cases hend : k + 1 = addr + size
    · obtain ⟨x, y, hx, -, hxf, -⟩ := hseam
      rw [h.at?, if_pos (by omega)] at hx
      cases hx
      exact hw hxf
    · exact h.not_freeSeam hc hk hstart hend hseam

/-- The entry that coalescing returns holds the one that was coalesced. -/
theorem WF.find?_mergeAdjacent (h : map.WF) (hk : map.find? k = some v) :
    ∃ w, (VMAMap.mergeAdjacent map k).1.find? (VMAMap.mergeAdjacent map k).2 = some w ∧
      (VMAMap.mergeAdjacent map k).2 ≤ k ∧
      k + v.size ≤ (VMAMap.mergeAdjacent map k).2 + w.size := by
  obtain ⟨w, hfloor⟩ := StdMap.floor?_mergeAdjacent VirtualMemoryArea.canMergeWith
    VirtualMemoryArea.join hk
  obtain ⟨hw, hle, hmax⟩ := StdMap.floor?_eq_some.1 hfloor
  have hpos := (h.entry k v hk).pos
  refine ⟨w, hw, hle, ?_⟩
  -- the last byte of the old entry is in the new one, since no key lies between
  have hlast : (VMAMap.mergeAdjacent map k).1.floor? (k + v.size - 1) =
      some ((VMAMap.mergeAdjacent map k).2, w) := by
    refine StdMap.floor?_eq_some.2 ⟨hw, hle.trans (by omega), fun i b hi hik => ?_⟩
    by_cases hki : i ≤ k
    · exact hmax i b hi hki
    have hold : (map.find? i).isSome := keys_mergeAdjacent (Option.isSome_iff_exists.2 ⟨b, hi⟩)
    obtain ⟨c, hc⟩ := Option.isSome_iff_exists.1 hold
    have := h.separated k v i c hk hc (by omega)
    simp only [VirtualMemoryArea.area_size] at this
    omega
  have hbyte := (h.mergeAdjacent (k := k)).2 (k + v.size - 1)
  rw [at?_of_find? h.separated hk (by omega)
    (by simp only [VirtualMemoryArea.area_size]; omega)] at hbyte
  simp only [StdMap.at?, hlast] at hbyte
  split at hbyte
  · rename_i hlt
    simp only [VirtualMemoryArea.area_size] at hlt
    omega
  · cases hbyte

end VMAMap

end Core
