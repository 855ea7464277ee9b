-- SUMMARY: In every reachable state the virtual areas partition the usable regions, and no call moves the backing of a byte it does not map or unmap.
import W7PS4.Memory.System

/-!
# The partition of virtual memory

The areas of `vma_map` cut the usable regions into pieces, and free pieces do not
touch. The physical areas of a backed piece cut it once more. Neither cut changes
which physical byte is behind a virtual one: only a call that maps, unmaps, commits
or decommits a byte does.
-/

namespace Core

/-- The entries of the map partition the usable regions, and no two free ones touch. -/
structure VMAMap.Partitions (env : Environment) (map : VMAMap) : Prop where
  key : ∀ e ∈ map.entries, e.2.base = e.1
  pos : ∀ e ∈ map.entries, 0 < e.2.size
  disjoint : map.entries.Pairwise fun e e' =>
    Disjoint (Set.Ico e.2.base (e.2.base + e.2.size)) (Set.Ico e'.2.base (e'.2.base + e'.2.size))
  union : ⋃ e ∈ map.entries, Set.Ico e.2.base (e.2.base + e.2.size) =
    ⋃ r ∈ env.usableRegions, Set.Ico r.1 r.2
  coalesced : ∀ e ∈ map.entries, ∀ e' ∈ map.entries, e.2.base + e.2.size = e'.2.base →
    ¬(e.2.type = .free ∧ e'.2.type = .free)

namespace MemoryManager

variable {env : Environment} {s s' : MemoryManager}

theorem Valid.partitions (h : s.Valid env) : s.vmaMap.Partitions env := by
  have hfind : ∀ e ∈ s.vmaMap.entries, s.vmaMap.find? e.1 = some e.2 := fun e he =>
    StdMap.mem_entries_iff.1 he
  have hkey : ∀ e ∈ s.vmaMap.entries, e.2.base = e.1 := fun e he =>
    h.vma.key _ _ (hfind e he)
  refine ⟨hkey, fun e he => (h.vma.entry _ _ (hfind e he)).pos, ?_, ?_, ?_⟩
  · refine s.vmaMap.sorted.imp_of_mem ?_
    intro e e' he he' hlt
    have hsep := h.vma.separated _ _ _ _ (hfind e he) (hfind e' he') hlt
    rw [hkey e he, hkey e' he', Set.disjoint_left]
    intro p hp hp'
    rw [Set.mem_Ico] at hp hp'
    simp only [VirtualMemoryArea.area_size] at hsep
    omega
  · ext p
    have husable := h.sound.usable p
    rw [Option.isSome_iff_exists] at husable
    simp only [Set.mem_iUnion, Set.mem_Ico, exists_prop]
    refine Iff.trans ?_ husable
    constructor
    · rintro ⟨e, he, hle, hlt⟩
      rw [hkey e he] at hle hlt
      exact ⟨_, StdMap.at?_of_find? h.vma.separated (hfind e he) hle hlt⟩
    · rintro ⟨x, hx⟩
      obtain ⟨k, v, hk, hle, hlt, -⟩ := StdMap.exists_of_at? hx
      have hbase := h.vma.key k v hk
      exact ⟨(k, v), StdMap.mem_entries_iff.2 hk, by rw [hbase]; exact hle,
        by rw [hbase]; exact hlt⟩
  · rintro e he e' he' htouch ⟨hfree, hfree'⟩
    rw [hkey e he, hkey e' he'] at htouch
    exact h.vma.not_both_free h.coalesced (hfind e he) (htouch ▸ hfind e' he') hfree hfree'

/-- The entries of `vma_map` partition the usable regions in every reachable state. -/
theorem vmaMap_partitions (h : Reachable env anyCall s) : s.vmaMap.Partitions env :=
  h.valid.partitions

/-- Mapping, protecting and unmapping parts of one range. -/
def partitionCalls : List Op :=
  [.mapMemory 0x200000000 0x10000 .cpuReadWrite .fixed .flexible "heap" false (-1) 0,
   .protect 0x200004000 0x4000 .cpuRead,
   .nameVirtualRange 0x200008000 0x4000 "stack",
   .unmapMemory 0x200004000 0x8000]

theorem vmaMap_partitions_of_run : ∃ s, run .retail (init .retail) partitionCalls = .ok s ∧
    s.vmaMap.entries.length = 5 ∧ s.vmaMap.Partitions .retail := by
  have hrun : (match run .retail (init .retail) partitionCalls with
      | .ok s => decide (s.vmaMap.entries.length = 5)
      | .error _ => false) = true := by with_unfolding_all decide
  split at hrun
  · rename_i s hs
    refine ⟨s, hs, by simpa using hrun, vmaMap_partitions (reachable_of_run .refl hs ?_)⟩
    intro op hop
    exact ⟨by revert op; decide, fun _ => trivial⟩
  · cases hrun

end MemoryManager

/-! ## Backings -/

/-- The physical areas cut `[0, size)` without gaps, iterated from the first one on. -/
structure PhysMap.Covers (areas : PhysMap) (size : Nat) : Prop where
  first : areas.first?.map Prod.fst = some 0
  next : ∀ k a j b, areas.find? k = some a → areas.next? k = some (j, b) → k + a.size = j
  last : ∀ k a, areas.last? = some (k, a) → k + a.size = size

namespace Memory

variable {m m' : Memory} {p a n : Nat} {U : Set Nat}

/-- The physical address behind a virtual byte. -/
def backingAddr (m : Memory) (p : Nat) : Option Nat :=
  (m.virt p).bind fun x => x.backing.map PhysByte.addr

theorem backingAddr_congr (h : m'.virt p = m.virt p) : m'.backingAddr p = m.backingAddr p := by
  unfold backingAddr
  rw [h]

theorem backingAddr_unmap (hp : p ∉ U) : (m.unmap U).backingAddr p = m.backingAddr p :=
  backingAddr_congr (virt_unmap_of_notMem hp)

theorem backingAddr_place {y : Nat → VirtByte} (hp : p ∉ Set.Ico a (a + n)) :
    (m.place a n y).backingAddr p = m.backingAddr p :=
  backingAddr_congr (if_neg (mt Set.mem_Ico.2 hp))

theorem SameBacking.backingAddr_eq (h : m.SameBacking m') :
    m'.backingAddr p = m.backingAddr p := by
  have hmap : ∀ m : Memory, m.backingAddr p =
      ((m.virt p).map VirtByte.mapping).bind fun e => e.2.map PhysByte.addr := by
    intro m
    unfold backingAddr
    cases m.virt p with
    | none => rfl
    | some x => rfl
  rw [hmap, hmap, h.virt]

theorem backingAddr_setType {mt : Int} : (m.setType U mt).backingAddr p = m.backingAddr p := by
  by_cases hp : p ∈ U
  · simp only [backingAddr, setType, updateOn_of_mem hp]
    cases m.virt p with
    | none => rfl
    | some x =>
      simp only [Option.map_some, Option.bind_some, VirtByte.withMemoryType]
      split
      · rw [Option.map_map]
        rfl
      · rfl
  · exact backingAddr_congr (updateOn_of_notMem hp)

theorem MapsArea.backingAddr_eq {x : VirtByte} {phys : Nat} (h : m.MapsArea a n x phys m')
    (hp : p ∉ Set.Ico a (a + n)) : m'.backingAddr p = m.backingAddr p := by
  cases h with
  | plain => exact backingAddr_place hp
  | flexible => exact (backingAddr_congr (congrFun virt_mapFlexible p)).trans (backingAddr_place hp)
  | direct => exact (backingAddr_congr (congrFun virt_mapDirect p)).trans (backingAddr_place hp)

end Memory

/-- The bytes a call maps, unmaps, commits or decommits, as its arguments and its reply
    give them. The bytes that `Free` unmaps depend on the state as well. -/
def Op.rebacks : Op → Reply → Set Nat
  | .unmapMemory virtualAddr size, _ => Set.Ico (alignDown virtualAddr.toNat 0x4000)
      (alignDown virtualAddr.toNat 0x4000 + alignUp size.toNat 0x4000)
  | .mapMemory virtualAddr size _ flags _ _ _ _ _, .mapped a =>
    MemoryManager.overwritten flags virtualAddr.toNat size.toNat ∪ Set.Ico a (a + size.toNat)
  | .mapFile virtualAddr size _ flags _ _, .mapped a =>
    MemoryManager.overwritten flags virtualAddr.toNat size.toNat ∪ Set.Ico a (a + size.toNat)
  | .poolCommit virtualAddr size _ _, _ =>
    Set.Ico virtualAddr.toNat (virtualAddr.toNat + size.toNat)
  | .poolDecommit virtualAddr size, _ =>
    Set.Ico virtualAddr.toNat (virtualAddr.toNat + size.toNat)
  | _, _ => ∅

/-- The call is a `Free`, and it unmapped the byte: it was direct memory, and is free now. -/
def Op.FreedByte (op : Op) (m m' : Memory) (p : Nat) : Prop :=
  (∃ physAddr size checked, op = .free physAddr size checked) ∧ (∃ q, m.Maps .direct p q) ∧
    m'.virt p = some .free

namespace MemoryManager

variable {env : Environment} {s s' : MemoryManager}

theorem Maps.backingAddr_eq {W : Set Nat} {a n p phys : Nat} {x : VirtByte}
    (h : Maps env W a n x phys s s') (hp : p ∉ W ∪ Set.Ico a (a + n)) :
    s'.view.backingAddr p = s.view.backingAddr p := by
  obtain ⟨s₁, hu, -, hmaps⟩ := h.result
  rw [hmaps.backingAddr_eq fun h' => hp (.inr h'), hu.view,
    Memory.backingAddr_unmap fun h' => hp (.inl h')]

/-- A call leaves the backing of a byte where it is unless it is about that byte. -/
theorem Effect.backingAddr_eq {op : Op} {r : Reply} {p : Nat} (h : Effect env s s' op r)
    (hp : p ∉ op.rebacks r) (hfree : ¬op.FreedByte s.view s'.view p) :
    s'.view.backingAddr p = s.view.backingAddr p := by
  cases h with
  | retouched same => exact same.backingAddr_eq
  | shrunk _ view => exact Memory.backingAddr_congr (by rw [view]; rfl)
  | expanded _ _ view => exact Memory.backingAddr_congr (by rw [view]; rfl)
  | allocated _ view => exact Memory.backingAddr_congr (by rw [view]; rfl)
  | @freed _ _ _ _ U Q _ direct _ view =>
    have hvirt : s'.view.virt p = (s.view.unmap U).virt p := by rw [view]; rfl
    by_cases hU : p ∈ U
    · -- the bytes `Free` unmaps are direct, so they are free afterwards
      refine absurd ⟨⟨_, _, _, rfl⟩, direct p hU, ?_⟩ hfree
      obtain ⟨q, x, b, hx, hxt, -⟩ := direct p hU
      rw [hvirt, Memory.virt_unmap_of_mem hU, hx, Option.map_some,
        VirtByte.unmapped_of_active (by simp [hxt])]
    · exact (Memory.backingAddr_congr hvirt).trans (Memory.backingAddr_unmap hU)
  | committed commits =>
    rw [commits.view]
    exact (Memory.backingAddr_congr (congrFun Memory.virt_commit p)).trans
      (Memory.backingAddr_place hp)
  | decommitted _ decommits =>
    refine Memory.backingAddr_congr ?_
    rw [decommits.view]
    exact updateOn_of_notMem hp
  | mapped maps => exact maps.backingAddr_eq hp
  | mappedFile maps => exact maps.backingAddr_eq hp
  | unmapped unmaps =>
    rw [unmaps.view]
    exact Memory.backingAddr_unmap hp
  | retyped view =>
    rw [view]
    exact Memory.backingAddr_setType

theorem Valid.covers (h : s.Valid env) {k : Nat} {v : VirtualMemoryArea}
    (hk : s.vmaMap.find? k = some v) (ht : v.type.hasPhysicalBacking) :
    v.physAreas.Covers v.size := by
  have hv := h.vma.entry k v hk
  have htiles := (hv.backed ht).toTiles
  refine ⟨?_, ?_, ?_⟩
  · obtain ⟨a, ha⟩ := htiles.first?_eq hv.pos
    rw [ha]
    rfl
  · intro k a j b hk hj
    exact (htiles.next?_eq hk hj).symm
  · intro k a hk
    exact htiles.last?_eq hk

/-- In every reachable state the physical areas of a backed area cover it without gaps.
    A call moves the backing of no byte it does not map or unmap, and cutting,
    carving and coalescing move none at all. -/
theorem backing_covered_and_kept (h : Reachable env anyCall s) :
    (∀ k v, s.vmaMap.find? k = some v → v.type.hasPhysicalBacking → v.physAreas.Covers v.size) ∧
    (∀ op s' r p, op.Issued → s.step env op = .ok (s', r) → p ∉ op.rebacks r →
      ¬op.FreedByte s.view s'.view p → s'.view.backingAddr p = s.view.backingAddr p) ∧
    s.vmaMap.WF ∧ ∀ map : VMAMap, map.WF →
      (∀ k, (map.mergeAdjacent k).1.WF ∧ (map.mergeAdjacent k).1.at? = map.at?) ∧
      (∀ k off map' k', map.split k off = .ok (map', k') → map'.WF ∧ map'.at? = map.at?) ∧
      (∀ addr size map' k', addr < 2 ^ 64 → size < 2 ^ 64 →
        map.carveVMA addr size = .ok (map', k') → map'.WF ∧ map'.at? = map.at?) := by
  refine ⟨fun k v hk ht => h.valid.covers hk ht, ?_, h.valid.vma, ?_⟩
  · intro op s' r p hop hr hp hfree
    exact (step_effect h.valid hop hr).2.backingAddr_eq hp hfree
  · intro map hwf
    refine ⟨fun k => ?_, fun k off map' k' hr => ?_, fun addr size map' k' haddr hsize hr => ?_⟩
    · exact ⟨hwf.mergeAdjacent.1, funext hwf.mergeAdjacent.2⟩
    · exact ⟨(hwf.split hr).1, funext (hwf.split hr).2⟩
    · obtain ⟨hwf', hat, -⟩ := hwf.carveVMA haddr hsize hr
      exact ⟨hwf', funext hat⟩

theorem backing_kept_of_run : ∃ s v, run .retail (init .retail) partitionCalls = .ok s ∧
    s.vmaMap.find? 0x200000000 = some v ∧ v.physAreas.Covers 0x4000 ∧ s.vmaMap.WF := by
  have hrun : (match run .retail (init .retail) partitionCalls with
      | .ok s => (match s.vmaMap.find? 0x200000000 with
        | some v => decide (v.type = .flexible ∧ v.size = 0x4000)
        | none => false)
      | .error _ => false) = true := by with_unfolding_all decide
  split at hrun
  · rename_i s hs
    split at hrun
    · rename_i v hv
      obtain ⟨ht, hsize⟩ := of_decide_eq_true hrun
      obtain ⟨hcovers, -, hwf, -⟩ := backing_covered_and_kept
        (reachable_of_run .refl hs fun op hop =>
          ⟨by revert op; decide, fun _ => trivial⟩)
      refine ⟨s, v, hs, hv, ?_, hwf⟩
      exact hsize ▸ hcovers _ v hv (by rw [ht]; rfl)
    · cases hrun
  · cases hrun

end MemoryManager

end Core
