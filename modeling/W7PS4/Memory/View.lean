-- SUMMARY: The memory manager's state read byte by byte, and the updates of bytes its operations amount to.
import W7PS4.Lib.UpdateOn
import W7PS4.Memory.Operations

/-!
# What the manager's state says about bytes

The three maps of the manager cut memory into areas. `Memory` forgets the areas:
it has one entry for every byte of virtual, direct and flexible memory, and the
two counters. An operation that returns changes this reading in a few ways only,
and the definitions here name them. They act on sets of bytes and know nothing
of splitting, coalescing or the order of areas.
-/

namespace Core

namespace VirtByte

/-- A byte of a free area. -/
def free : VirtByte := ⟨.free, .noAccess, "", false, none⟩

/-- What unmapping makes of a byte. Pooled memory is left alone. -/
def unmapped (x : VirtByte) : VirtByte :=
  if x.type = .free ∨ x.type = .pooled then x else free

/-- A byte of an area that is reserved for a pool. -/
def poolReserved : VirtByte := ⟨.poolReserved, .noAccess, "anon", false, none⟩

@[simp] theorem unmapped_unmapped (x : VirtByte) : x.unmapped.unmapped = x.unmapped := by
  unfold unmapped
  split
  · simp
  · simp [free]

theorem unmapped_of_inert {x : VirtByte} (h : x.type = .free ∨ x.type = .pooled) :
    x.unmapped = x := if_pos h

theorem unmapped_of_active {x : VirtByte} (h : ¬(x.type = .free ∨ x.type = .pooled)) :
    x.unmapped = free := if_neg h

/-- What decides which physical byte is behind a byte, and how it is used. -/
def mapping (x : VirtByte) : VMAType × Option PhysByte := (x.type, x.backing)

end VirtByte

namespace PhysByte

def withDmaType (t : PhysicalMemoryType) (b : PhysByte) : PhysByte := { b with dmaType := t }

def withMemoryType (mt : Int) (b : PhysByte) : PhysByte := { b with memoryType := mt }

/-- Both labels of a byte. -/
def labelled (mt : Int) (t : PhysicalMemoryType) (b : PhysByte) : PhysByte :=
  { b with memoryType := mt, dmaType := t }

@[simp] theorem withDmaType_addr (t : PhysicalMemoryType) (b : PhysByte) :
    (b.withDmaType t).addr = b.addr := rfl
@[simp] theorem withDmaType_memoryType (t : PhysicalMemoryType) (b : PhysByte) :
    (b.withDmaType t).memoryType = b.memoryType := rfl
@[simp] theorem withDmaType_dmaType (t : PhysicalMemoryType) (b : PhysByte) :
    (b.withDmaType t).dmaType = t := rfl
theorem withDmaType_withDmaType (t : PhysicalMemoryType) (b : PhysByte) :
    (b.withDmaType t).withDmaType t = b.withDmaType t := rfl
@[simp] theorem withMemoryType_addr (mt : Int) (b : PhysByte) :
    (b.withMemoryType mt).addr = b.addr := rfl
@[simp] theorem withMemoryType_memoryType (mt : Int) (b : PhysByte) :
    (b.withMemoryType mt).memoryType = mt := rfl
@[simp] theorem withMemoryType_dmaType (mt : Int) (b : PhysByte) :
    (b.withMemoryType mt).dmaType = b.dmaType := rfl
theorem withMemoryType_withMemoryType (mt : Int) (b : PhysByte) :
    (b.withMemoryType mt).withMemoryType mt = b.withMemoryType mt := rfl
@[simp] theorem labelled_addr (mt : Int) (t : PhysicalMemoryType) (b : PhysByte) :
    (b.labelled mt t).addr = b.addr := rfl
@[simp] theorem labelled_memoryType (mt : Int) (t : PhysicalMemoryType) (b : PhysByte) :
    (b.labelled mt t).memoryType = mt := rfl
@[simp] theorem labelled_dmaType (mt : Int) (t : PhysicalMemoryType) (b : PhysByte) :
    (b.labelled mt t).dmaType = t := rfl

end PhysByte

namespace VirtByte

/-- The byte with the memory type of a direct or pooled area set. -/
def withMemoryType (mt : Int) (x : VirtByte) : VirtByte :=
  if x.type = .direct ∨ x.type = .pooled then
    { x with backing := x.backing.map (PhysByte.withMemoryType mt) }
  else x

@[simp] theorem withMemoryType_type (mt : Int) (x : VirtByte) :
    (x.withMemoryType mt).type = x.type := by
  unfold withMemoryType
  split <;> rfl

theorem withMemoryType_backing {x : VirtByte} {b : PhysByte} (mt : Int) (hb : x.backing = some b) :
    ∃ c, (x.withMemoryType mt).backing = some c ∧ c.addr = b.addr := by
  unfold withMemoryType
  split
  · exact ⟨b.withMemoryType mt, by simp [hb], rfl⟩
  · exact ⟨b, hb, rfl⟩

theorem backing_of_withMemoryType {x : VirtByte} {b : PhysByte} {mt : Int}
    (hb : (x.withMemoryType mt).backing = some b) : ∃ c, x.backing = some c ∧ c.addr = b.addr := by
  unfold withMemoryType at hb
  split at hb
  · obtain ⟨c, hc, rfl⟩ := Option.map_eq_some_iff.1 hb
    exact ⟨c, hc, rfl⟩
  · exact ⟨b, hb, rfl⟩

theorem withMemoryType_withMemoryType (mt : Int) (x : VirtByte) :
    (x.withMemoryType mt).withMemoryType mt = x.withMemoryType mt := by
  unfold withMemoryType
  split
  · simp only [Option.map_map]
    rfl
  · rfl

end VirtByte

/-- The state of the manager, byte by byte. -/
@[ext] structure Memory where
  virt : Nat → Option VirtByte
  dmem : Nat → Option PhysByte
  fmem : Nat → Option PhysByte
  usage : Nat
  budget : Nat

def MemoryManager.view (s : MemoryManager) : Memory where
  virt := s.vmaMap.at?
  dmem := s.dmemMap.at?
  fmem := s.fmemMap.at?
  usage := s.flexibleUsage
  budget := s.poolBudget

theorem MemoryManager.view_vmaMap (s : MemoryManager) (map : VMAMap) :
    MemoryManager.view { s with vmaMap := map } = { s.view with virt := map.at? } := rfl

namespace Memory

variable {m : Memory} {t : VMAType} {p q a n : Nat} {U W : Set Nat} {x : VirtByte}

/-- The virtual byte at `p` has type `t` and the physical byte at `q` behind it. -/
def Maps (m : Memory) (t : VMAType) (p q : Nat) : Prop :=
  ∃ x b, m.virt p = some x ∧ x.type = t ∧ x.backing = some b ∧ b.addr = q

theorem maps_congr {m' : Memory} (h : m.virt = m'.virt) : m.Maps t p q ↔ m'.Maps t p q := by
  simp only [Maps, h]

/-- The physical bytes behind the bytes of `U` that have type `t`. -/
def behind (m : Memory) (t : VMAType) (U : Set Nat) : Set Nat := {q | ∃ p ∈ U, m.Maps t p q}

/-- The bytes of type `t` in `U`. -/
def ofType (m : Memory) (t : VMAType) (U : Set Nat) : Set Nat :=
  {p | p ∈ U ∧ ∃ x, m.virt p = some x ∧ x.type = t}

/-! ## Unmapping -/

/-- Unmap the bytes of `U`. The direct memory behind them becomes allocated, the
    flexible memory free. -/
noncomputable def unmap (m : Memory) (U : Set Nat) : Memory :=
  { m with
    virt := updateOn U VirtByte.unmapped m.virt
    dmem := updateOn (m.behind .direct U) (PhysByte.withDmaType .allocated) m.dmem
    fmem := updateOn (m.behind .flexible U) (PhysByte.withDmaType .free) m.fmem
    usage := m.usage - (m.ofType .flexible U).ncard }

theorem virt_unmap_of_notMem (hp : p ∉ U) : (m.unmap U).virt p = m.virt p :=
  updateOn_of_notMem hp

theorem virt_unmap_of_mem (hp : p ∈ U) :
    (m.unmap U).virt p = (m.virt p).map VirtByte.unmapped :=
  updateOn_of_mem hp

/-- What unmapping leaves of a type that it does unmap. -/
theorem virt_unmap_type (ht : t ≠ .free) (ht' : t ≠ .pooled) :
    ((m.unmap U).virt p = some x ∧ x.type = t) ↔ p ∉ U ∧ m.virt p = some x ∧ x.type = t := by
  by_cases hp : p ∈ U
  · simp only [hp, not_true_eq_false, false_and, iff_false, not_and, virt_unmap_of_mem hp,
      Option.map_eq_some_iff]
    rintro ⟨y, -, rfl⟩
    unfold VirtByte.unmapped
    split
    · rintro rfl
      tauto
    · exact Ne.symm ht
  · simp [virt_unmap_of_notMem hp, hp]

theorem maps_unmap (ht : t ≠ .free) (ht' : t ≠ .pooled) :
    (m.unmap U).Maps t p q ↔ p ∉ U ∧ m.Maps t p q := by
  constructor
  · rintro ⟨x, b, hx, hxt, hb, hq⟩
    obtain ⟨hp, hx, hxt⟩ := (virt_unmap_type ht ht').1 ⟨hx, hxt⟩
    exact ⟨hp, x, b, hx, hxt, hb, hq⟩
  · rintro ⟨hp, x, b, hx, hxt, hb, hq⟩
    exact ⟨x, b, by rw [virt_unmap_of_notMem hp, hx], hxt, hb, hq⟩

theorem maps_unmap_pooled : (m.unmap U).Maps .pooled p q ↔ m.Maps .pooled p q := by
  by_cases hp : p ∈ U
  · constructor
    · rintro ⟨x, b, hx, hxt, hb, hq⟩
      rw [virt_unmap_of_mem hp, Option.map_eq_some_iff] at hx
      obtain ⟨y, hy, rfl⟩ := hx
      by_cases hyt : y.type = .free ∨ y.type = .pooled
      · rw [VirtByte.unmapped_of_inert hyt] at hxt hb
        exact ⟨y, b, hy, hxt, hb, hq⟩
      · rw [VirtByte.unmapped_of_active hyt] at hxt
        cases hxt
    · rintro ⟨x, b, hx, hxt, hb, hq⟩
      refine ⟨x, b, ?_, hxt, hb, hq⟩
      rw [virt_unmap_of_mem hp, hx, Option.map_some, VirtByte.unmapped_of_inert (.inr hxt)]
  · simp only [Maps, virt_unmap_of_notMem hp]

/-- Only bytes that are neither free nor pooled matter for unmapping. -/
theorem unmap_congr (h : ∀ p x, m.virt p = some x → (p ∈ U ↔ p ∈ W) ∨ x.type = .free ∨
    x.type = .pooled) : m.unmap U = m.unmap W := by
  have htype : ∀ t, t ≠ .free → t ≠ .pooled → ∀ p x, m.virt p = some x → x.type = t →
      (p ∈ U ↔ p ∈ W) := by
    rintro t hf hp p x hx rfl
    rcases h p x hx with h | h | h
    · exact h
    · exact absurd h hf
    · exact absurd h hp
  have hbehind : ∀ t, t ≠ .free → t ≠ .pooled → m.behind t U = m.behind t W := by
    intro t hf hp
    ext q
    constructor
    · rintro ⟨p, hU, x, b, hx, hxt, hb⟩
      exact ⟨p, (htype t hf hp p x hx hxt).1 hU, x, b, hx, hxt, hb⟩
    · rintro ⟨p, hW, x, b, hx, hxt, hb⟩
      exact ⟨p, (htype t hf hp p x hx hxt).2 hW, x, b, hx, hxt, hb⟩
  have hcount : m.ofType .flexible U = m.ofType .flexible W := by
    ext p
    constructor
    · rintro ⟨hU, x, hx, hxt⟩
      exact ⟨(htype _ (by decide) (by decide) p x hx hxt).1 hU, x, hx, hxt⟩
    · rintro ⟨hW, x, hx, hxt⟩
      exact ⟨(htype _ (by decide) (by decide) p x hx hxt).2 hW, x, hx, hxt⟩
  have hvirt : updateOn U VirtByte.unmapped m.virt = updateOn W VirtByte.unmapped m.virt :=
    updateOn_congr fun p x hx => (h p x hx).imp id VirtByte.unmapped_of_inert
  simp only [unmap, hvirt, hcount, hbehind .direct (by decide) (by decide),
    hbehind .flexible (by decide) (by decide)]

@[simp] theorem unmap_empty : m.unmap ∅ = m := by
  have hbehind : ∀ t, m.behind t ∅ = ∅ := by simp [behind]
  have hcount : m.ofType .flexible ∅ = ∅ := by simp [ofType]
  simp [unmap, hbehind, hcount]

/-- Unmapping two sets one after the other. -/
theorem unmap_unmap (hU : U.Finite) (hW : W.Finite) : (m.unmap U).unmap W = m.unmap (U ∪ W) := by
  have hbehind : ∀ t, t ≠ .free → t ≠ .pooled →
      m.behind t U ∪ (m.unmap U).behind t W = m.behind t (U ∪ W) := by
    intro t hf hp
    ext q
    simp only [behind, Set.mem_union, Set.mem_ofPred_eq, maps_unmap hf hp]
    constructor
    · rintro (⟨p, hU, h⟩ | ⟨p, hW, -, h⟩)
      · exact ⟨p, .inl hU, h⟩
      · exact ⟨p, .inr hW, h⟩
    · rintro ⟨p, hUW, h⟩
      by_cases hpU : p ∈ U
      · exact .inl ⟨p, hpU, h⟩
      · exact .inr ⟨p, hUW.resolve_left hpU, hpU, h⟩
  have hcount : (m.ofType .flexible U).ncard + ((m.unmap U).ofType .flexible W).ncard =
      (m.ofType .flexible (U ∪ W)).ncard := by
    have hsplit : m.ofType .flexible (U ∪ W) =
        m.ofType .flexible U ∪ (m.unmap U).ofType .flexible W := by
      ext p
      simp only [ofType, Set.mem_union, Set.mem_ofPred_eq,
        virt_unmap_type (t := .flexible) (by decide) (by decide)]
      by_cases hpU : p ∈ U <;> simp [hpU]
    refine hsplit ▸ (Set.ncard_union_eq ?_ (hU.subset fun p hp => hp.1)
      (hW.subset fun p hp => hp.1)).symm
    rw [Set.disjoint_left]
    rintro p ⟨hpU, -⟩ ⟨-, x, hx⟩
    exact ((virt_unmap_type (by decide) (by decide)).1 hx).1 hpU
  refine Memory.ext (updateOn_updateOn VirtByte.unmapped_unmapped) ?_ ?_ ?_ rfl
  · exact (updateOn_updateOn (PhysByte.withDmaType_withDmaType _)).trans
      (congrArg (updateOn · _ m.dmem) (hbehind .direct (by decide) (by decide)))
  · exact (updateOn_updateOn (PhysByte.withDmaType_withDmaType _)).trans
      (congrArg (updateOn · _ m.fmem) (hbehind .flexible (by decide) (by decide)))
  · show m.usage - _ - _ = m.usage - _
    rw [← hcount]
    omega

/-! ## Labels of direct memory -/

/-- The direct memory that is not free. -/
def held (m : Memory) : Set Nat := {q | ∃ b, m.dmem q = some b ∧ b.dmaType ≠ .free}

/-- The first `size` bytes from `phys` on that are not free. -/
def firstHeld (m : Memory) (phys size : Nat) : Set Nat :=
  {q | q ∈ m.held ∧ phys ≤ q ∧ (m.held ∩ Set.Ico phys q).ncard < size}

/-- Change the labels of the direct memory in `Q`. -/
noncomputable def relabelDirect (m : Memory) (Q : Set Nat) (g : PhysByte → PhysByte) : Memory :=
  { m with dmem := updateOn Q g m.dmem }

open Classical in
/-- Take the bytes of `R` out of direct memory. -/
noncomputable def shrink (m : Memory) (R : Set Nat) : Memory :=
  { m with dmem := fun q => if q ∈ R then none else m.dmem q }

theorem dmem_shrink {R : Set Nat} {b : PhysByte} :
    (m.shrink R).dmem q = some b ↔ q ∉ R ∧ m.dmem q = some b := by
  by_cases hq : q ∈ R <;> simp [shrink, hq]

/-! ## New areas -/

/-- Put the bytes `y` at the addresses `[a, a + n)`. -/
def place (m : Memory) (a n : Nat) (y : Nat → VirtByte) : Memory :=
  { m with virt := fun p => if a ≤ p ∧ p < a + n then some (y (p - a)) else m.virt p }

theorem virt_place {y : Nat → VirtByte} :
    (m.place a n y).virt p = if a ≤ p ∧ p < a + n then some (y (p - a)) else m.virt p := rfl

theorem virt_place_congr {y y' : Nat → VirtByte} (h : ∀ o, o < n → y o = y' o) :
    (m.place a n y).virt = (m.place a n y').virt := by
  funext p
  simp only [virt_place]
  split
  · rw [h (p - a) (by omega)]
  · rfl

theorem maps_place {y : Nat → VirtByte} :
    (m.place a n y).Maps t p q ↔
      (a ≤ p ∧ p < a + n) ∧ (y (p - a)).type = t ∧
        (∃ b, (y (p - a)).backing = some b ∧ b.addr = q) ∨
      ¬(a ≤ p ∧ p < a + n) ∧ m.Maps t p q := by
  by_cases hp : a ≤ p ∧ p < a + n
  · simp [Maps, virt_place, hp]
  · have hvirt : (m.place a n y).virt p = m.virt p := if_neg hp
    simp only [Maps, hvirt, hp, false_and, not_false_eq_true, true_and, false_or]

/-- Map `[a, a + n)` without physical memory. -/
def mapPlain (m : Memory) (a n : Nat) (x : VirtByte) : Memory := m.place a n fun _ => x

/-- Map `[a, a + n)` to the flexible memory `y`. -/
noncomputable def mapFlexible (m : Memory) (a n : Nat) (x : VirtByte) (y : Nat → PhysByte) :
    Memory :=
  { m.place a n fun o => { x with backing := some (y o) } with
    fmem := updateOn {q | ∃ o < n, (y o).addr = q} (PhysByte.withDmaType .flexible) m.fmem
    usage := m.usage + n }

/-- Map `[a, a + n)` to the direct memory from `phys` on. -/
noncomputable def mapDirect (m : Memory) (a n : Nat) (x : VirtByte) (phys : Nat) : Memory :=
  { m.place a n fun o =>
      { x with backing := (m.dmem (phys + o)).map (PhysByte.withDmaType .mapped) } with
    dmem := updateOn (Set.Ico phys (phys + n)) (PhysByte.withDmaType .mapped) m.dmem }

/-- Commit the pooled memory `y` to `[a, a + n)`. -/
noncomputable def commit (m : Memory) (a n : Nat) (x : VirtByte) (y : Nat → PhysByte) (mt : Int) :
    Memory :=
  { m.place a n fun o => { x with backing := some (y o) } with
    dmem := updateOn {q | ∃ o < n, (y o).addr = q} (PhysByte.labelled mt .committed) m.dmem
    budget := m.budget - n }

section

variable {y : Nat → PhysByte}

theorem maps_mapPlain (hx : x.backing = none) :
    (m.mapPlain a n x).Maps t p q ↔ ¬(a ≤ p ∧ p < a + n) ∧ m.Maps t p q := by
  simp [mapPlain, maps_place, hx]

theorem virt_mapFlexible :
    (m.mapFlexible a n x y).virt = (m.place a n fun o => { x with backing := some (y o) }).virt := rfl

theorem virt_commit {mt : Int} :
    (m.commit a n x y mt).virt = (m.place a n fun o => { x with backing := some (y o) }).virt := rfl

theorem virt_mapDirect {phys : Nat} :
    (m.mapDirect a n x phys).virt = (m.place a n fun o =>
      { x with backing := (m.dmem (phys + o)).map (PhysByte.withDmaType .mapped) }).virt := rfl

theorem maps_mapFlexible :
    (m.mapFlexible a n x y).Maps t p q ↔
      (a ≤ p ∧ p < a + n) ∧ x.type = t ∧ (y (p - a)).addr = q ∨
      ¬(a ≤ p ∧ p < a + n) ∧ m.Maps t p q := by
  simp [maps_congr virt_mapFlexible, maps_place]

theorem maps_commit {mt : Int} :
    (m.commit a n x y mt).Maps t p q ↔
      (a ≤ p ∧ p < a + n) ∧ x.type = t ∧ (y (p - a)).addr = q ∨
      ¬(a ≤ p ∧ p < a + n) ∧ m.Maps t p q := by
  simp [maps_congr virt_commit, maps_place]

theorem maps_mapDirect {phys : Nat}
    (hphys : ∀ o, o < n → ∃ b, m.dmem (phys + o) = some b ∧ b.addr = phys + o) :
    (m.mapDirect a n x phys).Maps t p q ↔
      (a ≤ p ∧ p < a + n) ∧ x.type = t ∧ phys + (p - a) = q ∨
      ¬(a ≤ p ∧ p < a + n) ∧ m.Maps t p q := by
  rw [maps_congr virt_mapDirect, maps_place]
  by_cases hp : a ≤ p ∧ p < a + n
  · obtain ⟨b, hb, hba⟩ := hphys (p - a) (by omega)
    simp [hp, hb, hba]
  · simp [hp]

end

/-! ## Decommitting -/

/-- Reserve the bytes of `U` for the pool again. What was committed to them is
    pooled. -/
noncomputable def decommit (m : Memory) (U : Set Nat) : Memory :=
  { m with
    virt := updateOn U (fun _ => VirtByte.poolReserved) m.virt
    dmem := updateOn (m.behind .pooled U) (PhysByte.withDmaType .pooled) m.dmem
    budget := U64.add m.budget (m.ofType .pooled U).ncard }

theorem virt_decommit_type (ht : t ≠ .poolReserved) :
    ((m.decommit U).virt p = some x ∧ x.type = t) ↔ p ∉ U ∧ m.virt p = some x ∧ x.type = t := by
  by_cases hp : p ∈ U
  · simp only [hp, not_true_eq_false, false_and, iff_false, not_and, decommit,
      updateOn_of_mem hp, Option.map_eq_some_iff]
    rintro ⟨y, -, rfl⟩
    exact Ne.symm ht
  · simp [decommit, updateOn_of_notMem hp, hp]

theorem maps_decommit (ht : t ≠ .poolReserved) :
    (m.decommit U).Maps t p q ↔ p ∉ U ∧ m.Maps t p q := by
  constructor
  · rintro ⟨x, b, hx, hxt, hb, hq⟩
    obtain ⟨hp, hx, hxt⟩ := (virt_decommit_type ht).1 ⟨hx, hxt⟩
    exact ⟨hp, x, b, hx, hxt, hb, hq⟩
  · rintro ⟨hp, x, b, hx, hxt, hb, hq⟩
    exact ⟨x, b, (updateOn_of_notMem hp).trans hx, hxt, hb, hq⟩

/-- Decommitting two sets one after the other. -/
theorem decommit_decommit (hU : U.Finite) (hW : W.Finite) :
    (m.decommit U).decommit W = m.decommit (U ∪ W) := by
  have hbehind : m.behind .pooled U ∪ (m.decommit U).behind .pooled W =
      m.behind .pooled (U ∪ W) := by
    ext q
    simp only [behind, Set.mem_union, Set.mem_ofPred_eq, maps_decommit (t := .pooled) (by decide)]
    constructor
    · rintro (⟨p, hU, h⟩ | ⟨p, hW, -, h⟩)
      · exact ⟨p, .inl hU, h⟩
      · exact ⟨p, .inr hW, h⟩
    · rintro ⟨p, hUW, h⟩
      by_cases hpU : p ∈ U
      · exact .inl ⟨p, hpU, h⟩
      · exact .inr ⟨p, hUW.resolve_left hpU, hpU, h⟩
  have hsplit : m.ofType .pooled (U ∪ W) = m.ofType .pooled U ∪ (m.decommit U).ofType .pooled W := by
    ext p
    simp only [ofType, Set.mem_union, Set.mem_ofPred_eq,
      virt_decommit_type (t := .pooled) (by decide)]
    by_cases hpU : p ∈ U <;> simp [hpU]
  have hcount : (m.ofType .pooled U).ncard + ((m.decommit U).ofType .pooled W).ncard =
      (m.ofType .pooled (U ∪ W)).ncard := by
    refine hsplit ▸ (Set.ncard_union_eq ?_ (hU.subset fun p hp => hp.1)
      (hW.subset fun p hp => hp.1)).symm
    rw [Set.disjoint_left]
    rintro p ⟨hpU, -⟩ ⟨-, x, hx⟩
    exact ((virt_decommit_type (by decide)).1 hx).1 hpU
  refine Memory.ext (updateOn_updateOn fun _ => rfl) ?_ rfl rfl ?_
  · exact (updateOn_updateOn (PhysByte.withDmaType_withDmaType _)).trans
      (congrArg (updateOn · _ m.dmem) hbehind)
  · show U64.add (U64.add m.budget _) _ = U64.add m.budget _
    rw [← hcount, U64.add_add]

theorem decommit_empty (h : m.budget < 2 ^ 64) : m.decommit ∅ = m := by
  have hbehind : m.behind .pooled ∅ = ∅ := by simp [behind]
  have hcount : m.ofType .pooled ∅ = ∅ := by simp [ofType]
  simp only [decommit, hbehind, hcount, updateOn_empty, Set.ncard_empty]
  rw [U64.add_of_lt (b := 0) h]
  rfl

/-! ## Memory types -/

/-- Set the memory type of the direct and pooled bytes of `U`. -/
noncomputable def setType (m : Memory) (U : Set Nat) (mt : Int) : Memory :=
  { m with
    virt := updateOn U (VirtByte.withMemoryType mt) m.virt
    dmem := updateOn (m.behind .direct U ∪ m.behind .pooled U) (PhysByte.withMemoryType mt) m.dmem }

theorem maps_setType {mt : Int} : (m.setType U mt).Maps t p q ↔ m.Maps t p q := by
  by_cases hp : p ∈ U
  · simp only [Maps, setType, updateOn_of_mem hp, Option.map_eq_some_iff]
    constructor
    · rintro ⟨_, b, ⟨x, hx, rfl⟩, hxt, hb, hq⟩
      rw [VirtByte.withMemoryType_type] at hxt
      obtain ⟨c, hc, hcb⟩ := VirtByte.backing_of_withMemoryType hb
      exact ⟨x, c, hx, hxt, hc, hcb ▸ hq⟩
    · rintro ⟨x, b, hx, hxt, hb, hq⟩
      obtain ⟨c, hc, hcb⟩ := VirtByte.withMemoryType_backing mt hb
      exact ⟨_, c, ⟨x, hx, rfl⟩, by rw [VirtByte.withMemoryType_type, hxt], hc, hcb.trans hq⟩
  · simp only [Maps, setType, updateOn_of_notMem hp]

theorem setType_setType {mt : Int} : (m.setType U mt).setType W mt = m.setType (U ∪ W) mt := by
  have hbehind : ∀ t, m.behind t U ∪ (m.setType U mt).behind t W = m.behind t (U ∪ W) := by
    intro t
    ext q
    simp only [behind, Set.mem_union, Set.mem_ofPred_eq, maps_setType]
    constructor
    · rintro (⟨p, hp, h⟩ | ⟨p, hp, h⟩)
      · exact ⟨p, .inl hp, h⟩
      · exact ⟨p, .inr hp, h⟩
    · rintro ⟨p, hp | hp, h⟩
      · exact .inl ⟨p, hp, h⟩
      · exact .inr ⟨p, hp, h⟩
  refine Memory.ext (updateOn_updateOn (VirtByte.withMemoryType_withMemoryType mt)) ?_ rfl rfl rfl
  refine (updateOn_updateOn (PhysByte.withMemoryType_withMemoryType mt)).trans
    (congrArg (updateOn · _ m.dmem) ?_)
  rw [← hbehind .direct, ← hbehind .pooled]
  ext q
  simp only [Set.mem_union]
  tauto

@[simp] theorem setType_empty {mt : Int} : m.setType ∅ mt = m := by
  have hbehind : ∀ t, m.behind t ∅ = ∅ := by simp [behind]
  simp [setType, hbehind]

/-! ## Protection and names -/

/-- The two states differ in the protection, names and merge flags of bytes only. -/
structure SameBacking (m m' : Memory) : Prop where
  virt : ∀ p, (m'.virt p).map VirtByte.mapping = (m.virt p).map VirtByte.mapping
  dmem : m'.dmem = m.dmem
  fmem : m'.fmem = m.fmem
  usage : m'.usage = m.usage
  budget : m'.budget = m.budget

theorem SameBacking.refl (m : Memory) : SameBacking m m := ⟨fun _ => rfl, rfl, rfl, rfl, rfl⟩

theorem SameBacking.trans {m₁ m₂ m₃ : Memory} (h : SameBacking m₁ m₂) (h' : SameBacking m₂ m₃) :
    SameBacking m₁ m₃ :=
  ⟨fun p => (h'.virt p).trans (h.virt p), h'.dmem.trans h.dmem, h'.fmem.trans h.fmem,
    h'.usage.trans h.usage, h'.budget.trans h.budget⟩

theorem SameBacking.exists_virt {m m' : Memory} (h : SameBacking m m') (hx : m'.virt p = some x) :
    ∃ y, m.virt p = some y ∧ y.type = x.type ∧ y.backing = x.backing := by
  have hp := h.virt p
  rw [hx, Option.map_some, eq_comm, Option.map_eq_some_iff] at hp
  obtain ⟨y, hy, heq⟩ := hp
  simp only [VirtByte.mapping, Prod.mk.injEq] at heq
  exact ⟨y, hy, heq.1, heq.2⟩

theorem SameBacking.symm {m m' : Memory} (h : SameBacking m m') : SameBacking m' m :=
  ⟨fun p => (h.virt p).symm, h.dmem.symm, h.fmem.symm, h.usage.symm, h.budget.symm⟩

theorem SameBacking.maps_iff {m m' : Memory} (h : SameBacking m m') :
    m'.Maps t p q ↔ m.Maps t p q := by
  have himp : ∀ {m m' : Memory}, SameBacking m m' → m'.Maps t p q → m.Maps t p q := by
    rintro m m' h ⟨x, b, hx, hxt, hb, hq⟩
    obtain ⟨y, hy, hyt, hyb⟩ := h.exists_virt hx
    exact ⟨y, b, hy, hyt.trans hxt, hyb.trans hb, hq⟩
  exact ⟨himp h, himp h.symm⟩

end Memory

end Core
