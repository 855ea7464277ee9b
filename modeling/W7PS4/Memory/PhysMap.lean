-- SUMMARY: Physical memory areas and the maps of them: splitting, coalescing and carving, and what each does to the bytes.
import W7PS4.Lib.Coalesce
import W7PS4.Lib.Machine
import W7PS4.Lib.UpdateOn

/-!
# Maps of physical memory

`dmem_map` and `fmem_map` are keyed by physical address. The `phys_areas` of a
virtual area have the same type but are keyed by offset into the area. Both are
`PhysMap` here, as in the source, and share `MergeAdjacent`.
-/

namespace Core

inductive PhysicalMemoryType where
  | free | allocated | mapped | pooled | committed | flexible
deriving DecidableEq, Repr

structure PhysicalMemoryArea where
  base : Nat
  size : Nat
  memoryType : Int
  dmaType : PhysicalMemoryType
deriving DecidableEq, Repr

/-- What a physical area says about one of its bytes. -/
structure PhysByte where
  addr : Nat
  memoryType : Int
  dmaType : PhysicalMemoryType
deriving DecidableEq, Repr

instance : Area PhysicalMemoryArea PhysByte where
  size a := a.size
  byte a off := ⟨a.base + off, a.memoryType, a.dmaType⟩

@[simp] theorem PhysicalMemoryArea.area_size (a : PhysicalMemoryArea) : Area.size a = a.size := rfl
@[simp] theorem PhysicalMemoryArea.area_byte (a : PhysicalMemoryArea) (off : Nat) :
    Area.byte a off = ⟨a.base + off, a.memoryType, a.dmaType⟩ := rfl
namespace PhysicalMemoryArea

def getEnd (a : PhysicalMemoryArea) : Nat := a.base + a.size

def canMergeWith (a next : PhysicalMemoryArea) : Bool :=
  a.base + a.size == next.base && a.memoryType == next.memoryType && a.dmaType == next.dmaType

/-- What `MergeAdjacent` makes of an area and the one after it. -/
def join (a next : PhysicalMemoryArea) : PhysicalMemoryArea :=
  { a with size := a.size + next.size }

theorem cut_join {a b : PhysicalMemoryArea} (h : a.canMergeWith b) (ha : 0 < a.size) :
    StdMap.Cut (a.join b) a.size a b := by
  simp only [canMergeWith, Bool.and_eq_true, beq_iff_eq] at h
  obtain ⟨⟨hbase, hmem⟩, hdma⟩ := h
  refine ⟨ha, ?_, rfl, ?_, fun o _ => rfl, ?_⟩
  · simp only [join, area_size]
    omega
  · simp only [join, area_size]
    omega
  · intro o _
    simp only [area_byte, join, PhysByte.mk.injEq]
    exact ⟨by omega, hmem.symm, hdma.symm⟩

end PhysicalMemoryArea

abbrev PhysMap := StdMap Nat PhysicalMemoryArea

namespace PhysMap

/-! ## Operations -/

def mergeAdjacent (map : PhysMap) (iter : Nat) : PhysMap × Nat :=
  StdMap.mergeAdjacent PhysicalMemoryArea.canMergeWith PhysicalMemoryArea.join map iter

def split (map : PhysMap) (physHandle offsetInArea : Nat) : Outcome (PhysMap × Nat) := do
  let oldArea ← deref (map.find? physHandle)
  assertMsg (offsetInArea < oldArea.size && offsetInArea > 0) ""
  let newArea := { oldArea with
    base := oldArea.base + offsetInArea, size := oldArea.size - offsetInArea }
  let map := map.insert physHandle { oldArea with size := offsetInArea }
  return (map.emplace newArea.base newArea, newArea.base)

def carvePhysArea (map : PhysMap) (addr size : Nat) : Outcome (PhysMap × Nat) := do
  let (pmemHandle, area) ← deref (map.floor? addr)
  assertMsg (addr ≤ area.getEnd) "Physical address not in map"
  assertMsg (area.base ≤ addr) "Adding an allocation to already allocated region"
  let startInArea := addr - area.base
  let endInVma := U64.add startInArea size
  assertMsg (endInVma ≤ area.size) "Mapping cannot fit inside free region"
  -- Split at the end of the allocated region first, then at its start.
  let map ← (if endInVma ≠ area.size then Prod.fst <$> split map pmemHandle endInVma
    else pure map : Outcome PhysMap)
  if startInArea ≠ 0 then split map pmemHandle startInArea else return (map, pmemHandle)

/-- Carve `[addr, addr + size)`, change the carved area and coalesce it. -/
def retype (map : PhysMap) (addr size : Nat) (f : PhysicalMemoryArea → PhysicalMemoryArea) :
    Outcome PhysMap := do
  let (map, handle) ← carvePhysArea map addr size
  return (mergeAdjacent (map.modify handle f) handle).1

/-! ## Well-formed maps -/

/-- The addresses a map of physical memory is for. -/
structure Extent where
  lo : Nat
  hi : Nat
  /-- Whether the memory can be shrunk, which may leave an empty free area. -/
  shrinks : Bool

/-- A map keyed by physical address whose areas lie apart from each other inside
    the extent. -/
structure WF (x : Extent) (map : PhysMap) : Prop where
  key : ∀ k a, map.find? k = some a → a.base = k
  separated : map.Separated
  pos : ∀ k a, map.find? k = some a → a.dmaType ≠ .free ∨ x.shrinks = false → 0 < a.size
  bounds : ∀ k a, map.find? k = some a → x.lo ≤ k ∧ k + a.size ≤ x.hi
  hi_lt : x.hi < 2 ^ 64

variable {x : Extent} {map map' : PhysMap} {k addr size off handle p : Nat}
  {a : PhysicalMemoryArea}

theorem WF.joinsSoundly (h : map.WF x) :
    StdMap.JoinsSoundly PhysicalMemoryArea.canMergeWith PhysicalMemoryArea.join map := by
  intro k a j b hk hj hcan
  obtain ⟨hjb, hkj, -⟩ := StdMap.next?_eq_some.1 hj
  have hka := h.key k a hk
  have hjb' := h.key j b hjb
  have htouch : a.base + a.size = b.base := by
    simp only [PhysicalMemoryArea.canMergeWith, Bool.and_eq_true, beq_iff_eq] at hcan
    exact hcan.1.1
  simp only at hkj hjb'
  exact ⟨by simp only [PhysicalMemoryArea.area_size]; omega,
    PhysicalMemoryArea.cut_join hcan (by omega)⟩

theorem WF.joined (h : map.WF x)
    (hj : StdMap.Joined PhysicalMemoryArea.canMergeWith PhysicalMemoryArea.join map map') :
    map'.WF x where
  key := hj.forall_entry h.key fun k a _ _ hk _ _ => h.key k a hk
  separated := hj.separated h.separated h.joinsSoundly
  pos := by
    refine hj.forall_entry h.pos ?_
    intro k a j b hk _ _ hne
    have := h.pos k a hk hne
    simp only [PhysicalMemoryArea.join]
    omega
  bounds := by
    refine hj.forall_entry h.bounds ?_
    intro k a j b hk hj hcan
    obtain ⟨rfl, -⟩ := h.joinsSoundly k a j b hk hj hcan
    have hka := h.bounds k a hk
    have hjb := h.bounds _ b (StdMap.next?_eq_some.1 hj).1
    simp only [PhysicalMemoryArea.area_size] at hjb
    simp only [PhysicalMemoryArea.join]
    omega
  hi_lt := h.hi_lt

theorem WF.mergeAdjacent (h : map.WF x) : (mergeAdjacent map k).1.WF x :=
  StdMap.mergeAdjacent_induction h fun _ _ => WF.joined

/-- Coalescing changes no byte. -/
theorem at?_mergeAdjacent (h : map.WF x) : (mergeAdjacent map k).1.at? p = map.at? p := by
  have hboth : (PhysMap.mergeAdjacent map k).1.WF x ∧
      (PhysMap.mergeAdjacent map k).1.at? p = map.at? p := by
    refine StdMap.mergeAdjacent_induction (P := fun m => PhysMap.WF x m ∧ m.at? p = map.at? p)
      ⟨h, rfl⟩ ?_
    rintro m m' ⟨hm, heq⟩ hj
    exact ⟨hm.joined hj, (hj.at?_eq hm.separated hm.joinsSoundly).trans heq⟩
  exact hboth.2

/-! ## Splitting and carving -/

theorem cut_area (hpos : 0 < off) (hlt : off < a.size) :
    StdMap.Cut a off { a with size := off }
      { a with base := a.base + off, size := a.size - off } := by
  refine ⟨hpos, Nat.le_of_lt hlt, rfl, rfl, fun o _ => rfl, ?_⟩
  intro o _
  simp only [PhysicalMemoryArea.area_byte, PhysByte.mk.injEq, and_self, and_true]
  omega

variable {r : PhysMap × Nat}

/-- What `split` does when it returns. -/
theorem split_eq_ok (h : map.WF x) (hr : split map k off = .ok r) :
    ∃ a, map.find? k = some a ∧ 0 < off ∧ off < a.size ∧
      r = ((map.insert k { a with size := off }).insert (k + off)
        { a with base := k + off, size := a.size - off }, k + off) := by
  simp only [split, Outcome.bind_eq_ok, deref_eq_ok, assertMsg_eq_ok, Bool.and_eq_true,
    decide_eq_true_eq, Outcome.pure_eq_ok] at hr
  obtain ⟨a, ha, -, ⟨hlt, hpos⟩, rfl⟩ := hr
  refine ⟨a, ha, hpos, hlt, ?_⟩
  have hfree : (map.insert k { a with size := off }).find? (k + off) = none := by
    rw [StdMap.find?_insert, if_neg (by omega)]
    exact h.separated.find?_inside ha hpos hlt
  rw [h.key k a ha] at hfree ⊢
  rw [StdMap.emplace_of_find?_eq_none hfree]

theorem WF.split (h : map.WF x) (hr : split map k off = .ok r) : r.1.WF x ∧ ∀ p, r.1.at? p = map.at? p := by
  obtain ⟨a, ha, hpos, hlt, rfl⟩ := split_eq_ok h hr
  have hfree := h.separated.find?_inside ha hpos hlt
  have hcut : StdMap.Cut a off { a with size := off }
      { a with base := k + off, size := a.size - off } := by
    simpa [h.key k a ha] using cut_area hpos hlt
  refine ⟨⟨?_, h.separated.split ha hcut hfree, ?_, ?_, h.hi_lt⟩,
    fun p => StdMap.at?_split h.separated ha hcut hfree⟩
  · intro j b hj
    simp only [StdMap.find?_insert] at hj
    split at hj
    · cases hj
      simp_all
    split at hj
    · cases hj
      simpa [*] using h.key k a ha
    · exact h.key j b hj
  · intro j b hj
    simp only [StdMap.find?_insert] at hj
    split at hj
    · cases hj
      intro _
      simp only
      omega
    · split at hj
      · cases hj
        exact fun _ => hpos
      · exact h.pos j b hj
  · intro j b hj
    have hka := h.bounds k a ha
    simp only [StdMap.find?_insert] at hj
    split at hj
    · cases hj
      simp only
      omega
    split at hj
    · cases hj
      simp only
      omega
    · exact h.bounds j b hj

/-- The bytes `[addr, addr + size)` lie in the area `a`. -/
structure Carved (map : PhysMap) (addr size : Nat) (a : PhysicalMemoryArea) : Prop where
  mem : map.find? a.base = some a
  le : a.base ≤ addr
  fits : addr + size ≤ a.base + a.size

/-- `CarvePhysArea` changes no byte and leaves an entry for exactly the range. -/
theorem WF.carvePhysArea (h : map.WF x) (hsize : size < 2 ^ 64) (hr : carvePhysArea map addr size = .ok r) :
    r.1.WF x ∧ (∀ p, r.1.at? p = map.at? p) ∧ r.2 = addr ∧
      ∃ a, Carved map addr size a ∧ r.1.find? addr = some { a with base := addr, size := size } := by
  simp only [PhysMap.carvePhysArea, Outcome.bind_eq_ok, deref_eq_ok, assertMsg_eq_ok,
    decide_eq_true_eq] at hr
  obtain ⟨⟨k, a⟩, hfloor, -, -, -, hle, -, hend, m₁, hm₁, hr⟩ := hr
  obtain ⟨hk, hka, -⟩ := StdMap.floor?_eq_some.1 hfloor
  simp only at hk hka hle hend hm₁ hr
  have hbase := h.key k a hk
  have hbounds := h.bounds k a hk
  have hhi := h.hi_lt
  rw [hbase] at hle hend hm₁ hr
  -- cutting off what follows the range
  have hfst : m₁.WF x ∧ (∀ p, m₁.at? p = map.at? p) ∧
      m₁.find? k = some { a with size := U64.add (addr - k) size } := by
    split at hm₁
    · rename_i hne
      obtain ⟨r₁, hr₁, rfl⟩ := Outcome.map_eq_ok.1 hm₁
      have hwf := h.split hr₁
      obtain ⟨b, hb, hpos, hlt, rfl⟩ := split_eq_ok h hr₁
      rw [hk] at hb
      cases hb
      refine ⟨hwf.1, hwf.2, ?_⟩
      simp only [StdMap.find?_insert]
      rw [if_neg (by omega), if_pos trivial]
    · rename_i heq
      rw [Outcome.pure_eq_ok] at hm₁
      subst hm₁
      simp only [ne_eq, Decidable.not_not] at heq
      exact ⟨h, fun _ => rfl, by rw [heq]; exact hk⟩
  obtain ⟨hwf₁, hat₁, hfind₁⟩ := hfst
  -- cutting off what precedes it; the sum cannot have wrapped
  split at hr
  · rename_i hne
    have hwf := hwf₁.split hr
    obtain ⟨b, hb, hpos, hlt, rfl⟩ := split_eq_ok hwf₁ hr
    rw [hfind₁] at hb
    cases hb
    have hadd : U64.add (addr - k) size = addr - k + size := by
      simp only [U64.add] at hlt ⊢
      omega
    refine ⟨hwf.1, fun p => (hwf.2 p).trans (hat₁ p), by simp only; omega, a, ?_, ?_⟩
    · exact ⟨by rw [hbase]; exact hk, by omega, by omega⟩
    · simp only [StdMap.find?_insert, hadd]
      rw [if_pos (by omega)]
      simp only [Option.some.injEq, PhysicalMemoryArea.mk.injEq, and_self, and_true]
      omega
  · rename_i heq
    simp only [ne_eq, Decidable.not_not] at heq
    rw [Outcome.pure_eq_ok] at hr
    subst hr
    have hkaddr : k = addr := by omega
    subst hkaddr
    have hadd : U64.add (k - k) size = size := by
      simp only [U64.add]
      omega
    rw [hadd] at hfind₁ hend
    refine ⟨hwf₁, hat₁, rfl, a, ⟨by rw [hbase]; exact hk, by omega, by omega⟩, ?_⟩
    rw [hfind₁]
    simp [hbase]

/-- `f` changes what an area says about its bytes by `g`, and leaves its place. -/
structure Relabels (f : PhysicalMemoryArea → PhysicalMemoryArea) (g : PhysByte → PhysByte) :
    Prop where
  base : ∀ a, (f a).base = a.base
  size : ∀ a, (f a).size = a.size
  byte : ∀ a off, Area.byte (f a) off = g (Area.byte a off)

variable {f : PhysicalMemoryArea → PhysicalMemoryArea} {g : PhysByte → PhysByte}

theorem Carved.at? (h : map.WF x) (hc : Carved map addr size a) (hle : addr ≤ p)
    (hlt : p < addr + size) : map.at? p = some ⟨p, a.memoryType, a.dmaType⟩ := by
  have := hc.le
  have := hc.fits
  rw [StdMap.at?_of_find? h.separated hc.mem (by omega)
    (by simp only [PhysicalMemoryArea.area_size]; omega)]
  simp only [PhysicalMemoryArea.area_byte, Option.some.injEq, PhysByte.mk.injEq, and_self, and_true]
  omega

/-- Carving a range and changing the carved area relabels the bytes of the range. -/
theorem WF.carve_modify (h : map.WF x) (hsize : size < 2 ^ 64) (hf : Relabels f g)
    (hpos : 0 < size ∨ x.shrinks ∧ ∀ a, (f a).dmaType = .free)
    (hr : PhysMap.carvePhysArea map addr size = .ok r) : WF x (r.1.modify r.2 f) ∧ r.2 = addr ∧
      (∃ a, Carved map addr size a ∧
        (r.1.modify r.2 f).find? addr = some (f { a with base := addr, size := size })) ∧
      (r.1.modify r.2 f).at? = updateOn (Set.Ico addr (addr + size)) g map.at? := by
  obtain ⟨hwf, hat, hhandle, a, hcarved, hfind⟩ := h.carvePhysArea hsize hr
  rw [hhandle]
  rw [StdMap.modify_of_find?_eq_some hfind]
  have hsz : (f { a with base := addr, size := size }).size = size := hf.size _
  refine ⟨⟨?_, hwf.separated.insert_of_size_le hfind (by simp [hf.size]), ?_, ?_, h.hi_lt⟩, rfl,
    ⟨a, hcarved, by simp⟩, ?_⟩
  · intro j b hj
    simp only [StdMap.find?_insert] at hj
    split at hj
    · cases hj
      simp [hf.base, *]
    · exact hwf.key j b hj
  · intro j b hj
    simp only [StdMap.find?_insert] at hj
    split at hj
    · cases hj
      intro hne
      rw [hsz]
      refine hpos.resolve_right ?_
      rintro ⟨hshrinks, hfree⟩
      simp [hshrinks, hfree] at hne
    · exact hwf.pos j b hj
  · intro j b hj
    simp only [StdMap.find?_insert] at hj
    split at hj
    · rename_i hja
      cases hj
      rw [hsz, hja]
      exact hwf.bounds addr _ hfind
    · exact hwf.bounds j b hj
  · funext p
    rw [StdMap.at?_insert_of_size_eq hwf.separated hfind (by simp [hf.size])]
    simp only [PhysicalMemoryArea.area_size, hat]
    split
    · rename_i hp
      rw [updateOn_of_mem (Set.mem_Ico.2 hp), hcarved.at? h hp.1 hp.2, hf.byte]
      simp only [PhysicalMemoryArea.area_byte, Option.map_some]
      rw [Nat.add_sub_cancel' hp.1]
    · rename_i hp
      rw [updateOn_of_notMem (mt Set.mem_Ico.1 hp)]

/-- Carving, changing and coalescing relabels the bytes of the range. -/
theorem WF.retype (h : map.WF x) (hsize : size < 2 ^ 64) (hf : Relabels f g)
    (hpos : 0 < size ∨ x.shrinks ∧ ∀ a, (f a).dmaType = .free) (hr : retype map addr size f = .ok map') :
    map'.WF x ∧ (∃ a, Carved map addr size a) ∧
      map'.at? = updateOn (Set.Ico addr (addr + size)) g map.at? := by
  simp only [PhysMap.retype, Outcome.bind_eq_ok, Outcome.pure_eq_ok] at hr
  obtain ⟨r, hr, rfl⟩ := hr
  obtain ⟨hwf, -, ⟨a, hcarved, -⟩, hat⟩ := h.carve_modify hsize hf hpos hr
  exact ⟨hwf.mergeAdjacent, ⟨a, hcarved⟩,
    (funext fun _ => at?_mergeAdjacent hwf).trans hat⟩

/-! ## Backings -/

/-- Physical areas, keyed by offset, that back an area of `n` bytes. -/
structure Backs (areas : PhysMap) (n : Nat) : Prop extends StdMap.Tiles areas n where
  phys_lt : ∀ k a, areas.find? k = some a → a.base + a.size < 2 ^ 64

variable {areas : PhysMap} {n : Nat}

theorem Backs.joinsSoundly (h : areas.Backs n) :
    StdMap.JoinsSoundly PhysicalMemoryArea.canMergeWith PhysicalMemoryArea.join areas := by
  intro k a j b hk hj hcan
  exact ⟨h.toTiles.next?_eq hk hj, PhysicalMemoryArea.cut_join hcan (h.pos k a hk)⟩

theorem Backs.joined {areas' : PhysMap} (h : areas.Backs n)
    (hj : StdMap.Joined PhysicalMemoryArea.canMergeWith PhysicalMemoryArea.join areas areas') :
    areas'.Backs n where
  separated := hj.separated h.separated h.joinsSoundly
  pos := by
    refine hj.forall_entry h.pos ?_
    intro k a j b hk _ _
    have := h.pos k a hk
    simp only [PhysicalMemoryArea.area_size, PhysicalMemoryArea.join] at this ⊢
    omega
  le := by
    refine hj.forall_entry h.le ?_
    intro k a j b hk hj hcan
    have hjk := h.toTiles.next?_eq hk hj
    have := h.le j b (StdMap.next?_eq_some.1 hj).1
    simp only [PhysicalMemoryArea.area_size, PhysicalMemoryArea.join] at this hjk ⊢
    omega
  covered := by
    intro o ho
    rw [hj.at?_eq h.separated h.joinsSoundly]
    exact h.covered o ho
  phys_lt := by
    refine hj.forall_entry h.phys_lt ?_
    intro k a j b hk hj hcan
    have := h.phys_lt j b (StdMap.next?_eq_some.1 hj).1
    simp only [PhysicalMemoryArea.canMergeWith, Bool.and_eq_true, beq_iff_eq] at hcan
    simp only [PhysicalMemoryArea.join]
    omega

/-- Coalescing the pieces of a backing changes no byte of it. -/
theorem Backs.mergeAdjacent (h : areas.Backs n) :
    (mergeAdjacent areas k).1.Backs n ∧ ∀ p, (mergeAdjacent areas k).1.at? p = areas.at? p := by
  refine StdMap.mergeAdjacent_induction
    (P := fun m => PhysMap.Backs m n ∧ ∀ p, m.at? p = areas.at? p) ⟨h, fun _ => rfl⟩ ?_
  rintro m m' ⟨hm, heq⟩ hj
  exact ⟨hm.joined hj, fun p => (hj.at?_eq hm.separated hm.joinsSoundly).trans (heq p)⟩

theorem backs_empty : (∅ : PhysMap).Backs 0 where
  toTiles := StdMap.tiles_empty
  phys_lt := by simp

/-- Adding a piece at the end of a backing and coalescing it. -/
theorem Backs.append (h : areas.Backs n) (ha : 0 < a.size) (hlt : a.base + a.size < 2 ^ 64) :
    (PhysMap.mergeAdjacent (areas.insert n a) n).1.Backs (n + a.size) ∧
      ∀ p, (PhysMap.mergeAdjacent (areas.insert n a) n).1.at? p =
        if n ≤ p ∧ p < n + a.size then some ⟨a.base + (p - n), a.memoryType, a.dmaType⟩
        else areas.at? p := by
  obtain ⟨htiles, hat⟩ := h.toTiles.append (a := a) ha
  have hback : PhysMap.Backs (areas.insert n a) (n + a.size) := by
    refine ⟨htiles, ?_⟩
    intro k b hk
    simp only [StdMap.find?_insert] at hk
    split at hk
    · cases hk
      exact hlt
    · exact h.phys_lt k b hk
  exact ⟨hback.mergeAdjacent.1, fun p => (hback.mergeAdjacent.2 p).trans (hat p)⟩

/-- Relabelling every piece of a backing. -/
theorem Backs.mapVal (h : areas.Backs n) (hf : Relabels f g) :
    PhysMap.Backs (areas.mapVal f) n ∧ ∀ p, (areas.mapVal f).at? p = (areas.at? p).map g := by
  have hat : ∀ p, (areas.mapVal f).at? p = (areas.at? p).map g :=
    fun _ => StdMap.at?_mapVal hf.size hf.byte
  have hfind : ∀ k b, (areas.mapVal f).find? k = some b →
      ∃ a, areas.find? k = some a ∧ b.base = a.base ∧ b.size = a.size := by
    intro k b hk
    rw [StdMap.find?_mapVal, Option.map_eq_some_iff] at hk
    obtain ⟨a, ha, rfl⟩ := hk
    exact ⟨a, ha, hf.base a, hf.size a⟩
  refine ⟨⟨⟨?_, ?_, ?_, ?_⟩, ?_⟩, hat⟩
  · intro j b k c hj hk hjk
    obtain ⟨b', hb', -, hsz⟩ := hfind j b hj
    obtain ⟨c', hc', -, -⟩ := hfind k c hk
    have := h.separated j b' k c' hb' hc' hjk
    simp only [PhysicalMemoryArea.area_size] at this ⊢
    omega
  · intro k b hk
    obtain ⟨a, ha, -, hsz⟩ := hfind k b hk
    have := h.pos k a ha
    simp only [PhysicalMemoryArea.area_size] at this ⊢
    omega
  · intro k b hk
    obtain ⟨a, ha, -, hsz⟩ := hfind k b hk
    have := h.le k a ha
    simp only [PhysicalMemoryArea.area_size] at this ⊢
    omega
  · intro o ho
    obtain ⟨b, hb⟩ := h.covered o ho
    exact ⟨g b, by rw [hat, hb]; rfl⟩
  · intro k b hk
    obtain ⟨a, ha, hbase, hsz⟩ := hfind k b hk
    have := h.phys_lt k a ha
    omega

end PhysMap

end Core
