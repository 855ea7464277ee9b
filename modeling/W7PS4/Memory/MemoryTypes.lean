-- SUMMARY: The memory type is stored with the virtual area and with the direct memory: when the two agree.
import W7PS4.Memory.PoolAccount
import W7PS4.Memory.Queries

/-!
# Memory types

A direct or pooled area keeps the memory type of each physical area behind it, and
`dmem_map` keeps it a second time. `SetDirectMemoryType` changes both, but of several
areas that map the same memory only those in its range. The two agree in every run in
which it is called for all aliases, or for the type they have already. `VirtualQuery` reads
the one and `GetDirectMemoryType` the other.
-/

namespace Core

namespace Memory

variable {m m' : Memory} {U : Set Nat} {p q : Nat} {mt : Int}

/-- The memory type of a byte of direct memory. -/
def memoryType (m : Memory) (q : Nat) : Option Int := (m.dmem q).map PhysByte.memoryType

/-- The area of the byte at `p` has the direct memory at `q` behind it and says that its
    type is `mt`. -/
def RefersAs (m : Memory) (p q : Nat) (mt : Int) : Prop :=
  ∃ x b, m.virt p = some x ∧ (x.type = .direct ∨ x.type = .pooled) ∧ x.backing = some b ∧
    b.addr = q ∧ b.memoryType = mt

/-- Direct memory has the types that the areas using it say. -/
def TypesAgree (m : Memory) : Prop := ∀ p q mt, m.RefersAs p q mt → m.memoryType q = some mt

theorem RefersAs.refers (h : m.RefersAs p q mt) : m.Refers p q := by
  obtain ⟨x, b, hx, ht | ht, hb, hq, -⟩ := h
  · exact .inl ⟨x, b, hx, ht, hb, hq⟩
  · exact .inr ⟨x, b, hx, ht, hb, hq⟩

theorem refersAs_congr (h : m'.virt p = m.virt p) : m'.RefersAs p q mt ↔ m.RefersAs p q mt := by
  simp only [RefersAs, h]

theorem memoryType_updateOn {Q : Set Nat} {g : PhysByte → PhysByte}
    (hg : ∀ b, (g b).memoryType = b.memoryType) (h : m'.dmem = updateOn Q g m.dmem) :
    m'.memoryType q = m.memoryType q := by
  unfold memoryType
  rw [h]
  by_cases hq : q ∈ Q
  · rw [updateOn_of_mem hq, Option.map_map]
    congr 1
    funext b
    exact hg b
  · rw [updateOn_of_notMem hq]

theorem memoryType_withDmaType {Q : Set Nat} {t : PhysicalMemoryType}
    (h : m'.dmem = updateOn Q (PhysByte.withDmaType t) m.dmem) :
    m'.memoryType q = m.memoryType q :=
  memoryType_updateOn (PhysByte.withDmaType_memoryType t) h

theorem memoryType_of_notMem {Q : Set Nat} {g : PhysByte → PhysByte} (hq : q ∉ Q)
    (h : m'.dmem = updateOn Q g m.dmem) : m'.memoryType q = m.memoryType q := by
  unfold memoryType
  rw [h, updateOn_of_notMem hq]

/-- References that were there before, to memory that keeps its type. -/
theorem TypesAgree.of_refersAs (h : m.TypesAgree)
    (hold : ∀ p q mt, m'.RefersAs p q mt →
      m.RefersAs p q mt ∧ m'.memoryType q = m.memoryType q ∨ m'.memoryType q = some mt) :
    m'.TypesAgree := by
  intro p q mt href
  rcases hold p q mt href with ⟨hold, hkeep⟩ | hnew
  · exact hkeep.trans (h p q mt hold)
  · exact hnew

theorem refersAs_of_unmap (h : (m.unmap U).RefersAs p q mt) : m.RefersAs p q mt := by
  obtain ⟨x, b, hx, ht, hb, hq⟩ := h
  by_cases hp : p ∈ U
  · rw [virt_unmap_of_mem hp, Option.map_eq_some_iff] at hx
    obtain ⟨y, hy, rfl⟩ := hx
    unfold VirtByte.unmapped at ht hb
    split at ht
    · rename_i hinert
      rw [if_pos hinert] at hb
      exact ⟨y, b, hy, ht, hb, hq⟩
    · simp [VirtByte.free] at ht
  · rw [virt_unmap_of_notMem hp] at hx
    exact ⟨x, b, hx, ht, hb, hq⟩

theorem TypesAgree.unmap (h : m.TypesAgree) : (m.unmap U).TypesAgree :=
  h.of_refersAs fun _ _ _ href =>
    .inl ⟨refersAs_of_unmap href, memoryType_withDmaType rfl⟩

/-- Labelling memory that nothing refers to. -/
theorem TypesAgree.relabel {Q : Set Nat} {g : PhysByte → PhysByte} (h : m.TypesAgree)
    (hQ : ∀ q ∈ Q, ∀ p, ¬m.Refers p q) (hvirt : m'.virt = m.virt)
    (hdmem : m'.dmem = updateOn Q g m.dmem) : m'.TypesAgree := by
  refine h.of_refersAs fun p q mt href => ?_
  have hold := (refersAs_congr (congrFun hvirt p)).1 href
  exact .inl ⟨hold, memoryType_of_notMem (fun hq => hQ q hq p hold.refers) hdmem⟩

theorem refersAs_place {a n : Nat} {y : Nat → VirtByte} (h : (m.place a n y).RefersAs p q mt) :
    (a ≤ p ∧ p < a + n) ∧ ((y (p - a)).type = .direct ∨ (y (p - a)).type = .pooled) ∧
        (∃ b, (y (p - a)).backing = some b ∧ b.addr = q ∧ b.memoryType = mt) ∨
      m.RefersAs p q mt := by
  obtain ⟨x, b, hx, ht, hb, hq⟩ := h
  rw [virt_place] at hx
  split at hx
  · rename_i hp
    cases hx
    exact .inl ⟨hp, ht, b, hb, hq⟩
  · exact .inr ⟨x, b, hx, ht, hb, hq⟩

theorem TypesAgree.mapsArea {a n phys : Nat} {x : VirtByte} (h : m.TypesAgree)
    (hmaps : m.MapsArea a n x phys m') : m'.TypesAgree := by
  cases hmaps with
  | plain hx =>
    refine h.of_refersAs fun p q mt href => ?_
    rcases refersAs_place href with ⟨-, ht | ht, -⟩ | hold
    · simp [ht, VMAType.hasPhysicalBacking] at hx
    · simp [ht, VMAType.hasPhysicalBacking] at hx
    · exact .inl ⟨hold, rfl⟩
  | flexible hx =>
    refine h.of_refersAs fun p q mt href => ?_
    rw [refersAs_congr (congrFun virt_mapFlexible p)] at href
    rcases refersAs_place href with ⟨-, ht, -⟩ | hold
    · simp [hx] at ht
    · exact .inl ⟨hold, rfl⟩
  | direct hx hphys =>
    have hkeep : ∀ q, (m.mapDirect a n x phys).memoryType q = m.memoryType q := fun q =>
      memoryType_withDmaType rfl
    refine h.of_refersAs fun p q mt href => ?_
    rw [refersAs_congr (congrFun virt_mapDirect p)] at href
    rcases refersAs_place href with ⟨hp, -, b, hb, rfl, rfl⟩ | hold
    · obtain ⟨c, hc, hca⟩ := hphys (p - a) (by omega)
      rw [hc, Option.map_some, Option.some.injEq] at hb
      subst hb
      right
      rw [hkeep, memoryType, PhysByte.withDmaType_addr, hca, hc]
      rfl
    · exact .inl ⟨hold, hkeep q⟩

theorem TypesAgree.commit {a n : Nat} {x : VirtByte} {y : Nat → PhysByte} (h : m.TypesAgree)
    (htrack : m.Tracked) (htaken : ∀ o, o < n → ∃ b, m.dmem (y o).addr = some b ∧
      b.dmaType = .pooled ∧ y o = b.labelled mt .committed) :
    (m.commit a n x y mt).TypesAgree := by
  refine h.of_refersAs fun p q mt' href => ?_
  rw [refersAs_congr (congrFun virt_commit p)] at href
  rcases refersAs_place href with ⟨hp, -, b, hb, rfl, rfl⟩ | hold
  · simp only [Option.some.injEq] at hb
    subst hb
    right
    obtain ⟨c, hc, -, hy⟩ := htaken (p - a) (by omega)
    have hmem : (y (p - a)).addr ∈ {q | ∃ o < n, (y o).addr = q} := ⟨_, by omega, rfl⟩
    simp only [memoryType, Memory.commit, updateOn_of_mem hmem, hc, Option.map_some]
    rw [hy, PhysByte.labelled_memoryType]
  · -- committed memory comes from the pool, which nothing refers to
    refine .inl ⟨hold, memoryType_of_notMem (g := PhysByte.labelled mt .committed) ?_ rfl⟩
    rintro ⟨o, ho, rfl⟩
    obtain ⟨c, hc, hpool, -⟩ := htaken o ho
    have hdma : m.dma (y o).addr = some .pooled := dma_eq_some.2 ⟨c, hc, hpool⟩
    rcases hold.refers with hd | hp
    · exact (htrack.direct p _ hd).ne (by decide) (by decide) hdma
    · cases (htrack.pooled p _ hp).symm.trans hdma

theorem TypesAgree.decommit (h : m.TypesAgree) : (m.decommit U).TypesAgree := by
  refine h.of_refersAs fun p q mt href => .inl ⟨?_, memoryType_withDmaType rfl⟩
  obtain ⟨x, b, hx, ht, hb, hq⟩ := href
  by_cases hp : p ∈ U
  · simp only [Memory.decommit, updateOn_of_mem hp, Option.map_eq_some_iff] at hx
    obtain ⟨_, -, rfl⟩ := hx
    simp [VirtByte.poolReserved] at ht
  · exact ⟨x, b, (updateOn_of_notMem hp).symm.trans hx, ht, hb, hq⟩

/-- Setting the type of `U` when what else uses the memory has that type already. -/
theorem TypesAgree.setType (h : m.TypesAgree)
    (halias : ∀ p p' q mt', p ∈ U → p' ∉ U → m.Refers p q → m.RefersAs p' q mt' → mt' = mt) :
    (m.setType U mt).TypesAgree := by
  rintro p q mt' ⟨x, b, hx, ht, hb, rfl, rfl⟩
  have hmem : ∀ q, (m.memoryType q).isSome → q ∈ m.behind .direct U ∪ m.behind .pooled U →
      (m.setType U mt).memoryType q = some mt := by
    intro q hsome hq
    simp only [memoryType, Option.isSome_map] at hsome
    obtain ⟨c, hc⟩ := Option.isSome_iff_exists.1 hsome
    simp only [memoryType, Memory.setType, updateOn_of_mem hq, hc, Option.map_some]
    rfl
  by_cases hp : p ∈ U
  · simp only [Memory.setType, updateOn_of_mem hp, Option.map_eq_some_iff] at hx
    obtain ⟨y, hy, rfl⟩ := hx
    rw [VirtByte.withMemoryType_type] at ht
    rw [VirtByte.withMemoryType, if_pos ht] at hb
    obtain ⟨c, hc, rfl⟩ := Option.map_eq_some_iff.1 hb
    have hold : m.RefersAs p c.addr c.memoryType := ⟨y, c, hy, ht, hc, rfl, rfl⟩
    refine hmem c.addr (by rw [h _ _ _ hold]; rfl) ?_
    exact hold.refers.imp (fun hd => ⟨p, hp, hd⟩) fun hd => ⟨p, hp, hd⟩
  · have hold : m.RefersAs p b.addr b.memoryType :=
      ⟨x, b, (updateOn_of_notMem hp).symm.trans hx, ht, hb, rfl, rfl⟩
    by_cases hq : b.addr ∈ m.behind .direct U ∪ m.behind .pooled U
    · rw [hmem _ (by rw [h _ _ _ hold]; rfl) hq, Option.some.injEq, eq_comm]
      rcases hq with ⟨p', hp', hd⟩ | ⟨p', hp', hd⟩
      · exact halias p' p _ _ hp' hp (.inl hd) hold
      · exact halias p' p _ _ hp' hp (.inr hd) hold
    · have hkeep : (m.setType U mt).memoryType b.addr = m.memoryType b.addr :=
        memoryType_of_notMem hq rfl
      exact hkeep.trans (h _ _ _ hold)

end Memory

/-- Where a `SetDirectMemoryType` keeps the types in agreement: what else uses the memory
    has the type already. -/
def Op.RetypesAliases (s : MemoryManager) : Op → Prop
  | .setDirectMemoryType addr size mt => ∀ p p' q mt',
      p ∈ Set.Ico addr.toNat (addr.toNat + size.toNat) →
      p' ∉ Set.Ico addr.toNat (addr.toNat + size.toNat) →
      s.view.Refers p q → s.view.RefersAs p' q mt' → mt' = mt
  | _ => True

namespace MemoryManager

variable {env : Environment} {s s' : MemoryManager}

theorem Maps.typesAgree {W : Set Nat} {a n phys : Nat} {x : VirtByte}
    (h : Maps env W a n x phys s s') (ht : s.view.TypesAgree) : s'.view.TypesAgree := by
  obtain ⟨s₁, hu, -, hmaps⟩ := h.result
  have ht₁ : s₁.view.TypesAgree := hu.view ▸ ht.unmap
  exact ht₁.mapsArea hmaps

theorem Effect.typesAgree {op : Op} {r : Reply} (h : Effect env s s' op r)
    (htrack : s.view.Tracked) (ht : s.view.TypesAgree) (hrel : op.ReleasesUnused s)
    (hexp : op.ExpandsFree) (hret : op.RetypesAliases s) : s'.view.TypesAgree := by
  cases h with
  | retouched same =>
    refine ht.of_refersAs fun p q mt href => .inl ⟨?_, ?_⟩
    · obtain ⟨x, b, hx, hxt, hb, hq⟩ := href
      obtain ⟨y, hy, hyt, hyb⟩ := same.exists_virt hx
      exact ⟨y, b, hy, hyt ▸ hxt, hyb.trans hb, hq⟩
    · rw [Memory.memoryType, same.dmem]
      rfl
  | @shrunk _ _ _ _ R free view =>
    rw [view]
    refine ht.of_refersAs fun p q mt href => ?_
    have hold := (Memory.refersAs_congr rfl).1 href
    have hmem := ht p q mt hold
    have hR : q ∉ R := by
      intro hR
      obtain ⟨b, hb, -⟩ := Option.map_eq_some_iff.1 hmem
      exact htrack.owned p q hold.refers (Memory.dma_eq_some.2 ⟨b, hb, free q hR b hb⟩)
    refine .inl ⟨hold, ?_⟩
    simp only [Memory.memoryType, Memory.shrink, if_neg hR]
  | expanded _ free view =>
    rw [view]
    exact ht.relabel (fun q hq => not_refers_of_free htrack.owned (free hexp q hq)) rfl rfl
  | allocated free view =>
    rw [view]
    exact ht.relabel (fun q hq => not_refers_of_free htrack.owned (free q hq)) rfl rfl
  | @freed _ _ checked _ U Q held _ unmaps view =>
    rw [view]
    exact ht.unmap.relabel (fun q hq p => not_refers_released
      (hrel : Op.ReleasesUnused s (.free _ _ checked)) unmaps (held hq)) rfl rfl
  | committed commits =>
    rw [commits.view]
    exact ht.commit htrack commits.taken
  | decommitted _ decommits =>
    rw [decommits.view]
    exact ht.decommit
  | mapped maps => exact maps.typesAgree ht
  | mappedFile maps => exact maps.typesAgree ht
  | unmapped unmaps =>
    rw [unmaps.view]
    exact ht.unmap
  | retyped view =>
    rw [view]
    exact ht.setType hret

/-- `VirtualQuery` reports the type of the first piece for all of a direct area, and 0 for a
    pooled one: the piece has that type. -/
def ReportedType (v : VirtualMemoryArea) (e : PhysicalMemoryArea) : Prop :=
  v.type = .direct ∧ (∃ x, v.physAreas.first? = some x ∧ x.2.memoryType = e.memoryType) ∨
    v.type = .pooled ∧ e.memoryType = 0

/-- The two queries succeed, one for the virtual address and one for the direct memory, and
    report the same type. -/
def ReportSameType (env : Environment) (s : MemoryManager) (flags : Int) (p q : Nat) : Prop :=
  ∃ info d, s.virtualQuery env p flags = .ok (.ok info) ∧
    s.getDirectMemoryType q = .ok (.ok d) ∧ info.memoryType = d.memoryType

/-- Every physical area of a direct or pooled area has the type that `dmem_map` has for
    each of its bytes. The queries report that, as far as they report the type of the piece. -/
structure MemoryTypesAgree (env : Environment) (s : MemoryManager) : Prop where
  bytes : ∀ k v o e i, s.vmaMap.find? k = some v → v.type = .direct ∨ v.type = .pooled →
    v.physAreas.find? o = some e → i < e.size → ∃ j d, s.dmemMap.find? j = some d ∧
      d.base ≤ e.base + i ∧ e.base + i < d.base + d.size ∧ d.memoryType = e.memoryType
  queries : ∀ k v o e i flags, s.vmaMap.find? k = some v → v.type = .direct ∨ v.type = .pooled →
    v.physAreas.find? o = some e → i < e.size → env.systemManagedVirtualBase ≤ k + o + i →
      (s.ReportSameType env flags (k + o + i) (e.base + i) ↔
        ReportedType v e ∧ e.base + i < s.totalDirectSize)

/-- The byte of a piece, and the memory behind it. -/
theorem bytes_of_piece (h : s.Valid env) {k o i : Nat} {v : VirtualMemoryArea} {e : PhysicalMemoryArea}
    (ht : s.view.TypesAgree) (hk : s.vmaMap.find? k = some v)
    (htype : v.type = .direct ∨ v.type = .pooled) (he : v.physAreas.find? o = some e)
    (hi : i < e.size) : s.view.Refers (k + o + i) (e.base + i) ∧
      ∃ j d, s.dmemMap.find? j = some d ∧ d.base ≤ e.base + i ∧ e.base + i < d.base + d.size ∧
        d.memoryType = e.memoryType := by
  have hback : v.type.hasPhysicalBacking := by
    rcases htype with h | h
    · rw [h]
      rfl
    · rw [h]
      rfl
  have hvirt := virt_of_piece h.vma hk hback he hi
  have hrefers : s.view.RefersAs (k + o + i) (e.base + i) e.memoryType :=
    ⟨_, _, hvirt, htype, rfl, rfl, rfl⟩
  obtain ⟨b, hb, hbt⟩ := Option.map_eq_some_iff.1 (ht _ _ _ hrefers)
  obtain ⟨j, d, hj, hle, hlt, rfl⟩ := StdMap.exists_of_at? hb
  have hbase := h.dmem.key j d hj
  exact ⟨hrefers.refers, j, d, hj, by rw [hbase]; exact hle, by rw [hbase]; exact hlt, hbt⟩

/-- `GetDirectMemoryType` refuses an address from `total_direct_size` on. -/
theorem not_reportSameType_of_le {flags : Int} {p q : Nat} (hle : s.totalDirectSize ≤ q) :
    ¬s.ReportSameType env flags p q := by
  rintro ⟨_, d, -, hget, -⟩
  rw [getDirectMemoryType, if_pos hle] at hget
  cases hget

/-- `GetDirectMemoryType` finds memory that is in use. -/
theorem getDirectMemoryType_of_mem (h : s.Valid env) (ho : s.view.Owned) {p q j : Nat}
    {d : PhysicalMemoryArea} (hrefers : s.view.Refers p q) (hj : s.dmemMap.find? j = some d)
    (hle : d.base ≤ q) (hlt : q < d.base + d.size) (htotal : q < s.totalDirectSize) :
    s.getDirectMemoryType q = .ok (.ok ⟨d.memoryType, d.base, d.getEnd⟩) := by
  rw [h.dmem.key j d hj] at hle hlt
  have hfloor := StdMap.floor?_of_mem h.dmem.separated hj hle hlt
  have hfree : d.dmaType ≠ .free := by
    intro hfree
    exact ho p q hrefers (Memory.dma_eq_some.2 ⟨_, StdMap.at?_of_find? h.dmem.separated hj hle hlt, hfree⟩)
  simp only [getDirectMemoryType, if_neg (Nat.not_le.2 htotal), hfloor, deref, Outcome.ok_bind,
    if_neg hfree]
  rfl

theorem memoryTypesAgree_of_typesAgree (h : s.Valid env) (htrack : s.view.Tracked)
    (ht : s.view.TypesAgree) : s.MemoryTypesAgree env where
  bytes := fun k v o e i hk htype he hi => (bytes_of_piece h ht hk htype he hi).2
  queries := by
    intro k v o e i flags hk htype he hi hbase
    by_cases htotal : e.base + i < s.totalDirectSize
    swap
    · refine iff_of_false (not_reportSameType_of_le (Nat.not_lt.1 htotal)) fun hreported => ?_
      exact htotal hreported.2
    rw [and_iff_left htotal]
    obtain ⟨hrefers, j, d, hj, hle, hlt, hmt⟩ := bytes_of_piece h ht hk htype he hi
    have hget := getDirectMemoryType_of_mem h htrack.owned hrefers hj hle hlt htotal
    have hback : v.type.hasPhysicalBacking := by
      rcases htype with htype | htype <;> rw [htype] <;> rfl
    have hend := ((h.vma.entry k v hk).backed hback).le o e he
    simp only [PhysicalMemoryArea.area_size] at hend
    have hfloor : s.vmaMap.floor? (k + o + i) = some (k, v) :=
      StdMap.floor?_of_mem h.vma.separated hk (by omega)
        (by simp only [VirtualMemoryArea.area_size]; omega)
    have hused : v.type ≠ .free := by
      rintro hfree
      simp [hfree] at htype
    obtain ⟨info, hinfo, hdirect, hother⟩ := describe_memoryType (h.vma.entry k v hk)
    have hquery : s.virtualQuery env (k + o + i) flags = .ok (.ok info) := by
      rw [virtualQuery_of_floor? hbase hfloor hused, hinfo]
      rfl
    have hsame : s.ReportSameType env flags (k + o + i) (e.base + i) ↔
        info.memoryType = e.memoryType := by
      simp only [ReportSameType, hquery, hget, Except.ok.injEq]
      exact ⟨fun ⟨_, _, hi, hd, heq⟩ => by rw [hi, heq, ← hd, ← hmt],
        fun heq => ⟨info, _, rfl, rfl, heq.trans hmt.symm⟩⟩
    rw [hsame]
    rcases htype with htype | htype
    · obtain ⟨x, hx, hxt⟩ := hdirect htype
      simp [ReportedType, htype, hx, hxt]
    · rw [hother (by simp [htype])]
      simp [ReportedType, htype, eq_comm]

/-- In a run that retypes all aliases of memory together, the memory types agree in
    every state. -/
theorem reachable_memoryTypesAgree (h : Reachable env
    (fun s op => op.ReleasesUnused s ∧ op.ExpandsFree ∧ op.RetypesAliases s) s) :
    s.MemoryTypesAgree env := by
  have hinv : s.view.Tracked ∧ s.view.TypesAgree := by
    refine h.invariant (P := fun m => m.Tracked ∧ m.TypesAgree) ⟨tracked_init, ?_⟩ ?_
    · intro p q mt href
      rcases href.refers with hd | hp
      · exact absurd hd not_maps_init
      · exact absurd hp not_maps_init
    · intro s s' op r _ hm hop heff
      exact ⟨heff.tracked hm.1 hop.1 hop.2.1,
        heff.typesAgree hm.1 hm.2 hop.1 hop.2.1 hop.2.2⟩
  exact memoryTypesAgree_of_typesAgree h.valid hinv.1 hinv.2

/-- Direct memory of type 0 that is mapped twice, at adjacent addresses. -/
def mapTwiceCalls : List Op :=
  [.allocate 0 0x100000000 0x10000 0 0,
   .mapMemory 0x200000000 0x10000 .cpuReadWrite .fixed .direct "a" false 0 0,
   .mapMemory 0x200010000 0x10000 .cpuReadWrite .fixed .direct "b" false 0 0]

theorem reachable_memoryTypesAgree_of_run : ∃ s,
    run .retail (init .retail) (mapTwiceCalls ++ [.setDirectMemoryType 0x200000000 0x20000 3]) =
      .ok s ∧ s.pieces .direct = [(0x200000000, 0, 0x10000), (0x200010000, 0, 0x10000)] ∧
      s.ReportSameType .retail 0 0x200010000 0 ∧ s.MemoryTypesAgree .retail := by
  obtain ⟨s, s', r, hreach, hbefore, hr, hafter, hrun⟩ :=
    exists_last_call
      (C := fun s op => op.ReleasesUnused s ∧ op.ExpandsFree ∧ op.RetypesAliases s) .retail
      mapTwiceCalls (.setDirectMemoryType 0x200000000 0x20000 3)
      (fun s => decide (s.pieces .direct = [(0x200000000, 0, 0x10000), (0x200010000, 0, 0x10000)] ∧
        s.pieces .pooled = []))
      (fun s => decide (s.pieces .direct = [(0x200000000, 0, 0x10000), (0x200010000, 0, 0x10000)] ∧
        (∃ v ∈ s.vmaMap.find? 0x200010000, v.type = .direct ∧
          ∃ e ∈ v.physAreas.find? 0, e.base = 0 ∧ 0 < e.size ∧ v.physAreas.first? = some (0, e)) ∧
        0 < s.totalDirectSize))
      (by simp [mapTwiceCalls, Op.ReleasesUnused, Op.ExpandsFree, Op.RetypesAliases]; decide)
      (by with_unfolding_all decide)
  obtain ⟨hdirect, hpooled⟩ := of_decide_eq_true hbefore
  obtain ⟨hpieces, ⟨v, hv, htype, e, he, hbase, hsize, hfirst⟩, htotal⟩ := of_decide_eq_true hafter
  have hagree : s'.MemoryTypesAgree .retail := by
    refine reachable_memoryTypesAgree (hreach.call hr (by decide) ⟨trivial, trivial, ?_⟩)
    -- both mappings lie in the range
    intro p p' q mt' _ hp' _ href
    obtain ⟨x, hx, i, hi, rfl, -⟩ : ∃ x ∈ s.pieces .direct ++ s.pieces .pooled,
        ∃ i < x.2.2, p' = x.1 + i ∧ q = x.2.1 + i := by
      rcases href.refers with href | href
      · obtain ⟨x, hx, hi⟩ := exists_piece href
        exact ⟨x, List.mem_append_left _ hx, hi⟩
      · obtain ⟨x, hx, hi⟩ := exists_piece href
        exact ⟨x, List.mem_append_right _ hx, hi⟩
    refine absurd ?_ hp'
    rw [hdirect, hpooled] at hx
    simp only [List.append_nil, List.mem_cons, List.not_mem_nil, or_false] at hx
    rw [Set.mem_Ico]
    rcases hx with rfl | rfl <;> simp at hi ⊢ <;> omega
  refine ⟨s', hrun, hpieces, ?_, hagree⟩
  have hsame := hagree.queries _ v 0 e 0 0 hv (.inl htype) he hsize (by decide)
  rw [hbase] at hsame
  exact hsame.2 ⟨.inl ⟨htype, _, hfirst, rfl⟩, htotal⟩

/-- Direct memory mapped twice, and one mapping retyped. -/
def retypeAliasCalls : List Op :=
  [.allocate 0 0x100000000 0x10000 0 0,
   .mapMemory 0x200000000 0x10000 .cpuReadWrite .fixed .direct "a" false 0 0,
   .mapMemory 0x300000000 0x10000 .cpuReadWrite .fixed .direct "b" false 0 0,
   .setDirectMemoryType 0x300000000 0x10000 3]

/-- Retyping one of two mappings of direct memory leaves the other with the old type. -/
theorem not_memoryTypesAgree_of_alias : ∃ s, run .retail (init .retail) retypeAliasCalls = .ok s ∧
    Reachable .retail anyCall s ∧ ¬s.MemoryTypesAgree .retail := by
  have hrun : (match run .retail (init .retail) retypeAliasCalls with
      | .ok s => decide ((s.dmemMap.at? 0).map PhysByte.memoryType = some 3 ∧
          ∃ v ∈ s.vmaMap.find? 0x200000000, v.type = .direct ∧
            ∃ e ∈ v.physAreas.find? 0, e.base = 0 ∧ 0 < e.size ∧ e.memoryType = 0)
      | .error _ => false) = true := by with_unfolding_all decide
  split at hrun
  · rename_i s hs
    obtain ⟨hlabel, v, hv, ht, e, he, hbase, hsize, hzero⟩ := of_decide_eq_true hrun
    have hreach : Reachable .retail anyCall s := by
      refine reachable_of_run .refl hs ?_
      intro op hop
      exact ⟨by revert op; decide, fun _ => trivial⟩
    refine ⟨s, hs, hreach, fun hagree => ?_⟩
    obtain ⟨j, d, hj, hle, hlt, hmt⟩ := hagree.bytes _ v _ e 0 hv (.inl ht) he hsize
    rw [hreach.valid.dmem.key j d hj, hbase] at hle hlt
    have hat := StdMap.at?_of_find? hreach.valid.dmem.separated hj hle hlt
    rw [hat, Option.map_some, Option.some.injEq] at hlabel
    simp only [PhysicalMemoryArea.area_byte] at hlabel
    omega
  · cases hrun

end MemoryManager

end Core
