-- SUMMARY: Which direct memory is behind virtual memory: that it is not free, and that its label fits the areas that use it.
import W7PS4.Memory.Partition

/-!
# Direct memory in use

A byte of direct memory that a virtual area refers to must not be free, or the next
allocation hands it out a second time. `Free` is the one call that can break this:
it looks for direct areas that use the memory and passes over pooled ones, and an
unchecked call counts only the bytes it releases towards its size. Where it releases
nothing that such an area uses, the property holds of every reachable state.

`Tracked` is the stronger invariant the accounts of pooled memory and of memory types
rest on. It needs `PoolExpand` to take free memory only.
-/

namespace Core

namespace Memory

variable {m m' : Memory} {p q a n : Nat} {U : Set Nat} {t : PhysicalMemoryType}

/-- The label of a byte of direct memory. -/
def dma (m : Memory) (q : Nat) : Option PhysicalMemoryType := (m.dmem q).map PhysByte.dmaType

/-- The direct memory at `q` is behind the virtual byte at `p`. -/
def Refers (m : Memory) (p q : Nat) : Prop := m.Maps .direct p q ∨ m.Maps .pooled p q

/-! ## How labels change -/

theorem dma_eq_some : m.dma q = some t ↔ ∃ b, m.dmem q = some b ∧ b.dmaType = t :=
  Option.map_eq_some_iff

/-- The labels after all bytes of `S` have been labelled `t`. -/
theorem dma_of_updateOn {S : Set Nat} {g : PhysByte → PhysByte} {t' : PhysicalMemoryType}
    (hg : ∀ b, (g b).dmaType = t) (h : m'.dmem = updateOn S g m.dmem) :
    m'.dma q = some t' ↔
      q ∈ S ∧ (m.dma q).isSome ∧ t = t' ∨ q ∉ S ∧ m.dma q = some t' := by
  unfold dma
  rw [h]
  by_cases hq : q ∈ S
  · rw [updateOn_of_mem hq]
    cases m.dmem q with
    | none => simp
    | some b => simp [hq, hg b]
  · rw [updateOn_of_notMem hq]
    simp [hq]

variable {t' : PhysicalMemoryType}

theorem dma_unmap : (m.unmap U).dma q = some t' ↔
    q ∈ m.behind .direct U ∧ (m.dma q).isSome ∧ .allocated = t' ∨
      q ∉ m.behind .direct U ∧ m.dma q = some t' :=
  dma_of_updateOn (fun _ => rfl) rfl

variable {mt : Int}

theorem dma_relabelDirect {Q : Set Nat} : (m.relabelDirect Q (PhysByte.labelled mt t)).dma q = some t' ↔
      q ∈ Q ∧ (m.dma q).isSome ∧ t = t' ∨ q ∉ Q ∧ m.dma q = some t' :=
  dma_of_updateOn (fun _ => rfl) rfl

theorem dma_mapDirect {x : VirtByte} {phys : Nat} : (m.mapDirect a n x phys).dma q = some t' ↔
    q ∈ Set.Ico phys (phys + n) ∧ (m.dma q).isSome ∧ .mapped = t' ∨
      q ∉ Set.Ico phys (phys + n) ∧ m.dma q = some t' :=
  dma_of_updateOn (fun _ => rfl) rfl

theorem dma_commit {x : VirtByte} {y : Nat → PhysByte} : (m.commit a n x y mt).dma q = some t' ↔
      q ∈ {q | ∃ o < n, (y o).addr = q} ∧ (m.dma q).isSome ∧ .committed = t' ∨
        q ∉ {q | ∃ o < n, (y o).addr = q} ∧ m.dma q = some t' :=
  dma_of_updateOn (fun _ => rfl) rfl

theorem dma_decommit : (m.decommit U).dma q = some t' ↔
    q ∈ m.behind .pooled U ∧ (m.dma q).isSome ∧ .pooled = t' ∨
      q ∉ m.behind .pooled U ∧ m.dma q = some t' :=
  dma_of_updateOn (fun _ => rfl) rfl

theorem dma_setType : (m.setType U mt).dma q = m.dma q := by
  simp only [dma, setType]
  by_cases hq : q ∈ m.behind .direct U ∪ m.behind .pooled U
  · rw [updateOn_of_mem hq]
    cases m.dmem q with
    | none => rfl
    | some b => rfl
  · rw [updateOn_of_notMem hq]

theorem dma_shrink {R : Set Nat} : (m.shrink R).dma q = some t' ↔ q ∉ R ∧ m.dma q = some t' := by
  simp only [dma_eq_some, dmem_shrink]
  constructor
  · rintro ⟨b, ⟨hq, hb⟩, ht⟩
    exact ⟨hq, b, hb, ht⟩
  · rintro ⟨hq, b, hb, ht⟩
    exact ⟨b, ⟨hq, hb⟩, ht⟩

theorem SameBacking.dma_eq (h : m.SameBacking m') : m'.dma q = m.dma q := by
  unfold dma
  rw [h.dmem]

theorem SameBacking.refers_iff (h : m.SameBacking m') : m'.Refers p q ↔ m.Refers p q :=
  or_congr h.maps_iff h.maps_iff

theorem refers_congr (h : m'.virt = m.virt) : m'.Refers p q ↔ m.Refers p q :=
  or_congr (maps_congr h) (maps_congr h)

theorem refers_of_unmap (h : (m.unmap U).Refers p q) : m.Refers p q :=
  h.imp (fun h => ((maps_unmap (by decide) (by decide)).1 h).2) maps_unmap_pooled.1

theorem refers_of_decommit (h : (m.decommit U).Refers p q) : m.Refers p q :=
  h.imp (fun h => ((maps_decommit (by decide)).1 h).2) fun h => ((maps_decommit (by decide)).1 h).2

end Memory

/-! ## No reference to free memory -/

/-- No direct memory behind a virtual byte is free. -/
def Memory.Owned (m : Memory) : Prop := ∀ p q, m.Refers p q → m.dma q ≠ some .free

/-- Where a `Free` may be called: none of the memory it can release is behind pooled
    memory, and what is behind direct memory lies in the block as given. -/
def Op.ReleasesUnused (s : MemoryManager) : Op → Prop
  | .free physAddr size _ => ∀ q ∈ s.view.firstHeld physAddr.toNat size.toNat, ∀ p,
      ¬s.view.Maps .pooled p q ∧ (s.view.Maps .direct p q →
        physAddr.toNat + size.toNat < 2 ^ 64 ∧ q < physAddr.toNat + size.toNat)
  | _ => True

namespace Memory

variable {m m' : Memory} {U : Set Nat}

/-- References that were there before, or to memory that is not free, and no new free
    memory. -/
theorem Owned.of_refers (h : m.Owned)
    (hrefs : ∀ p q, m'.Refers p q → m.Refers p q ∨ m'.dma q ≠ some .free)
    (hfree : ∀ q, m'.dma q = some .free → m.dma q = some .free) : m'.Owned := by
  intro p q hpq hq
  rcases hrefs p q hpq with hold | hnew
  · exact h p q hold (hfree q hq)
  · exact hnew hq

theorem Owned.unmap (h : m.Owned) : (m.unmap U).Owned := by
  refine h.of_refers (fun p q hpq => .inl (refers_of_unmap hpq)) ?_
  intro q hq
  rcases dma_unmap.1 hq with ⟨-, -, habs⟩ | ⟨-, hold⟩
  · cases habs
  · exact hold

theorem Owned.mapsArea {a n phys : Nat} {x : VirtByte} (h : m.Owned)
    (hmaps : m.MapsArea a n x phys m') : m'.Owned := by
  cases hmaps with
  | plain hx =>
    have hpooled : x.type ≠ .pooled := by
      rintro heq
      simp [heq, VMAType.hasPhysicalBacking] at hx
    have hdirect : x.type ≠ .direct := by
      rintro heq
      simp [heq, VMAType.hasPhysicalBacking] at hx
    refine h.of_refers ?_ fun q hq => hq
    rintro p q (hpq | hpq)
    · rcases maps_place.1 hpq with ⟨-, ht, -⟩ | ⟨-, hold⟩
      · exact absurd ht hdirect
      · exact .inl (.inl hold)
    · rcases maps_place.1 hpq with ⟨-, ht, -⟩ | ⟨-, hold⟩
      · exact absurd ht hpooled
      · exact .inl (.inr hold)
  | flexible hx =>
    refine h.of_refers ?_ fun q hq => hq
    rintro p q (hpq | hpq)
    · rcases maps_mapFlexible.1 hpq with ⟨-, ht, -⟩ | ⟨-, hold⟩
      · cases hx.symm.trans ht
      · exact .inl (.inl hold)
    · rcases maps_mapFlexible.1 hpq with ⟨-, ht, -⟩ | ⟨-, hold⟩
      · cases hx.symm.trans ht
      · exact .inl (.inr hold)
  | direct hx hphys =>
    have hnotfree : ∀ q, q ∈ Set.Ico phys (phys + n) →
        (m.mapDirect a n x phys).dma q ≠ some .free := by
      intro q hq hfree
      rcases dma_mapDirect.1 hfree with ⟨-, -, habs⟩ | ⟨hno, -⟩
      · cases habs
      · exact hno hq
    refine h.of_refers ?_ ?_
    · rintro p q (hpq | hpq)
      · rcases (maps_mapDirect hphys).1 hpq with ⟨hp, -, rfl⟩ | ⟨-, hold⟩
        · exact .inr (hnotfree _ (Set.mem_Ico.2 ⟨by omega, by omega⟩))
        · exact .inl (.inl hold)
      · rcases (maps_mapDirect hphys).1 hpq with ⟨-, ht, -⟩ | ⟨-, hold⟩
        · cases hx.symm.trans ht
        · exact .inl (.inr hold)
    · intro q hq
      rcases dma_mapDirect.1 hq with ⟨-, -, habs⟩ | ⟨-, hold⟩
      · cases habs
      · exact hold

theorem Owned.relabelDirect {Q : Set Nat} {mt : Int} {t : PhysicalMemoryType} (h : m.Owned)
    (ht : t ≠ .free) (hvirt : m'.virt = m.virt)
    (hdmem : m'.dmem = updateOn Q (PhysByte.labelled mt t) m.dmem) : m'.Owned := by
  refine h.of_refers (fun p q hpq => .inl ((refers_congr hvirt).1 hpq)) ?_
  intro q hq
  rcases (dma_of_updateOn (t := t) (fun b => PhysByte.labelled_dmaType mt t b) hdmem).1 hq with ⟨-, -, habs⟩ | ⟨-, hold⟩
  · exact absurd habs ht
  · exact hold

end Memory

namespace MemoryManager

variable {env : Environment} {s s' : MemoryManager} {C : MemoryManager → Op → Prop}

/-- A direct byte whose memory lies in the block is among those `Free` unmaps. -/
theorem mem_freeUnmaps {phys size p q : Nat} (hpq : s.view.Maps .direct p q)
    (hle : phys ≤ q) (hlt : q < phys + size) : p ∈ s.freeUnmaps phys size := by
  obtain ⟨k, v, o, e, i, hk, hv, ho, hi, rfl, rfl⟩ := piece_of_maps hpq
  exact ⟨k, v, o, e, i, hk, hv, ho, by omega, by omega, hi, hle, by omega, rfl⟩

/-- After its unmapping, nothing refers to what a careful `Free` releases. -/
theorem not_refers_released {physAddr size : UInt64} {checked : Bool} {U : Set Nat}
    (hop : Op.ReleasesUnused s (.free physAddr size checked))
    (unmaps : physAddr.toNat + size.toNat < 2 ^ 64 → U = s.freeUnmaps physAddr.toNat size.toNat)
    {p q : Nat} (hq : q ∈ s.view.firstHeld physAddr.toNat size.toNat) :
    ¬(s.view.unmap U).Refers p q := by
  obtain ⟨hnopool, hdirect⟩ := hop q hq p
  rintro (hd | hp)
  · obtain ⟨hpU, hd⟩ := (Memory.maps_unmap (by decide) (by decide)).1 hd
    obtain ⟨hnowrap, hlt⟩ := hdirect hd
    rw [unmaps hnowrap] at hpU
    exact hpU (mem_freeUnmaps hd hq.2.1 hlt)
  · exact hnopool (Memory.maps_unmap_pooled.1 hp)

theorem Maps.owned {W : Set Nat} {a n phys : Nat} {x : VirtByte} (h : Maps env W a n x phys s s')
    (ho : s.view.Owned) : s'.view.Owned := by
  obtain ⟨s₁, hu, -, hmaps⟩ := h.result
  have ho₁ : s₁.view.Owned := hu.view ▸ ho.unmap
  exact ho₁.mapsArea hmaps

theorem Effect.owned {op : Op} {r : Reply} (h : Effect env s s' op r)
    (ho : s.view.Owned) (hop : op.ReleasesUnused s) : s'.view.Owned := by
  cases h with
  | retouched same =>
    exact ho.of_refers (fun p q hpq => .inl (same.refers_iff.1 hpq)) fun q hq => same.dma_eq ▸ hq
  | shrunk _ view =>
    rw [view]
    exact ho.of_refers (fun p q hpq => .inl ((Memory.refers_congr rfl).1 hpq))
      fun q hq => (Memory.dma_shrink.1 hq).2
  | expanded _ _ view =>
    rw [view]
    exact ho.relabelDirect (t := .pooled) (by decide) rfl rfl
  | allocated _ view =>
    rw [view]
    exact ho.relabelDirect (t := .allocated) (by decide) rfl rfl
  | @freed _ _ checked _ U Q held _ unmaps view =>
    rw [view]
    rintro p q hpq hq
    have href : (s.view.unmap U).Refers p q := (Memory.refers_congr rfl).1 hpq
    rcases Memory.dma_relabelDirect.1 hq with ⟨hQ, -⟩ | ⟨-, hold⟩
    · exact not_refers_released (hop : Op.ReleasesUnused s (.free _ _ checked)) unmaps
        (held hQ) href
    · exact ho.unmap p q href hold
  | committed commits =>
    rw [commits.view]
    refine ho.of_refers ?_ ?_
    · rintro p q (hpq | hpq)
      · rcases Memory.maps_commit.1 hpq with ⟨-, ht, -⟩ | ⟨-, hold⟩
        · cases commits.type.symm.trans ht
        · exact .inl (.inl hold)
      · rcases Memory.maps_commit.1 hpq with ⟨hp, -, hy⟩ | ⟨-, hold⟩
        · right
          intro hfree
          rcases Memory.dma_commit.1 hfree with ⟨-, -, habs⟩ | ⟨hno, -⟩
          · cases habs
          · exact hno ⟨_, by omega, hy⟩
        · exact .inl (.inr hold)
    · intro q hq
      rcases Memory.dma_commit.1 hq with ⟨-, -, habs⟩ | ⟨-, hold⟩
      · cases habs
      · exact hold
  | decommitted _ decommits =>
    rw [decommits.view]
    refine ho.of_refers (fun p q hpq => .inl (Memory.refers_of_decommit hpq)) ?_
    intro q hq
    rcases Memory.dma_decommit.1 hq with ⟨-, -, habs⟩ | ⟨-, hold⟩
    · cases habs
    · exact hold
  | mapped maps => exact maps.owned ho
  | mappedFile maps => exact maps.owned ho
  | unmapped unmaps =>
    rw [unmaps.view]
    exact ho.unmap
  | retyped view =>
    rw [view]
    exact ho.of_refers
      (fun p q hpq => .inl (hpq.imp Memory.maps_setType.1 Memory.maps_setType.1))
      fun q hq => Memory.dma_setType ▸ hq

/-- No area of `dmem_map` that is free overlaps a physical area of a virtual one. -/
def PhysicallySafe (s : MemoryManager) : Prop :=
  ∀ k v o e j d, s.vmaMap.find? k = some v → v.physAreas.find? o = some e →
    s.dmemMap.find? j = some d → d.dmaType = .free →
    Disjoint (Set.Ico e.base (e.base + e.size)) (Set.Ico d.base (d.base + d.size))

theorem physicallySafe_of_owned (h : s.Valid env) (ho : s.view.Owned) : s.PhysicallySafe := by
  intro k v o e j d hk he hj hfree
  have htype : v.type.hasPhysicalBacking := by
    by_contra hno
    rw [(h.vma.entry k v hk).unbacked (by simpa using hno)] at he
    cases he
  rw [Set.disjoint_left]
  intro q hq hd
  rw [Set.mem_Ico] at hq hd
  rw [h.dmem.key j d hj] at hd
  have hdmem : s.view.dmem q = some (Area.byte d (q - j)) :=
    StdMap.at?_of_find? h.dmem.separated hj hd.1 hd.2
  have hvirt := virt_of_piece h.vma hk htype he (i := q - e.base) (by omega)
  rw [Nat.add_sub_cancel' hq.1] at hvirt
  have hdma : s.view.dma q = some .free := by
    rw [Memory.dma, hdmem]
    exact congrArg some hfree
  have hkinds : v.type = .direct ∨ v.type = .pooled ∨ v.type = .flexible := by
    revert htype
    cases v.type <;> simp [VMAType.hasPhysicalBacking]
  rcases hkinds with hvt | hvt | hvt
  · exact ho _ q (.inl ⟨_, _, hvirt, hvt, rfl, rfl⟩) hdma
  · exact ho _ q (.inr ⟨_, _, hvirt, hvt, rfl, rfl⟩) hdma
  · -- flexible memory lies above all of direct memory
    obtain ⟨b, hb, -⟩ := h.sound.flexible _ q ⟨_, _, hvirt, hvt, rfl, rfl⟩
    have hlt := Valid.dmem_lt h.dmem hdmem
    obtain ⟨i, f, hi, hle, -, -⟩ := StdMap.exists_of_at? hb
    have hlo := (h.fmem.bounds i f hi).1
    simp only [flexibleExtent] at hlo
    omega

/-- In a run whose calls of `Free` release nothing in use elsewhere, no state refers to
    free direct memory. -/
theorem reachable_physicallySafe (h : Reachable env (fun s op => op.ReleasesUnused s) s) :
    s.PhysicallySafe := by
  refine physicallySafe_of_owned h.valid (h.invariant (P := Memory.Owned) ?_ ?_)
  · rintro p q (hpq | hpq)
    · exact absurd hpq not_maps_init
    · exact absurd hpq not_maps_init
  · intro s s' op r _ ho hop heff
    exact heff.owned ho hop

/-- The pieces behind the areas of one type: where each is mapped, where it starts and how
    long it is. -/
def pieces (s : MemoryManager) (t : VMAType) : List (Nat × Nat × Nat) :=
  s.vmaMap.entries.flatMap fun e =>
    if e.2.type = t then e.2.physAreas.entries.map fun x => (e.1 + x.1, x.2.base, x.2.size) else []

theorem exists_piece {t : VMAType} {p q : Nat} (hpq : s.view.Maps t p q) :
    ∃ x ∈ s.pieces t, ∃ i < x.2.2, p = x.1 + i ∧ q = x.2.1 + i := by
  obtain ⟨k, v, o, e, i, hk, rfl, he, hi, rfl, rfl⟩ := piece_of_maps hpq
  refine ⟨(k + o, e.base, e.size), ?_, i, hi, rfl, rfl⟩
  rw [pieces, List.mem_flatMap]
  refine ⟨(k, v), StdMap.mem_entries_iff.2 hk, ?_⟩
  rw [if_pos rfl, List.mem_map]
  exact ⟨(o, e), StdMap.mem_entries_iff.2 he, rfl⟩

/-- Direct memory that is allocated and mapped twice, and one mapping unmapped. -/
def aliasCalls : List Op :=
  [.allocate 0 0x100000000 0x10000 0 0,
   .mapMemory 0x200000000 0x10000 .cpuReadWrite .fixed .direct "a" false 0 0,
   .mapMemory 0x300000000 0x10000 .cpuReadWrite .fixed .direct "b" false 0 0,
   .unmapMemory 0x300000000 0x10000]

/-- A pool that is committed in part, and direct memory that is mapped. -/
def poolAndDirectCalls : List Op :=
  [.poolExpand 0 0x100000000 0x40000 0,
   .mapMemory 0x200000000 0x40000 .noAccess 0 .poolReserved "pool" false (-1) 0,
   .poolCommit 0x200000000 0x20000 .cpuReadWrite 0,
   .allocate 0 0x100000000 0x10000 0 0,
   .mapMemory 0x300000000 0x10000 .cpuReadWrite 0 .direct "a" false 0x40000 0]

theorem reachable_physicallySafe_of_run : ∃ s,
    run .retail (init .retail) (poolAndDirectCalls ++ [.free 0x40000 0x10000 true]) = .ok s ∧
      s.pieces .pooled = [(0x200000000, 0, 0x20000)] ∧ s.pieces .direct = [] ∧
      s.PhysicallySafe := by
  obtain ⟨s, s', r, hreach, hbefore, hr, hafter, hrun⟩ :=
    exists_last_call (C := fun s op => op.ReleasesUnused s) .retail poolAndDirectCalls
      (.free 0x40000 0x10000 true)
      (fun s => decide (s.pieces .pooled = [(0x200000000, 0, 0x20000)] ∧
        s.pieces .direct = [(0x300000000, 0x40000, 0x10000)]))
      (fun s => decide (s.pieces .pooled = [(0x200000000, 0, 0x20000)] ∧ s.pieces .direct = []))
      (by simp [poolAndDirectCalls, Op.ReleasesUnused]; decide) (by with_unfolding_all decide)
  obtain ⟨hpooled, hdirect⟩ := of_decide_eq_true hbefore
  obtain ⟨hpooled', hdirect'⟩ := of_decide_eq_true hafter
  refine ⟨s', hrun, hpooled', hdirect', reachable_physicallySafe (hreach.call hr (by decide) ?_)⟩
  rintro q ⟨-, hle, -⟩ p
  have hle : 0x40000 ≤ q := hle
  constructor
  · intro hpq
    obtain ⟨x, hx, i, hi, rfl, rfl⟩ := exists_piece hpq
    rw [hpooled, List.mem_singleton] at hx
    subst hx
    simp only at hi hle
    omega
  · intro hpq
    obtain ⟨x, hx, i, hi, rfl, rfl⟩ := exists_piece hpq
    rw [hdirect, List.mem_singleton] at hx
    subst hx
    simp only at hi ⊢
    exact ⟨by decide, by simp; omega⟩

/-- Pooled memory that is committed and released. -/
def releaseCommittedCalls : List Op :=
  [.poolExpand 0 0x100000000 0x20000 0,
   .mapMemory 0x200000000 0x20000 .noAccess .fixed .poolReserved "pool" false (-1) 0,
   .poolCommit 0x200000000 0x10000 .cpuReadWrite 0,
   .free 0 0x10000 true]

/-- `Free` leaves a pooled area on memory that is free again. -/
theorem not_physicallySafe_of_release : ∃ s, run .retail (init .retail) releaseCommittedCalls = .ok s ∧
    Reachable .retail anyCall s ∧ ¬s.PhysicallySafe := by
  have hrun : (match run .retail (init .retail) releaseCommittedCalls with
      | .ok s => decide (∃ v ∈ s.vmaMap.find? 0x200000000, ∃ e ∈ v.physAreas.find? 0,
          ∃ d ∈ s.dmemMap.find? 0, d.dmaType = .free ∧ e.base = 0 ∧ 0 < e.size ∧ d.base = 0 ∧
            0 < d.size)
      | .error _ => false) = true := by with_unfolding_all decide
  split at hrun
  · rename_i s hs
    obtain ⟨v, hv, e, he, d, hd, hfree, hebase, hesize, hdbase, hdsize⟩ := of_decide_eq_true hrun
    refine ⟨s, hs, reachable_of_run .refl hs ?_, ?_⟩
    · intro op hop
      exact ⟨by revert op; decide, fun _ => trivial⟩
    · intro hsafe
      have hdisj := hsafe _ v _ e _ d hv he hd hfree
      rw [Set.disjoint_left] at hdisj
      exact hdisj (a := 0) (Set.mem_Ico.2 ⟨by omega, by omega⟩) (Set.mem_Ico.2 ⟨by omega, by omega⟩)
  · cases hrun

end MemoryManager

/-! ## Labels that fit -/

/-- Where a `PoolExpand` may be called: the start of its search can be aligned. -/
def Op.ExpandsFree : Op → Prop
  | .poolExpand searchStart _ _ alignment =>
    MemoryManager.AlignsUp searchStart.toNat alignment.toNat
  | _ => True

namespace Memory

variable {m m' : Memory} {q : Nat} {U : Set Nat}

/-- Direct memory that has been allocated, mapped or not. -/
def Used (m : Memory) (q : Nat) : Prop := m.dma q = some .allocated ∨ m.dma q = some .mapped

/-- Committed memory is behind one byte of pooled memory each, and what is behind direct
    memory has been allocated. -/
structure Tracked (m : Memory) : Prop where
  pooled : ∀ p q, m.Maps .pooled p q → m.dma q = some .committed
  pooled_inj : ∀ p p' q, m.Maps .pooled p q → m.Maps .pooled p' q → p = p'
  direct : ∀ p q, m.Maps .direct p q → m.Used q

theorem Used.ne {t : PhysicalMemoryType} (h : m.Used q) (ha : t ≠ .allocated) (hm : t ≠ .mapped) :
    m.dma q ≠ some t := by
  rintro heq
  rcases h with h | h
  · rw [h] at heq
    cases heq
    exact ha rfl
  · rw [h] at heq
    cases heq
    exact hm rfl

theorem Used.isSome (h : m.Used q) : (m.dma q).isSome := by
  rcases h with h | h
  · rw [h]
    rfl
  · rw [h]
    rfl

theorem Used.unmap (h : m.Used q) : (m.unmap U).Used q := by
  by_cases hq : q ∈ m.behind .direct U
  · exact .inl (dma_unmap.2 (.inl ⟨hq, h.isSome, rfl⟩))
  · exact h.imp (fun h => dma_unmap.2 (.inr ⟨hq, h⟩)) fun h => dma_unmap.2 (.inr ⟨hq, h⟩)

theorem Tracked.owned (h : m.Tracked) : m.Owned := by
  rintro p q (hpq | hpq) hfree
  · exact (h.direct p q hpq).ne (by decide) (by decide) hfree
  · rw [h.pooled p q hpq] at hfree
    cases hfree

/-- A change that adds no reference and keeps the labels of what is referred to. -/
theorem Tracked.of_maps (h : m.Tracked)
    (hpooled : ∀ p q, m'.Maps .pooled p q → m.Maps .pooled p q ∧
      (m.dma q = some .committed → m'.dma q = some .committed))
    (hdirect : ∀ p q, m'.Maps .direct p q → m.Maps .direct p q ∧ (m.Used q → m'.Used q)) :
    m'.Tracked := by
  refine ⟨?_, ?_, ?_⟩
  · intro p q hpq
    obtain ⟨hold, hkeep⟩ := hpooled p q hpq
    exact hkeep (h.pooled p q hold)
  · intro p p' q hpq hpq'
    exact h.pooled_inj p p' q (hpooled p q hpq).1 (hpooled p' q hpq').1
  · intro p q hpq
    obtain ⟨hold, hkeep⟩ := hdirect p q hpq
    exact hkeep (h.direct p q hold)

theorem Tracked.notMem_behind (h : m.Tracked) (hq : m.dma q = some .committed) :
    q ∉ m.behind .direct U := by
  rintro ⟨p, -, hpq⟩
  exact (h.direct p q hpq).ne (by decide) (by decide) hq

theorem Tracked.unmap (h : m.Tracked) : (m.unmap U).Tracked := by
  refine h.of_maps ?_ ?_
  · intro p q hpq
    refine ⟨maps_unmap_pooled.1 hpq, fun hq => dma_unmap.2 (.inr ⟨h.notMem_behind hq, hq⟩)⟩
  · intro p q hpq
    exact ⟨((maps_unmap (by decide) (by decide)).1 hpq).2, Used.unmap⟩

/-- Labelling memory that nothing refers to. -/
theorem Tracked.relabel {Q : Set Nat} {g : PhysByte → PhysByte} {t : PhysicalMemoryType}
    (h : m.Tracked) (hg : ∀ b, (g b).dmaType = t) (hQ : ∀ q ∈ Q, ∀ p, ¬m.Refers p q)
    (hvirt : m'.virt = m.virt) (hdmem : m'.dmem = updateOn Q g m.dmem) : m'.Tracked := by
  have hkeep : ∀ p q t', m.Refers p q → m.dma q = some t' → m'.dma q = some t' := by
    intro p q t' href hq
    exact (dma_of_updateOn hg hdmem).2 (.inr ⟨fun hmem => hQ q hmem p href, hq⟩)
  refine h.of_maps ?_ ?_
  · intro p q hpq
    have hold := (maps_congr hvirt).1 hpq
    exact ⟨hold, hkeep p q _ (.inr hold)⟩
  · intro p q hpq
    have hold := (maps_congr hvirt).1 hpq
    exact ⟨hold, fun hq => hq.imp (hkeep p q _ (.inl hold)) (hkeep p q _ (.inl hold))⟩

theorem Tracked.mapsArea {a n phys : Nat} {x : VirtByte} (h : m.Tracked)
    (hused : x.type = .direct → ∀ q ∈ Set.Ico phys (phys + n), m.Used q)
    (hmaps : m.MapsArea a n x phys m') : m'.Tracked := by
  cases hmaps with
  | plain hx =>
    refine h.of_maps ?_ ?_
    · intro p q hpq
      rcases maps_place.1 hpq with ⟨-, ht, -⟩ | ⟨-, hold⟩
      · simp [ht, VMAType.hasPhysicalBacking] at hx
      · exact ⟨hold, id⟩
    · intro p q hpq
      rcases maps_place.1 hpq with ⟨-, ht, -⟩ | ⟨-, hold⟩
      · simp [ht, VMAType.hasPhysicalBacking] at hx
      · exact ⟨hold, id⟩
  | flexible hx =>
    refine h.of_maps ?_ ?_
    · intro p q hpq
      rcases maps_mapFlexible.1 hpq with ⟨-, ht, -⟩ | ⟨-, hold⟩
      · cases hx.symm.trans ht
      · exact ⟨hold, id⟩
    · intro p q hpq
      rcases maps_mapFlexible.1 hpq with ⟨-, ht, -⟩ | ⟨-, hold⟩
      · cases hx.symm.trans ht
      · exact ⟨hold, id⟩
  | direct hx hphys =>
    have hmapped : ∀ q ∈ Set.Ico phys (phys + n),
        (m.mapDirect a n x phys).dma q = some .mapped := fun q hq =>
      dma_mapDirect.2 (.inl ⟨hq, (hused hx q hq).isSome, rfl⟩)
    have hold : ∀ p q, (m.mapDirect a n x phys).Maps .pooled p q → m.Maps .pooled p q := by
      intro p q hpq
      rcases (maps_mapDirect hphys).1 hpq with ⟨-, ht, -⟩ | ⟨-, hold⟩
      · cases hx.symm.trans ht
      · exact hold
    refine ⟨?_, ?_, ?_⟩
    · intro p q hpq
      have hq := h.pooled p q (hold p q hpq)
      refine dma_mapDirect.2 (.inr ⟨fun hmem => ?_, hq⟩)
      exact (hused hx q hmem).ne (by decide) (by decide) hq
    · intro p p' q hpq hpq'
      exact h.pooled_inj p p' q (hold p q hpq) (hold p' q hpq')
    · intro p q hpq
      by_cases hq : q ∈ Set.Ico phys (phys + n)
      · exact .inr (hmapped q hq)
      · rcases (maps_mapDirect hphys).1 hpq with ⟨hp, -, rfl⟩ | ⟨-, hold⟩
        · exact absurd (Set.mem_Ico.2 ⟨by omega, by omega⟩) hq
        · exact (h.direct p q hold).imp (fun h => dma_mapDirect.2 (.inr ⟨hq, h⟩))
            fun h => dma_mapDirect.2 (.inr ⟨hq, h⟩)

theorem Tracked.commit {a n : Nat} {x : VirtByte} {y : Nat → PhysByte} {mt : Int} (h : m.Tracked)
    (hx : x.type = .pooled) (htaken : ∀ o, o < n → m.dma (y o).addr = some .pooled)
    (hinj : ∀ o o', o < n → o' < n → (y o).addr = (y o').addr → o = o') :
    (m.commit a n x y mt).Tracked := by
  -- what is taken is pooled, so nothing refers to it yet
  have hfresh : ∀ p q, m.Refers p q → q ∉ {q | ∃ o < n, (y o).addr = q} := by
    rintro p q href ⟨o, ho, rfl⟩
    have hpool := htaken o ho
    rcases href with hd | hp
    · exact (h.direct p _ hd).ne (by decide) (by decide) hpool
    · rw [h.pooled p _ hp] at hpool
      cases hpool
  refine ⟨?_, ?_, ?_⟩
  · intro p q hpq
    rcases maps_commit.1 hpq with ⟨hp, -, rfl⟩ | ⟨-, hold⟩
    · refine dma_commit.2 (.inl ⟨⟨_, by omega, rfl⟩, ?_, rfl⟩)
      rw [htaken _ (by omega)]
      rfl
    · exact dma_commit.2 (.inr ⟨hfresh p q (.inr hold), h.pooled p q hold⟩)
  · intro p p' q hpq hpq'
    rcases maps_commit.1 hpq with ⟨hp, -, hy⟩ | ⟨-, hold⟩ <;>
      rcases maps_commit.1 hpq' with ⟨hp', -, hy'⟩ | ⟨-, hold'⟩
    · have := hinj (p - a) (p' - a) (by omega) (by omega) (hy.trans hy'.symm)
      omega
    · exact absurd ⟨p - a, by omega, hy⟩ (hfresh p' q (.inr hold'))
    · exact absurd ⟨p' - a, by omega, hy'⟩ (hfresh p q (.inr hold))
    · exact h.pooled_inj p p' q hold hold'
  · intro p q hpq
    rcases maps_commit.1 hpq with ⟨-, ht, -⟩ | ⟨-, hold⟩
    · cases hx.symm.trans ht
    · have hq := hfresh p q (.inl hold)
      exact (h.direct p q hold).imp (fun h => dma_commit.2 (.inr ⟨hq, h⟩))
        fun h => dma_commit.2 (.inr ⟨hq, h⟩)

theorem Tracked.decommit (h : m.Tracked) : (m.decommit U).Tracked := by
  refine h.of_maps ?_ ?_
  · intro p q hpq
    obtain ⟨hp, hold⟩ := (maps_decommit (by decide)).1 hpq
    refine ⟨hold, fun hq => dma_decommit.2 (.inr ⟨?_, hq⟩)⟩
    rintro ⟨p', hp', hpq'⟩
    exact hp (h.pooled_inj p p' q hold hpq' ▸ hp')
  · intro p q hpq
    obtain ⟨hp, hold⟩ := (maps_decommit (by decide)).1 hpq
    refine ⟨hold, fun hq => ?_⟩
    have hno : q ∉ m.behind .pooled U := by
      rintro ⟨p', -, hpq'⟩
      exact hq.ne (by decide) (by decide) (h.pooled p' q hpq')
    exact hq.imp (fun h => dma_decommit.2 (.inr ⟨hno, h⟩)) fun h => dma_decommit.2 (.inr ⟨hno, h⟩)

end Memory

namespace MemoryManager

variable {env : Environment} {s s' : MemoryManager} {C : MemoryManager → Op → Prop} {x : VirtByte}

theorem Maps.used_dma {W : Set Nat} {a n phys : Nat} (h : Maps env W a n x phys s s') (hx : x.type = .direct) :
    ∀ q ∈ Set.Ico phys (phys + n), s.view.Used q := by
  intro q hq
  obtain ⟨b, hb, hdma⟩ := h.used hx q hq
  exact hdma.imp (fun h => Memory.dma_eq_some.2 ⟨b, hb, h⟩) fun h => Memory.dma_eq_some.2 ⟨b, hb, h⟩

theorem Maps.tracked {W : Set Nat} {a n phys : Nat} (h : Maps env W a n x phys s s')
    (ht : s.view.Tracked) : s'.view.Tracked := by
  obtain ⟨s₁, hu, -, hmaps⟩ := h.result
  have ht₁ : s₁.view.Tracked := hu.view ▸ ht.unmap
  refine ht₁.mapsArea (fun hx q hq => ?_) hmaps
  rw [hu.view]
  exact (h.used_dma hx q hq).unmap

/-- Nothing refers to free memory, so relabelling it breaks no reference. -/
theorem not_refers_of_free (ho : s.view.Owned) {q : Nat}
    (hfree : ∃ b, s.view.dmem q = some b ∧ b.dmaType = .free) (p : Nat) : ¬s.view.Refers p q :=
  fun href => ho p q href (Memory.dma_eq_some.2 hfree)

theorem Commits.pooled_dma {addr size : Nat} {y : Nat → PhysByte} {mt : Int}
    (h : Commits env addr size x y mt s s') :
    ∀ o, o < size → s.view.dma (y o).addr = some .pooled := by
  intro o ho
  obtain ⟨b, hb, hdma, -⟩ := h.taken o ho
  exact Memory.dma_eq_some.2 ⟨b, hb, hdma⟩

theorem Effect.tracked {op : Op} {r : Reply} (h : Effect env s s' op r)
    (ht : s.view.Tracked) (hop : op.ReleasesUnused s) (hexp : op.ExpandsFree) :
    s'.view.Tracked := by
  cases h with
  | retouched same =>
    refine ht.of_maps (fun p q hpq => ⟨same.maps_iff.1 hpq, same.dma_eq.trans⟩) ?_
    intro p q hpq
    refine ⟨same.maps_iff.1 hpq, fun hq => ?_⟩
    unfold Memory.Used
    rw [same.dma_eq]
    exact hq
  | @shrunk _ _ _ _ R free view =>
    rw [view]
    have hkeep : ∀ q t, t ≠ .free → s.view.dma q = some t → (s.view.shrink R).dma q = some t := by
      intro q t htf hq
      refine Memory.dma_shrink.2 ⟨fun hR => ?_, hq⟩
      obtain ⟨b, hb, rfl⟩ := Memory.dma_eq_some.1 hq
      exact htf (free q hR b hb)
    refine ht.of_maps (fun p q hpq => ⟨(Memory.maps_congr rfl).1 hpq, hkeep q _ (by decide)⟩) ?_
    intro p q hpq
    exact ⟨(Memory.maps_congr rfl).1 hpq,
      fun hq => hq.imp (hkeep q _ (by decide)) (hkeep q _ (by decide))⟩
  | expanded _ free view =>
    rw [view]
    exact ht.relabel (t := .pooled) (PhysByte.labelled_dmaType 3 .pooled)
      (fun q hq => not_refers_of_free ht.owned (free hexp q hq)) rfl rfl
  | @allocated _ _ _ _ mt _ free view =>
    rw [view]
    exact ht.relabel (t := .allocated) (PhysByte.labelled_dmaType mt .allocated)
      (fun q hq => not_refers_of_free ht.owned (free q hq)) rfl rfl
  | @freed _ _ checked _ U Q held _ unmaps view =>
    rw [view]
    exact ht.unmap.relabel (t := .free) (PhysByte.labelled_dmaType 0 .free)
      (fun q hq p => not_refers_released (hop : Op.ReleasesUnused s (.free _ _ checked)) unmaps (held hq)) rfl rfl
  | committed commits =>
    rw [commits.view]
    exact ht.commit commits.type commits.pooled_dma commits.inj
  | decommitted _ decommits =>
    rw [decommits.view]
    exact ht.decommit
  | mapped maps => exact maps.tracked ht
  | mappedFile maps => exact maps.tracked ht
  | unmapped unmaps =>
    rw [unmaps.view]
    exact ht.unmap
  | retyped view =>
    rw [view]
    refine ht.of_maps
      (fun p q hpq => ⟨Memory.maps_setType.1 hpq, Memory.dma_setType.trans⟩) ?_
    intro p q hpq
    refine ⟨Memory.maps_setType.1 hpq, fun hq => ?_⟩
    unfold Memory.Used
    rw [Memory.dma_setType]
    exact hq

theorem tracked_init : (init env).view.Tracked :=
  ⟨fun _ _ h => absurd h not_maps_init, fun _ _ _ h => absurd h not_maps_init,
    fun _ _ h => absurd h not_maps_init⟩

end MemoryManager

end Core
