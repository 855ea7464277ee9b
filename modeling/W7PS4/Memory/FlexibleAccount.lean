-- SUMMARY: The account of flexible memory: the usage counter, the flexible areas and the flexible memory in use agree.
import W7PS4.Memory.PoolAccount

/-!
# The account of flexible memory

`flexible_usage` counts the flexible memory in use in every run. It also counts the
bytes of flexible areas as long as none of these disappears without giving its memory
back. `PoolDecommit` makes one disappear when its range ends inside it: its first loop
looks at no area that reaches past the range.
-/

namespace Core

namespace Memory

variable {m m' : Memory} {U : Set Nat}

/-- All flexible memory in use is behind a flexible byte. -/
def FlexibleMirrored (m : Memory) : Prop := ∀ q ∈ m.flexibleInUse, ∃ p, m.Maps .flexible p q

/-- A change that keeps flexible memory and the bytes that use it. -/
theorem FlexibleMirrored.of_maps (h : m.FlexibleMirrored) (hfmem : m'.fmem = m.fmem)
    (hmaps : ∀ p q, m.Maps .flexible p q → m'.Maps .flexible p q) : m'.FlexibleMirrored := by
  intro q hq
  rw [flexibleInUse, hfmem] at hq
  obtain ⟨p, hp⟩ := h q hq
  exact ⟨p, hmaps p q hp⟩

theorem FlexibleMirrored.unmap (h : m.FlexibleMirrored) : (m.unmap U).FlexibleMirrored := by
  intro q hq
  rw [flexibleInUse_unmap] at hq
  obtain ⟨p, hp⟩ := h q hq.1
  exact ⟨p, (maps_unmap (by decide) (by decide)).2 ⟨fun hU => hq.2 ⟨p, hU, hp⟩, hp⟩⟩

theorem FlexibleMirrored.mapsArea {a n phys : Nat} {x : VirtByte} (h : m.FlexibleMirrored)
    (hfree : ∀ p ∈ Set.Ico a (a + n), ∃ x, m.virt p = some x ∧ x.type = .free)
    (hmaps : m.MapsArea a n x phys m') : m'.FlexibleMirrored := by
  have houtside : ∀ p q, m.Maps .flexible p q → ¬(a ≤ p ∧ p < a + n) := by
    rintro p q ⟨x, b, hx, hxt, -⟩ hp
    obtain ⟨y, hy, hyt⟩ := hfree p (Set.mem_Ico.2 hp)
    rw [hx] at hy
    cases hy
    cases hxt.symm.trans hyt
  cases hmaps with
  | plain => exact h.of_maps rfl fun p q hpq => maps_place.2 (.inr ⟨houtside p q hpq, hpq⟩)
  | direct _ hphys =>
    exact h.of_maps rfl fun p q hpq => (maps_mapDirect hphys).2 (.inr ⟨houtside p q hpq, hpq⟩)
  | flexible hx hy =>
    intro q hq
    rw [flexibleInUse_mapFlexible hy] at hq
    rcases hq with hq | ⟨o, ho, hq⟩
    · obtain ⟨p, hpq⟩ := h q hq
      exact ⟨p, maps_mapFlexible.2 (.inr ⟨houtside p q hpq, hpq⟩)⟩
    · refine ⟨a + o, maps_mapFlexible.2 (.inl ⟨⟨by omega, by omega⟩, hx, ?_⟩)⟩
      rw [Nat.add_sub_cancel_left]
      exact hq

end Memory

/-- Where a `PoolDecommit` keeps the account: it does not end inside a flexible area. -/
def Op.SparesFlexible (s : MemoryManager) : Op → Prop
  | .poolDecommit virtualAddr size =>
    ∀ v, s.EndsInside (virtualAddr.toNat + size.toNat) v → v.type ≠ .flexible
  | _ => True

namespace MemoryManager

variable {env : Environment} {s s' : MemoryManager}

theorem Maps.flexibleMirrored {W : Set Nat} {a n phys : Nat} {x : VirtByte}
    (h : Maps env W a n x phys s s') (hm : s.view.FlexibleMirrored) :
    s'.view.FlexibleMirrored := by
  obtain ⟨s₁, hu, hfree, hmaps⟩ := h.result
  have hm₁ : s₁.view.FlexibleMirrored := hu.view ▸ hm.unmap
  exact hm₁.mapsArea hfree hmaps

theorem Effect.flexibleMirrored {op : Op} {r : Reply} (h : Effect env s s' op r)
    (hm : s.view.FlexibleMirrored) (hop : op.SparesFlexible s) : s'.view.FlexibleMirrored := by
  cases h with
  | retouched same => exact hm.of_maps same.fmem fun p q => same.maps_iff.2
  | shrunk _ view =>
    rw [view]
    exact hm.of_maps rfl fun p q => (Memory.maps_congr rfl).2
  | expanded _ _ view =>
    rw [view]
    exact hm.of_maps rfl fun p q => (Memory.maps_congr rfl).2
  | allocated _ view =>
    rw [view]
    exact hm.of_maps rfl fun p q => (Memory.maps_congr rfl).2
  | @freed _ _ _ _ U Q _ _ _ view =>
    rw [view]
    have hm₁ : (s.view.unmap U).FlexibleMirrored := hm.unmap
    exact hm₁.of_maps rfl fun p q => (Memory.maps_congr rfl).2
  | committed commits =>
    rw [commits.view]
    refine hm.of_maps rfl fun p q hpq => Memory.maps_commit.2 (.inr ⟨fun hp => ?_, hpq⟩)
    obtain ⟨z, b, hz, hzt, -⟩ := hpq
    obtain ⟨z', hz', hzt'⟩ := commits.reserved p (Set.mem_Ico.2 hp)
    rw [hz] at hz'
    cases hz'
    cases hzt.symm.trans hzt'
  | decommitted part decommits =>
    rw [decommits.view]
    refine hm.of_maps rfl fun p q hpq => (Memory.maps_decommit (by decide)).2 ⟨fun hp => ?_, hpq⟩
    obtain ⟨x, b, hx, hxt, -⟩ := hpq
    rcases part p hp x hx with h | h | ⟨v, hv, hvt⟩
    · cases h.symm.trans hxt
    · cases h.symm.trans hxt
    · exact hop v hv (hvt.trans hxt)
  | mapped maps => exact maps.flexibleMirrored hm
  | mappedFile maps => exact maps.flexibleMirrored hm
  | unmapped unmaps =>
    rw [unmaps.view]
    exact hm.unmap
  | retyped view =>
    rw [view]
    exact hm.of_maps rfl fun p q => Memory.maps_setType.2

/-- Unmapping part of a flexible area subtracts its size, and there is that much. -/
theorem unmapBytes_usage (h : s.Valid env) {addr size k n : Nat} {v : VirtualMemoryArea}
    (haddr : addr < 2 ^ 64) (hsize : size < 2 ^ 64) (hfloor : s.vmaMap.floor? addr = some (k, v))
    (ht : v.type = .flexible) (hr : s.unmapBytesFromEntry addr v size = .ok (s', n)) :
    n ≤ s.flexibleUsage ∧ s'.flexibleUsage + n = s.flexibleUsage := by
  rcases unmapBytesFromEntry_eq_ok h haddr hsize hfloor hr with
    ⟨-, habs, -⟩ | ⟨hc, -, hu, -⟩
  · simp [ht] at habs
  · have hcount : (s.view.ofType .flexible (Set.Ico addr (addr + n))).ncard = n := by
      rw [ofType_of_reads (virt_of_carved h.vma hc), if_pos ht, StdMap.ncard_Ico_add]
    have hle := h.sound.ncard_ofType_le (U := Set.Ico addr (addr + n)) h.backed (finite_inUse s)
    have husage : s'.flexibleUsage = s.flexibleUsage - n := by
      have := congrArg Memory.usage hu.view
      simp only [Memory.unmap, hcount] at this
      exact this
    have hle' : n ≤ s.flexibleUsage := by
      rw [hcount] at hle
      exact hle
    omega

/-- The counter of flexible memory agrees with the flexible memory in use and with the
    flexible areas, no two bytes share flexible memory, and the counter stays in its
    bounds. -/
structure FlexibleAccounted (env : Environment) (s : MemoryManager) : Prop where
  inUse : s.flexibleUsage = s.fmemMap.sum fun a => if a.dmaType ≠ .free then a.size else 0
  areas : s.flexibleUsage = s.vmaMap.sum fun v => if v.type = .flexible then v.size else 0
  shared : ∀ q t t' p p', (s.view.fmem q).isSome → s.BackedAt t p q → s.BackedAt t' p' q → p = p'
  bound : s.flexibleUsage ≤ s.totalFlexibleSize
  unmap : ∀ addr size k v s' n, addr < 2 ^ 64 → size < 2 ^ 64 →
    s.vmaMap.floor? addr = some (k, v) → v.type = .flexible →
    s.unmapBytesFromEntry addr v size = .ok (s', n) →
    n ≤ s.flexibleUsage ∧ s'.flexibleUsage + n = s.flexibleUsage

/-- What has flexible memory behind it is flexible. -/
theorem type_of_fmem (h : s.Valid env) {q p : Nat} {t : VMAType} (hq : (s.view.fmem q).isSome)
    (hback : s.BackedAt t p q) : s.view.Maps .flexible p q := by
  obtain ⟨k, v, o, e, i, hk, rfl, he, hi, rfl, rfl⟩ := hback
  have htype : v.type.hasPhysicalBacking := by
    by_contra hno
    rw [(h.vma.entry k v hk).unbacked (by simpa using hno)] at he
    cases he
  have hmaps : s.view.Maps v.type (k + o + i) (e.base + i) :=
    ⟨_, _, virt_of_piece h.vma hk htype he hi, rfl, rfl, rfl⟩
  have hlo : constructorTotalSize env ≤ e.base + i := by
    obtain ⟨b, hb⟩ := Option.isSome_iff_exists.1 hq
    obtain ⟨j, f, hj, hle, -, -⟩ := StdMap.exists_of_at? hb
    have := (h.fmem.bounds j f hj).1
    simp only [flexibleExtent] at this
    omega
  have hkinds : v.type = .direct ∨ v.type = .pooled ∨ v.type = .flexible := by
    revert htype
    cases v.type <;> simp [VMAType.hasPhysicalBacking]
  rcases hkinds with ht | ht | ht
  · rw [ht] at hmaps
    have := h.sound.refs_lt _ _ (.inl hmaps)
    omega
  · rw [ht] at hmaps
    have := h.sound.refs_lt _ _ (.inr hmaps)
    omega
  · rwa [ht] at hmaps

theorem flexibleAccounted_of_mirrored (h : s.Valid env) (hm : s.view.FlexibleMirrored) :
    s.FlexibleAccounted env where
  inUse := by
    have hsum := StdMap.sum_eq_ncard h.fmem.separated (fun a => a.dmaType ≠ .free)
      (fun b : PhysByte => b.dmaType ≠ .free) fun k a _ o _ => Iff.rfl
    exact h.sound.usage_eq.trans hsum.symm
  areas := by
    have hsum := StdMap.sum_eq_ncard h.vma.separated (fun v => v.type = .flexible)
      (fun x : VirtByte => x.type = .flexible) fun k v _ o _ => Iff.rfl
    have hset : s.view.ofType .flexible Set.univ =
        {p | ∃ x, s.vmaMap.at? p = some x ∧ x.type = .flexible} :=
      Set.ext fun p => ⟨fun hp => hp.2, fun hp => ⟨Set.mem_univ p, hp⟩⟩
    have hbehind : s.view.behind .flexible Set.univ = s.view.flexibleInUse := by
      refine h.sound.behind_subset.antisymm fun q hq => ?_
      obtain ⟨p, hp⟩ := hm q hq
      exact ⟨p, Set.mem_univ p, hp⟩
    rw [← hset, Memory.ncard_ofType h.backed rfl h.sound.flexible_inj, hbehind] at hsum
    exact h.sound.usage_eq.trans hsum.symm
  shared := by
    intro q t t' p p' hq hp hp'
    exact h.sound.flexible_inj p p' q (type_of_fmem h hq hp) (type_of_fmem h hq hp')
  bound := h.usage_le
  unmap := fun _ _ _ _ _ _ haddr hsize hfloor ht hr => unmapBytes_usage h haddr hsize hfloor ht hr

/-- In a run whose calls of `PoolDecommit` do not end inside a flexible area, flexible
    memory is accounted for in every state. -/
theorem reachable_flexibleAccounted (h : Reachable env (fun s op => op.SparesFlexible s) s) :
    s.FlexibleAccounted env := by
  refine flexibleAccounted_of_mirrored h.valid (h.invariant (P := Memory.FlexibleMirrored) ?_ ?_)
  · rintro q ⟨b, hb, hne⟩
    exact absurd (by rw [fmem_init hb]) hne
  · intro s s' op r _ hm hop heff
    exact heff.flexibleMirrored hm hop

/-- Flexible memory below a pool that is committed in part. -/
def flexibleAndPoolCalls : List Op :=
  [.mapMemory 0x200000000 0x8000 .cpuReadWrite 0 .flexible "heap" false (-1) 0,
   .poolExpand 0 0x100000000 0x40000 0,
   .mapMemory 0x300000000 0x40000 .noAccess 0 .poolReserved "pool" false (-1) 0,
   .poolCommit 0x300000000 0x30000 .cpuReadWrite 0]

/-- No flexible area reaches over the address. -/
def clearOfFlexible (s : MemoryManager) (endAddr : Nat) : Bool :=
  s.vmaMap.entries.all fun e =>
    e.2.type ≠ .flexible || endAddr ≤ e.2.base || e.2.base + e.2.size ≤ endAddr

theorem not_flexible_of_clear {endAddr : Nat} {v : VirtualMemoryArea}
    (h : s.clearOfFlexible endAddr = true) (hv : s.EndsInside endAddr v) : v.type ≠ .flexible := by
  obtain ⟨hfind, hlt, hend⟩ := hv
  have hclear := List.all_eq_true.1 h (v.base, v) (StdMap.mem_entries_iff.2 hfind)
  simp only [Bool.or_eq_true, decide_eq_true_eq] at hclear
  rcases hclear with (htype | hle) | hle
  · exact htype
  · omega
  · omega

theorem reachable_flexibleAccounted_of_run : ∃ s,
    run .retail (init .retail) (flexibleAndPoolCalls ++ [.poolDecommit 0x300010000 0x10000]) =
      .ok s ∧ s.flexibleUsage = 0x8000 ∧ s.poolBudget = 0x20000 ∧ s.FlexibleAccounted .retail := by
  obtain ⟨s, s', r, hreach, hbefore, hr, hafter, hrun⟩ :=
    exists_last_call (C := fun s op => op.SparesFlexible s) .retail flexibleAndPoolCalls
      (.poolDecommit 0x300010000 0x10000) (fun s => s.clearOfFlexible 0x300020000)
      (fun s => decide (s.flexibleUsage = 0x8000 ∧ s.poolBudget = 0x20000))
      (by simp [flexibleAndPoolCalls, Op.SparesFlexible]; decide) (by with_unfolding_all decide)
  obtain ⟨husage, hbudget⟩ := of_decide_eq_true hafter
  refine ⟨s', hrun, husage, hbudget,
    reachable_flexibleAccounted (hreach.call hr (by decide) fun v hv => ?_)⟩
  exact not_flexible_of_clear hbefore hv

/-- Flexible memory that is decommitted up to the middle of its area. -/
def decommitFlexibleCalls : List Op :=
  [.mapMemory 0x200000000 0x20000 .cpuReadWrite .fixed .flexible "heap" false (-1) 0,
   .poolDecommit 0x200000000 0x10000]

/-- `PoolDecommit` takes half of a flexible area away and keeps its memory in use. -/
theorem not_flexibleAccounted_of_decommit :
    ∃ s, run .retail (init .retail) decommitFlexibleCalls = .ok s ∧
      Reachable .retail anyCall s ∧ ¬s.FlexibleAccounted .retail := by
  have hrun : (match run .retail (init .retail) decommitFlexibleCalls with
      | .ok s => decide (s.flexibleUsage ≠
          s.vmaMap.sum fun v => if v.type = .flexible then v.size else 0)
      | .error _ => false) = true := by with_unfolding_all decide
  split at hrun
  · rename_i s hs
    refine ⟨s, hs, reachable_of_run .refl hs ?_, ?_⟩
    · intro op hop
      exact ⟨by revert op; decide, fun _ => trivial⟩
    · intro hacc
      exact of_decide_eq_true hrun hacc.areas
  · cases hrun

end MemoryManager

end Core
