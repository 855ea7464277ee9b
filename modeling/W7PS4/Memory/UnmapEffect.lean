-- SUMMARY: What `UnmapMemory` leaves of the range it is given: when rounding the address and the size apart reaches all of it.
import W7PS4.Memory.System

/-!
# The effect of unmapping

`UnmapMemory` rounds the address down to a page and the size up to a multiple of
a page, each on its own. For an address in the middle of a page the pages it
walks over may end before the range does.
-/

namespace Core

namespace MemoryManager

variable {env : Environment} {s s' : MemoryManager} {addr len p : Nat}

/-- What unmapping `[addr, addr + len)` means. A page has 16 KiB. -/
structure UnmapsRange (s s' : MemoryManager) (addr len : Nat) : Prop where
  free : ∀ p ∈ Set.Ico addr (addr + len), (∀ x, s.view.virt p = some x → x.type ≠ .pooled) →
    ∃ x, s'.view.virt p = some x ∧ x.type = .free
  direct : ∀ p ∈ Set.Ico addr (addr + len), ∀ q, s.view.Maps .direct p q →
    ∃ b, s'.view.dmem q = some b ∧ b.dmaType = .allocated
  flexible : ∀ p ∈ Set.Ico addr (addr + len), ∀ q, s.view.Maps .flexible p q →
    ∃ b, s'.view.fmem q = some b ∧ b.dmaType = .free
  outside : ∀ p, (∀ p' ∈ Set.Ico addr (addr + len), p' / 0x4000 ≠ p / 0x4000) →
    s'.view.virt p = s.view.virt p

/-- The bytes the walk reaches: those of the rounded range, if it starts in an area. -/
def unmapReach (s : MemoryManager) (addr len : Nat) : Set Nat :=
  {p | (s.view.virt (alignDown addr 0x4000)).isSome ∧ alignDown addr 0x4000 ≤ p ∧
    p < alignDown addr 0x4000 + alignUp len 0x4000}

/-- What the walk does not reach of the range is free or pooled already. -/
def ReachesAll (s : MemoryManager) (addr len : Nat) : Prop :=
  ∀ p ∈ Set.Ico addr (addr + len), p ∉ s.unmapReach addr len →
    ∃ x, s.view.virt p = some x ∧ (x.type = .free ∨ x.type = .pooled)

/-- The rounded range lies in the pages of the range. -/
theorem exists_same_page (hpos : 0 < len) (hp : p ∈ s.unmapReach addr len) :
    ∃ p' ∈ Set.Ico addr (addr + len), p' / 0x4000 = p / 0x4000 := by
  obtain ⟨-, hle, hlt⟩ := hp
  refine ⟨max addr (p / 0x4000 * 0x4000), ?_, ?_⟩ <;>
    simp only [Set.mem_Ico, alignDown, alignUp, U64.add] at * <;> split at hlt <;> omega

/-- A call that returns `ORBIS_OK` unmaps what the walk reaches. -/
theorem unmapMemory_eq_ok_unit (h : s.Valid env) (haddr : addr < 2 ^ 64) (hlen : len < 2 ^ 64)
    (hpos : 0 < len) (hr : s.unmapMemory addr len = .ok (s', .ok ())) :
    Unmaps env (s.unmapReach addr len) s s' ∧ s.Present (s.unmapReach addr len) ∧
      ∀ p ∈ s.unmapReach addr len, (s.view.virt p).isSome := by
  rcases unmapMemory_eq_ok h haddr hlen hr with ⟨rfl, hno⟩ | ⟨-, hstart, huse, hunmaps, hpresent⟩
  · have hnone : s'.view.virt (alignDown addr 0x4000) = none := by
      rcases hno with hne | rfl | hnone
      · exact absurd rfl hne
      · omega
      · exact hnone
    have hempty : s'.unmapReach addr len = ∅ := by
      rw [Set.eq_empty_iff_forall_notMem]
      rintro p ⟨hsome, -⟩
      simp [hnone] at hsome
    rw [hempty]
    refine ⟨.refl h, ?_, by simp⟩
    rintro q ⟨p, hp, -⟩
    cases hp
  · have heq : s.unmapReach addr len = Set.Ico (alignDown addr 0x4000)
        (alignDown addr 0x4000 + alignUp len 0x4000) := by
      ext p
      simp [unmapReach, hstart]
    rw [heq]
    exact ⟨hunmaps, hpresent, huse.2⟩

theorem UnmapsRange.reachesAll (h : s.UnmapsRange s' addr len)
    (hu : Unmaps env (s.unmapReach addr len) s s') : s.ReachesAll addr len := by
  intro p hp hout
  by_cases hpooled : ∃ x, s.view.virt p = some x ∧ x.type = .pooled
  · obtain ⟨x, hx, hxt⟩ := hpooled
    exact ⟨x, hx, .inr hxt⟩
  · obtain ⟨x, hx, hxt⟩ := h.free p hp fun x hx hxt => hpooled ⟨x, hx, hxt⟩
    rw [hu.view, Memory.virt_unmap_of_notMem hout] at hx
    exact ⟨x, hx, .inl hxt⟩

theorem UnmapsRange.of_reachesAll (h : s.Valid env) (hpos : 0 < len) (hall : s.ReachesAll addr len)
    (hu : Unmaps env (s.unmapReach addr len) s s') (hpresent : s.Present (s.unmapReach addr len))
    (huse : ∀ p ∈ s.unmapReach addr len, (s.view.virt p).isSome) : s.UnmapsRange s' addr len where
  free := by
    intro p hp hpooled
    by_cases hin : p ∈ s.unmapReach addr len
    · obtain ⟨x, hx⟩ := Option.isSome_iff_exists.1 (huse p hin)
      refine ⟨x.unmapped, by rw [hu.view, Memory.virt_unmap_of_mem hin, hx, Option.map_some], ?_⟩
      by_cases hfree : x.type = .free
      · rw [VirtByte.unmapped_of_inert (.inl hfree), hfree]
      · rw [VirtByte.unmapped_of_active (by simp [hfree, hpooled x hx])]
        rfl
    · obtain ⟨x, hx, hxt⟩ := hall p hp hin
      refine ⟨x, by rw [hu.view, Memory.virt_unmap_of_notMem hin, hx], ?_⟩
      exact hxt.resolve_right (hpooled x hx)
  direct := by
    intro p hp q hpq
    by_cases hin : p ∈ s.unmapReach addr len
    · have hq : q ∈ s.view.behind .direct (s.unmapReach addr len) := ⟨p, hin, hpq⟩
      obtain ⟨b, hb⟩ := Option.isSome_iff_exists.1 (hpresent q hq)
      refine ⟨b.withDmaType .allocated, ?_, rfl⟩
      rw [hu.view]
      exact (updateOn_of_mem hq).trans (by rw [hb, Option.map_some])
    · obtain ⟨x, hx, hxt⟩ := hall p hp hin
      obtain ⟨y, b, hy, hyt, -⟩ := hpq
      rw [hx] at hy
      cases hy
      simp [hyt] at hxt
  flexible := by
    intro p hp q hpq
    by_cases hin : p ∈ s.unmapReach addr len
    · have hq : q ∈ s.view.behind .flexible (s.unmapReach addr len) := ⟨p, hin, hpq⟩
      obtain ⟨b, hb, -⟩ := h.sound.flexible p q hpq
      refine ⟨b.withDmaType .free, ?_, rfl⟩
      rw [hu.view]
      exact (updateOn_of_mem hq).trans (by rw [hb, Option.map_some])
    · obtain ⟨x, hx, hxt⟩ := hall p hp hin
      obtain ⟨y, b, hy, hyt, -⟩ := hpq
      rw [hx] at hy
      cases hy
      simp [hyt] at hxt
  outside := by
    intro p hfar
    rw [hu.view, Memory.virt_unmap_of_notMem]
    intro hin
    obtain ⟨p', hp', heq⟩ := exists_same_page hpos hin
    exact hfar p' hp' heq

/-- A successful `UnmapMemory` has unmapped its range exactly when what rounding leaves out was
    free or pooled. -/
theorem unmapMemory_unmapsRange_iff (h : Reachable env anyCall s) (addr len : UInt64)
    (hpos : 0 < len) (hr : s.unmapMemory addr.toNat len.toNat = .ok (s', .ok ())) :
    s.UnmapsRange s' addr.toNat len.toNat ↔ s.ReachesAll addr.toNat len.toNat := by
  have hpos' : 0 < len.toNat := hpos
  obtain ⟨hu, hpresent, huse⟩ :=
    unmapMemory_eq_ok_unit h.valid addr.toNat_lt len.toNat_lt hpos' hr
  exact ⟨fun hrange => hrange.reachesAll hu,
    fun hall => .of_reachesAll h.valid hpos' hall hu hpresent huse⟩

/-- Two pages of flexible memory. -/
def mapTwoPages : List Op :=
  [.mapMemory 0x200000000 0x8000 .cpuReadWrite .fixed .flexible "a" false
    0xFFFFFFFFFFFFFFFF 0]

theorem unmapMemory_unmapsRange_mapTwoPages : ∃ s s',
    run .retail (init .retail) mapTwoPages = .ok s ∧
    s.unmapMemory 0x200000000 0x4000 = .ok (s', .ok ()) ∧
    (s.UnmapsRange s' 0x200000000 0x4000 ↔ s.ReachesAll 0x200000000 0x4000) := by
  obtain ⟨s, hs, hreach, ht⟩ := exists_reachable .retail mapTwoPages
    (fun s => (s.unmapMemory 0x200000000 0x4000).toOption.any
      fun (r : MemoryManager × Except OrbisError Unit) => decide (r.2 = .ok ()))
    (by decide) (by with_unfolding_all decide)
  obtain ⟨⟨s', r⟩, hr, hok⟩ := exists_of_any ht
  obtain rfl : r = .ok () := of_decide_eq_true hok
  exact ⟨s, s', hs, hr, unmapMemory_unmapsRange_iff hreach 0x200000000 0x4000 (by decide) hr⟩

/-- A page's length from the middle of a page on: the second half of the range stays mapped. -/
theorem not_unmapsRange_unaligned : ∃ s s', Reachable .retail anyCall s ∧
    s.unmapMemory 0x200002000 0x4000 = .ok (s', .ok ()) ∧
    ¬s.UnmapsRange s' 0x200002000 0x4000 := by
  obtain ⟨s, -, hreach, ht⟩ := exists_reachable .retail mapTwoPages
    (fun s => (s.unmapMemory 0x200002000 0x4000).toOption.any
      fun (r : MemoryManager × Except OrbisError Unit) => decide (r.2 = .ok () ∧
        (s.vmaMap.at? 0x200004000).map VirtByte.type = some .flexible ∧
        (r.1.vmaMap.at? 0x200004000).map VirtByte.type = some .flexible))
    (by decide) (by with_unfolding_all decide)
  obtain ⟨⟨s', r⟩, hr, hok⟩ := exists_of_any ht
  obtain ⟨hret, hbefore, hafter⟩ := of_decide_eq_true hok
  simp only at hret hafter
  subst hret
  refine ⟨s, s', hreach, hr, fun hrange => ?_⟩
  obtain ⟨x, hx, hxt⟩ := hrange.free 0x200004000 (by simp) fun x hx hpooled => by
    rw [show s.vmaMap.at? 0x200004000 = some x from hx, Option.map_some, hpooled] at hbefore
    cases hbefore
  rw [show s'.vmaMap.at? 0x200004000 = some x from hx, Option.map_some, hxt] at hafter
  cases hafter

end MemoryManager

end Core
