-- SUMMARY: `SplitRegion` on Windows 7: what the pieces say about the memory behind them, and the anonymous region whose marker is counted up.
import W7PS4.AddressSpace.Tiling

/-!
# Splitting on Windows 7

The pieces of a split region get a physical base each, by adding the offset of the piece. An
anonymous region has `PAddr(-1)` there. The path with placeholder APIs refuses to split such
a region; the path for Windows 7 adds the offset to the marker.
-/

namespace Core

open StdMap

namespace RegionMap

open MemoryRegion

variable {m m' : RegionMap} {k va size : Nat} {r : MemoryRegion}

/-- The table after the region `r` at `k` was split: it tiles the same addresses, and each has
    the attributes it had. The addresses of an anonymous region stay anonymous, and those of a
    section-backed one stay at their physical addresses. -/
structure KeepsBacking (m m' : RegionMap) (k : Nat) (r : MemoryRegion) : Prop where
  wf : m'.WF
  tiles : ∀ p, (m'.at? p).isSome ↔ (m.at? p).isSome
  attributes : ∀ p i a j b, m.find? i = some a → i ≤ p → p < i + a.size → m'.find? j = some b →
    j ≤ p → p < j + b.size → b.isMapped = a.isMapped ∧ b.prot = a.prot ∧ b.fd = a.fd
  anonymous : r.physBase = U64.max → ∀ p, k ≤ p → p < k + r.size → ∀ j b, m'.find? j = some b →
    j ≤ p → p < j + b.size → b.physBase = U64.max
  sectionBacked : r.isLegacySectionBacked → ∀ p, k ≤ p → p < k + r.size → ∀ j b,
    m'.find? j = some b → j ≤ p → p < j + b.size → b.physBase + (p - j) = r.physBase + (p - k)

/-- What two bytes of mapped memory that are the same say about their regions. -/
theorem eq_of_byte_eq {a b : MemoryRegion} {o o' : Nat} (hb : b.isMapped)
    (h : b.byte o' = a.byte o) : a.isMapped ∧ b.prot = a.prot ∧ b.fd = a.fd ∧
      (a.physBase ≠ U64.max → b.physBase ≠ U64.max ∧
        U64.add b.physBase o' = U64.add a.physBase o) := by
  by_cases ha : a.isMapped
  · rw [byte, byte, if_pos hb, if_pos ha, RegionByte.mapped.injEq] at h
    refine ⟨ha, h.2.1, h.2.2, fun hne => ?_⟩
    rw [if_neg hne] at h
    split at h
    · cases h.1
    · rename_i hne'
      exact ⟨hne', Option.some.inj h.1⟩
  · rw [byte, byte, if_pos hb, if_neg ha] at h
    cases h

/-- The region that holds an address reads as the table does. -/
theorem WF.at?_eq (h : m.WF) {p j : Nat} {b : MemoryRegion} (hj : m.find? j = some b) (hle : j ≤ p)
    (hlt : p < j + b.size) : m.at? p = some (b.byte (p - j)) :=
  at?_of_find? h.separated hj hle hlt

/-- What a successful split does to the table. -/
theorem splitRegionLegacy_eq_ok (h : m.WF) (hk : m.find? k = some r) (hle : k ≤ va)
    (hlt : va < k + r.size) (hr : m.splitRegionLegacy va size = .ok m') :
    m.cutRegion k r va size = .ok m' := by
  have hfloor : m.floor? va = some (k, r) := floor?_of_mem h.separated hk hle hlt
  simp only [splitRegionLegacy, Outcome.bind_eq_ok, deref_eq_ok, hfloor, Option.some.injEq,
    exists_eq_left', assertMsg_eq_ok, Outcome.pure_eq_ok] at hr
  obtain ⟨-, -, m₁, hcut, -, -, rfl⟩ := hr
  exact hcut

/-- A region with memory behind it is split soundly. -/
theorem CutOut.keepsBacking {A : Set Nat} {t : MemoryRegion} (h : m.WF) (hk : m.find? k = some r)
    (hm : r.isMapped) (hne : r.physBase ≠ U64.max) (hcut : CutOut m m' k r va size A t) :
    KeepsBacking m m' k r where
  wf := hcut.wf
  tiles p := by rw [hcut.bytes]
  attributes := by
    intro p i a j b hi hip hpi hj hjp hpj
    rcases hcut.entries j b hj with ⟨-, hold⟩ | ⟨-, hpiece⟩
    · obtain rfl := h.separated.unique hold hi hjp hpj hip hpi
      rw [hold] at hi
      cases hi
      exact ⟨rfl, rfl, rfl⟩
    · -- a piece is mapped, so its bytes show what it says
      have hb : b.isMapped := hpiece.isMapped.trans hm
      have hbyte := (hcut.wf.at?_eq hj hjp hpj).symm.trans ((hcut.bytes p).trans (h.at?_eq hi hip hpi))
      obtain ⟨ha, hprot, hfd, -⟩ := eq_of_byte_eq hb (Option.some.inj hbyte)
      exact ⟨hb.trans ha.symm, hprot, hfd⟩
  anonymous hmax := absurd hmax hne
  sectionBacked := by
    intro _ p hkp hpk j b hj hjp hpj
    have hbyte := Option.some.inj
      ((hcut.wf.at?_eq hj hjp hpj).symm.trans ((hcut.bytes p).trans (h.at?_eq hk hkp hpk)))
    have hb : b.isMapped := by
      by_contra hb
      rw [byte_eq_unmapped.2 (Bool.eq_false_iff.2 hb)] at hbyte
      rw [byte_eq_unmapped.1 hbyte.symm] at hm
      cases hm
    obtain ⟨-, -, -, hphys⟩ := eq_of_byte_eq hb hbyte
    obtain ⟨hne', hsum⟩ := hphys hne
    have hr := (h.bounded k r hk hm).resolve_left hne
    have hb' := (hcut.wf.bounded j b hj hb).resolve_left hne'
    rwa [U64.add_of_lt (by omega), U64.add_of_lt (by omega)] at hsum

/-- The range is the whole region, so nothing is cut. -/
theorem keepsBacking_self (h : m.WF) (hk : m.find? k = some r) : KeepsBacking m m k r where
  wf := h
  tiles _ := Iff.rfl
  attributes := by
    intro p i a j b hi hip hpi hj hjp hpj
    obtain rfl := h.separated.unique hj hi hjp hpj hip hpi
    rw [hj] at hi
    cases hi
    exact ⟨rfl, rfl, rfl⟩
  anonymous := by
    intro hmax p hkp hpk j b hj hjp hpj
    obtain rfl := h.separated.unique hj hk hjp hpj hkp hpk
    rw [hj] at hk
    cases hk
    exact hmax
  sectionBacked := by
    intro _ p hkp hpk j b hj hjp hpj
    obtain rfl := h.separated.unique hj hk hjp hpj hkp hpk
    rw [hj] at hk
    cases hk
    rfl

/-- Offsets within the address space take an anonymous base away from its marker. -/
theorem add_max_ne {n : Nat} (hpos : 0 < n) (hlt : n < 2 ^ 64) : U64.add U64.max n ≠ U64.max := by
  unfold U64.add U64.max
  omega

/-- A region that is cut has a piece that does not begin where the region does, with the offset
    of the piece added to the base. -/
theorem exists_piece (h : m.WF) (hk : m.find? k = some r) (hm : r.isMapped) (hle : k ≤ va)
    (hpos : 0 < size) (hfits : va + size ≤ k + r.size) (hcut : m.cutRegion k r va size = .ok m')
    (hpart : ¬(va = k ∧ size = r.size)) :
    ∃ j b, m'.find? j = some b ∧ k < j ∧ j < k + r.size ∧ 0 < b.size ∧
      b.physBase = U64.add r.physBase (j - k) := by
  have hkey := h.key k r hk
  unfold RegionMap.cutRegion at hcut
  rcases Nat.eq_or_lt_of_le hle with rfl | hlt
  · -- the part behind the range
    have hne : r.size ≠ size := fun heq => hpart ⟨rfl, heq.symm⟩
    rw [if_neg (not_not.2 hkey)] at hcut
    simp only [hk, deref, Outcome.ok_bind, if_pos hne] at hcut
    rw [h.emplace_back hk hpos (by omega), Outcome.pure_eq_ok] at hcut
    subst hcut
    refine ⟨k + size, r.after size, by rw [find?_insert, if_pos rfl], by omega, by omega, ?_, ?_⟩
    · simp only [after]
      omega
    · simp only [after, hm, if_true, Nat.add_sub_cancel_left]
  · -- the range itself
    have hphys : (r.after (va - k)).physBase = U64.add r.physBase (va - k) := by
      simp only [after, hm, if_true]
    rw [if_pos (by omega), h.emplace_front hk hlt (by omega)] at hcut
    simp only [find?_insert, if_true, deref, Outcome.ok_bind] at hcut
    split at hcut
    · rw [Outcome.pure_eq_ok] at hcut
      subst hcut
      refine ⟨va, { r.after (va - k) with size }, ?_, hlt, by omega, hpos, hphys⟩
      have hne : va ≠ U64.add (r.after (va - k)).base size := by
        have hend := h.end_lt k r hk
        simp only [after, hkey, Nat.add_sub_cancel' hle]
        rw [U64.add_of_lt (by omega)]
        omega
      rw [find?_emplace_of_ne hne, find?_insert, if_pos rfl]
    · rw [Outcome.pure_eq_ok] at hcut
      subst hcut
      refine ⟨va, r.after (va - k), by rw [find?_insert, if_pos rfl], hlt, by omega, ?_, hphys⟩
      simp only [after]
      omega

/-- The split keeps what is behind a mapped region if and only if the region has memory behind
    it, or nothing is cut. -/
theorem keepsBacking_iff (h : m.WF) (hk : m.find? k = some r) (hm : r.isMapped) (hle : k ≤ va)
    (hpos : 0 < size) (hfits : va + size ≤ k + r.size) (hr : m.splitRegionLegacy va size = .ok m') :
    KeepsBacking m m' k r ↔ r.physBase ≠ U64.max ∨ (va = k ∧ size = r.size) := by
  have hcut := splitRegionLegacy_eq_ok h hk hle (by omega) hr
  have hend := h.end_lt k r hk
  constructor
  · intro hkeeps
    by_contra hno
    rw [not_or, not_not] at hno
    obtain ⟨hmax, hpart⟩ := hno
    obtain ⟨j, b, hj, hkj, hjk, hbpos, hphys⟩ := exists_piece h hk hm hle hpos hfits hcut hpart
    have hbmax := hkeeps.anonymous hmax j hkj.le hjk j b hj le_rfl (by omega)
    rw [hphys, hmax] at hbmax
    exact add_max_ne (by omega) (by omega) hbmax
  · intro hcond
    by_cases hne : r.physBase = U64.max
    · obtain ⟨rfl, rfl⟩ := hcond.resolve_left (not_not.2 hne)
      simp only [RegionMap.cutRegion, h.key va r hk, ne_eq, not_true_eq_false, if_false, hk, deref,
        Outcome.ok_bind, Outcome.pure_eq_ok] at hcut
      exact hcut ▸ keepsBacking_self h hk
    · obtain ⟨m'', A, t, hok, hcutOut, -⟩ := h.cutRegion hk (fun ha => hne ha.2) hle hpos hfits
      cases hok.symm.trans hcut
      exact hcutOut.keepsBacking h hk hm hne

end RegionMap

namespace AddressSpace

open RegionMap

/-- A mapping of 128 KiB on Windows 7, and a test on the table. -/
theorem exists_run_map (phys : Nat) (hphys : phys = U64.max ∨ phys + 0x20000 < 2 ^ 64)
    (t : RegionMap → Bool)
    (ht : ((init sampleHost true).step (.map 0x410000 phys 0x20000 PAGE_READONLY (-1))).toOption.any
      (fun s => t s.regions) = true) :
    ∃ s, Run sampleHost true (fun _ call => ∀ va size, call ≠ .unmap va size)
      [.map 0x410000 phys 0x20000 PAGE_READONLY (-1)] s ∧ s.regions.WF ∧ t s.regions = true := by
  cases hstep : (init sampleHost true).step (.map 0x410000 phys 0x20000 PAGE_READONLY (-1)) with
  | error e => simp [hstep, Except.toOption] at ht
  | ok s =>
    rw [hstep] at ht
    have hproper : Call.Proper (init sampleHost true)
        (.map 0x410000 phys 0x20000 PAGE_READONLY (-1)) :=
      ⟨by decide, freeRange_init fun p hle hlt => ⟨_, List.mem_singleton.2 rfl, by omega, by omega⟩,
        hphys⟩
    have hrun : Run sampleHost true (fun _ call => ∀ va size, call ≠ .unmap va size)
        [.map 0x410000 phys 0x20000 PAGE_READONLY (-1)] s :=
      .cons .nil hproper (fun _ _ h => by cases h) hstep
    exact ⟨s, hrun, (hrun.follows fun _ _ va size h => absurd rfl (h va size)).1.wf, ht⟩

/-- The second half of a section-backed mapping. -/
theorem keepsBacking_second_half :
    ∃ s r m', Run sampleHost true (fun _ call => ∀ va size, call ≠ .unmap va size)
        [.map 0x410000 0x10000 0x20000 PAGE_READONLY (-1)] s ∧
      s.regions.splitRegionLegacy 0x420000 0x10000 = .ok m' ∧
      (KeepsBacking s.regions m' 0x410000 r ↔
        r.physBase ≠ U64.max ∨ (0x420000 = 0x410000 ∧ 0x10000 = r.size)) := by
  obtain ⟨s, hrun, hwf, ht⟩ := exists_run_map 0x10000 (.inr (by decide))
    (fun m => (m.find? 0x410000).any (fun (r : MemoryRegion) =>
        r.isMapped && decide (r.size = 0x20000)) &&
      (m.splitRegionLegacy 0x420000 0x10000).toOption.isSome) (by with_unfolding_all decide)
  rw [Bool.and_eq_true] at ht
  obtain ⟨r, hr, htest⟩ := (Option.any_eq_true _ _).1 ht.1
  rw [Bool.and_eq_true, decide_eq_true_eq] at htest
  cases hsplit : s.regions.splitRegionLegacy 0x420000 0x10000 with
  | error e => simp [hsplit, Except.toOption] at ht
  | ok m' =>
    exact ⟨s, r, m', hrun, hsplit, keepsBacking_iff hwf hr htest.1 (by decide) (by decide)
      (by omega) hsplit⟩

/-- The second half of an anonymous mapping gets the base `0xffff` when the first half is cut
    off. -/
theorem not_keepsBacking_anonymous :
    ∃ s r m', Run sampleHost true (fun _ call => ∀ va size, call ≠ .unmap va size)
        [.map 0x410000 U64.max 0x20000 PAGE_READONLY (-1)] s ∧
      s.regions.find? 0x410000 = some r ∧ r.isMapped ∧ r.size = 0x20000 ∧
      s.regions.splitRegionLegacy 0x410000 0x10000 = .ok m' ∧
      ¬KeepsBacking s.regions m' 0x410000 r := by
  obtain ⟨s, hrun, hwf, ht⟩ := exists_run_map U64.max (.inl rfl)
    (fun m => (m.find? 0x410000).any (fun (r : MemoryRegion) =>
        r.isMapped && decide (r.size = 0x20000) && decide (r.physBase = U64.max)) &&
      (m.splitRegionLegacy 0x410000 0x10000).toOption.any fun (m' : RegionMap) =>
        (m'.find? 0x420000).any fun (b : MemoryRegion) => decide (b.physBase = 0xffff ∧ 0 < b.size))
    (by with_unfolding_all decide)
  rw [Bool.and_eq_true] at ht
  obtain ⟨r, hr, htest⟩ := (Option.any_eq_true _ _).1 ht.1
  simp only [Bool.and_eq_true, decide_eq_true_eq] at htest
  obtain ⟨⟨hm, hsize⟩, hmax⟩ := htest
  cases hsplit : s.regions.splitRegionLegacy 0x410000 0x10000 with
  | error e => simp [hsplit, Except.toOption] at ht
  | ok m' =>
    have hpieces := ht.2
    rw [hsplit, Except.toOption, Option.any_some] at hpieces
    obtain ⟨b, hb, hbase⟩ := (Option.any_eq_true _ _).1 hpieces
    obtain ⟨hphys, hpos⟩ := of_decide_eq_true hbase
    refine ⟨s, r, m', hrun, hr, hm, hsize, hsplit, fun hkeeps => ?_⟩
    have hbmax := hkeeps.anonymous hmax 0x420000 (by decide) (by omega) 0x420000 b hb le_rfl
      (by omega)
    rw [hphys] at hbmax
    revert hbmax
    decide

end AddressSpace

end Core
