-- SUMMARY: Runs of `Map` and `Unmap`: the region table tiles the reserved ranges and is as the last calls left it.
import W7PS4.AddressSpace.Regions

/-!
# Runs of the address space

`Map` cuts its range out of a free region and marks it; `Unmap` frees the regions of its
range one after the other and coalesces once, around the first address. After any calls
each address of the table is as the last call that covers it left it, and no two free
regions touch.
-/

namespace Core

open StdMap
open Outcome (bind_eq_ok ok_bind pure_eq_ok)

namespace AddressSpace

open MemoryRegion RegionMap

variable {s s' : AddressSpace} {m m' : RegionMap} {k va cur rem size : Nat} {r t : MemoryRegion}

/-! ## Splitting -/

/-- The ends of a section-backed region that is cut on Windows 7. -/
def SectionCut (k : Nat) (r : MemoryRegion) (va size : Nat) : Prop :=
  r.isMapped → r.isLegacySectionBacked → k % 0x10000 = 0 ∧ va % 0x10000 = 0 ∧
    (va + size = k + r.size ∨ (va + size) % 0x10000 = 0)

/-- What the two paths of `SplitRegion` check. -/
theorem split_parts (hfloor : s.regions.floor? va = some (k, r)) (hr : s.split va size = .ok m') :
    U64.add va size ≤ U64.add r.base r.size ∧ s.regions.cutRegion k r va size = .ok m' ∧
      (s.useLegacy = false → ¬r.Anonymous) ∧
      (s.useLegacy → r.isMapped → r.isLegacySectionBacked → r.base % 0x10000 = 0 ∧
        va % 0x10000 = 0 ∧ (U64.add va size = U64.add r.base r.size ∨
          U64.add va size % 0x10000 = 0)) := by
  unfold split at hr
  split at hr
  · rename_i hlegacy
    simp only [splitRegionLegacy, bind_eq_ok, deref_eq_ok, hfloor, Option.some.injEq,
      exists_eq_left', assertMsg_eq_ok, pure_eq_ok, decide_eq_true_eq,
      Bool.or_eq_true, Bool.and_eq_true, Bool.not_eq_true', Bool.and_eq_false_iff] at hr
    obtain ⟨-, hfits, m₁, hm₁, -, halign, rfl⟩ := hr
    refine ⟨hfits, hm₁, fun hmodern => ?_, fun _ hmapped hsection => ?_⟩
    · rw [hlegacy] at hmodern
      cases hmodern
    · rcases halign with (habs | habs) | ⟨⟨hbase, hva⟩, hwhole⟩
      · rw [hmapped] at habs
        cases habs
      · rw [hsection] at habs
        cases habs
      · exact ⟨hbase, hva, hwhole⟩
  · rename_i hmodern
    simp only [splitRegion, bind_eq_ok, deref_eq_ok, hfloor, Option.some.injEq,
      exists_eq_left', assertMsg_eq_ok, ge_iff_le, decide_eq_true_eq,
      Bool.or_eq_true, Bool.not_eq_true', ne_eq, decide_not] at hr
    obtain ⟨-, hfits, -, hphys, hm'⟩ := hr
    refine ⟨hfits, hm', fun _ => ?_, fun hlegacy => absurd hlegacy hmodern⟩
    rintro ⟨hmapped, hmax⟩
    rw [hmapped] at hphys
    simp [hmax] at hphys

theorem WF.add_eq (h : m.WF) (hk : m.find? k = some r) : U64.add r.base r.size = k + r.size := by
  have hend := h.end_lt k r hk
  rw [h.key k r hk]
  exact U64.add_of_lt (by omega)

theorem split_eq_ok (h : s.regions.WF) (hfloor : s.regions.floor? va = some (k, r))
    (hpos : 0 < size) (hlt : va + size < 2 ^ 64) (ha : s.useLegacy → ¬r.Anonymous)
    (hr : s.split va size = .ok m') :
    va + size ≤ k + r.size ∧ ¬r.Anonymous ∧ (∃ A t, CutOut s.regions m' k r va size A t ∧
      A ⊆ {va, va + size}) ∧ (s.useLegacy → SectionCut k r va size) := by
  obtain ⟨hk, hle, -⟩ := floor?_eq_some.1 hfloor
  simp only at hk hle
  obtain ⟨hfits, hcut, hmodern, hlegacy⟩ := split_parts hfloor hr
  rw [WF.add_eq h hk, U64.add_of_lt hlt] at hfits hlegacy
  have hanon : ¬r.Anonymous := by
    cases hs : s.useLegacy with
    | false => exact hmodern hs
    | true => exact ha hs
  obtain ⟨m'', A, t, hok, hcutOut, hA⟩ := h.cutRegion hk hanon hle hpos hfits
  cases hok.symm.trans hcut
  exact ⟨hfits, hanon, ⟨A, t, hcutOut, hA⟩, fun hl hmapped hsection =>
    h.key k r hk ▸ hlegacy hl hmapped hsection⟩

/-- A free region is split wherever it is wide enough. -/
theorem split_of_free (h : s.regions.WF) (hfloor : s.regions.floor? va = some (k, r))
    (hfree : r.isMapped = false) (hpos : 0 < size) (hfits : va + size ≤ k + r.size) :
    ∃ m', s.split va size = .ok m' := by
  obtain ⟨hk, hle, -⟩ := floor?_eq_some.1 hfloor
  simp only at hk hle
  have hend := h.end_lt k r hk
  have hadd := WF.add_eq h hk
  have hadd' : U64.add va size = va + size := U64.add_of_lt (by omega)
  have hanon : ¬r.Anonymous := by
    rintro ⟨hmapped, -⟩
    rw [hfree] at hmapped
    cases hmapped
  obtain ⟨m', A, t, hok, -⟩ := h.cutRegion hk hanon hle hpos hfits
  refine ⟨m', ?_⟩
  unfold split
  split
  · simp only [splitRegionLegacy, bind_eq_ok, deref_eq_ok, hfloor, Option.some.injEq,
      exists_eq_left', assertMsg_eq_ok, pure_eq_ok, hadd, hadd', decide_eq_true_eq]
    exact ⟨(), hfits, m', hok, (), by simp [hfree], rfl⟩
  simp only [splitRegion, bind_eq_ok, deref_eq_ok, hfloor, Option.some.injEq,
    exists_eq_left', assertMsg_eq_ok, hadd, hadd', ge_iff_le, decide_eq_true_eq]
  exact ⟨(), hfits, (), by simp [hfree], hok⟩

/-! ## Addresses outside every region -/

/-- At an empty free region the loop of `Unmap` makes no progress. -/
theorem unmapLoop_of_empty {fuel : Nat} (hk : s.regions.find? cur = some r) (hbase : r.base = cur)
    (hsize : r.size = 0) (hfree : r.isMapped = false) (hcur : cur < 2 ^ 64) (hrem : 0 < rem) :
    unmapLoop fuel s cur rem = .error .diverges := by
  induction fuel generalizing s r with
  | zero => rfl
  | succ fuel ih =>
    have hfloor : s.regions.floor? cur = some (cur, r) :=
      floor?_eq_some.2 ⟨hk, le_rfl, fun i b _ hi => hi⟩
    have hzero : U64.sub cur cur = 0 := by
      rw [U64.sub_of_le hcur le_rfl]
      omega
    have hzero' : U64.sub 0 0 = 0 := U64.sub_of_le (by decide) le_rfl
    have hadd : U64.add cur 0 = cur := U64.add_of_lt (by omega)
    have hviews : s.restoreLegacyView r = .ok s.legacyPlaceholderViews := by
      simp only [restoreLegacyView, hfree, Bool.false_and, Bool.false_eq_true, if_false]
      rfl
    have hstay : (pure s.regions : Outcome RegionMap) = .ok s.regions := rfl
    rw [unmapLoop, if_neg (by omega)]
    simp only [hfloor, deref, ok_bind, hbase, hsize, hzero, hzero', Nat.zero_min, ne_eq,
      not_true_eq_false, or_self, if_false, hstay, hviews, hadd, Nat.sub_zero]
    exact ih (r := freed r) (by simp) hbase hsize rfl

/-- Nor does it return from an address past the end of a region: the range does not fit, or
    an empty region is inserted right after this one. -/
theorem unmapLoop_of_gap (fuel : Nat) (h : s.regions.WF)
    (hfloor : s.regions.floor? cur = some (k, r)) (hgap : k + r.size ≤ cur) (hrem : 0 < rem)
    (hlt : cur + rem < 2 ^ 64) :
    ∃ e, unmapLoop fuel s cur rem = .error e ∧ (e = .diverges ∨
      (∃ n, s.split cur n = .error e) ∨
      (k + r.size = cur ∧ ∃ t, t.base = cur ∧ t.size = 0 ∧ s.restoreLegacyView t = .error e)) := by
  obtain ⟨hk, hle, hmax⟩ := floor?_eq_some.1 hfloor
  simp only at hk hle hmax
  have hkey := h.key k r hk
  have hpos := h.pos k r hk
  have hend := h.end_lt k r hk
  have hoff : U64.sub cur r.base = cur - k := by
    rw [hkey]
    exact U64.sub_of_le (by omega) hle
  cases fuel with
  | zero => exact ⟨.diverges, rfl, .inl rfl⟩
  | succ fuel =>
    rw [unmapLoop, if_neg (by omega)]
    simp only [hfloor, deref, ok_bind, hoff]
    rw [if_pos (by omega)]
    cases hsplit : s.split cur (min (U64.sub r.size (cur - k)) rem) with
    | error e => exact ⟨e, rfl, .inr (.inl ⟨_, hsplit⟩)⟩
    | ok m₁ =>
      rw [ok_bind]
      rcases Nat.eq_or_lt_of_le hgap with rfl | hgap
      · have hzero : min (U64.sub r.size (k + r.size - k)) rem = 0 := by
          rw [Nat.add_sub_cancel_left, U64.sub_of_le (by omega) le_rfl]
          omega
        rw [hzero] at hsplit ⊢
        have hfresh : (s.regions.insert k { r with size := r.size }).find? (k + r.size) = none := by
          rw [find?_insert, if_neg (by omega), Option.eq_none_iff_forall_ne_some]
          intro b hb
          have := hmax _ b hb le_rfl
          omega
        have htarget : ∃ t, m₁.find? (k + r.size) = some t ∧ t.base = k + r.size ∧ t.size = 0 := by
          have hcut := (split_parts hfloor hsplit).2.1
          have hwide : U64.sub r.size r.size = 0 := by
            rw [U64.sub_of_le (by omega) le_rfl]
            omega
          rw [Nat.add_sub_cancel_left] at hoff
          unfold RegionMap.cutRegion at hcut
          rw [if_pos (by omega), hoff, emplace_of_find?_eq_none hfresh, hwide] at hcut
          simp only [find?_insert, if_true, deref, ok_bind, ne_eq, not_true_eq_false,
            if_false, pure_eq_ok] at hcut
          subst hcut
          exact ⟨_, by rw [find?_insert, if_pos rfl], rfl, rfl⟩
        obtain ⟨t, ht, htbase, htsize⟩ := htarget
        have hfloor' : m₁.floor? (k + r.size) = some (k + r.size, t) :=
          floor?_eq_some.2 ⟨ht, le_rfl, fun i b _ hi => hi⟩
        simp only [hfloor', ok_bind]
        cases hviews : s.restoreLegacyView t with
        | error e => exact ⟨e, rfl, .inr (.inr ⟨trivial, t, htbase, htsize, hviews⟩)⟩
        | ok views =>
          have hadd : U64.add (k + r.size) 0 = k + r.size := U64.add_of_lt (by omega)
          rw [ok_bind, hadd, Nat.sub_zero]
          exact ⟨.diverges, unmapLoop_of_empty (r := freed t) (by simp) htbase htsize rfl
            (by omega) hrem, .inl rfl⟩
      · -- the rest of the range does not fit
        have hwrap : min (U64.sub r.size (cur - k)) rem = rem := by
          unfold U64.sub
          omega
        rw [hwrap] at hsplit
        have hfits := (split_parts hfloor hsplit).1
        rw [WF.add_eq h hk, U64.add_of_lt hlt] at hfits
        omega

/-! ## Unmapping -/

/-- The address does not lie inside an anonymous region. -/
def Uncut (m : RegionMap) (a : Nat) : Prop :=
  ∀ k r, m.find? k = some r → r.Anonymous → ¬(k < a ∧ a < k + r.size)

/-- One turn of the loop of `Unmap`: the region `t` of `[cur, cur + n)` is cut out of `r`
    and freed. -/
structure Turn (s : AddressSpace) (m₁ : RegionMap) (cur n k : Nat) (r t : MemoryRegion) : Prop where
  pos : 0 < n
  le : k ≤ cur
  fits : cur + n ≤ k + r.size
  find : s.regions.find? k = some r
  cut : CutOut s.regions m₁ k r cur n {cur, cur + n} t
  separated : s.regions.Separated
  whole : r.Anonymous → k = cur ∧ m₁ = s.regions
  aligned : s.useLegacy → SectionCut k r cur n ∨ (k = cur ∧ n = r.size)

/-- The split of `Unmap` makes a turn. -/
theorem exists_turn {n : Nat} {m₁ : RegionMap} (h : s.regions.WF)
    (hfloor : s.regions.floor? cur = some (k, r)) (hin : cur < k + r.size) (hrem : 0 < rem)
    (hn : n = min (k + r.size - cur) rem)
    (ha : s.useLegacy → Uncut s.regions cur ∧ Uncut s.regions (cur + rem))
    (hsplit : (if cur ≠ r.base ∨ n ≠ r.size then s.split cur n else pure s.regions :
      Outcome RegionMap) = .ok m₁) : ∃ t, Turn s m₁ cur n k r t := by
  obtain ⟨hk, hle, -⟩ := floor?_eq_some.1 hfloor
  simp only at hk hle
  have hkey := h.key k r hk
  have hend := h.end_lt k r hk
  by_cases hcut : cur ≠ r.base ∨ n ≠ r.size
  · rw [if_pos hcut] at hsplit
    -- an anonymous region is not cut
    have hwhole : s.useLegacy → ¬r.Anonymous := by
      intro hlegacy hanon
      obtain ⟨h₁, h₂⟩ := ha hlegacy
      have := h₁ k r hk hanon
      have := h₂ k r hk hanon
      omega
    obtain ⟨hfits, hanon, ⟨A, t, hcutOut, hA⟩, halign⟩ :=
      split_eq_ok h hfloor (by omega) (by omega) hwhole hsplit
    exact ⟨t, by omega, hle, hfits, hk, hcutOut.mono hA, h.separated, fun habs => absurd habs hanon,
      fun hlegacy => .inl (halign hlegacy)⟩
  · rw [if_neg hcut, pure_eq_ok] at hsplit
    subst hsplit
    have hcur : k = cur := by omega
    have hnr : n = r.size := by omega
    subst hcur
    subst hnr
    exact ⟨r, by omega, le_rfl, le_rfl, hk, (CutOut.refl h hk).mono (Set.empty_subset _),
      h.separated, fun _ => ⟨rfl, rfl⟩, fun _ => .inr ⟨rfl, rfl⟩⟩

/-- How much of a region the loop of `Unmap` takes in one turn. -/
theorem sizeToUnmap_eq (h : s.regions.WF) (hfloor : s.regions.floor? cur = some (k, r))
    (hin : cur < k + r.size) :
    min (U64.sub r.size (U64.sub cur r.base)) rem = min (k + r.size - cur) rem := by
  obtain ⟨hk, hle, -⟩ := floor?_eq_some.1 hfloor
  simp only at hk hle
  have hend := h.end_lt k r hk
  rw [h.key k r hk, U64.sub_of_le (by omega) hle, U64.sub_of_le (by omega) (by omega)]
  omega

theorem unmapLoop_succ {fuel : Nat} (h : s.regions.WF) (hrem : 0 < rem)
    (hlt : cur + rem < 2 ^ 64)
    (ha : s.useLegacy → Uncut s.regions cur ∧ Uncut s.regions (cur + rem))
    (hr : unmapLoop (fuel + 1) s cur rem = .ok s') :
    ∃ n m₁ k r t views, n ≤ rem ∧ Turn s m₁ cur n k r t ∧ s.restoreLegacyView t = .ok views ∧
      unmapLoop fuel { s with regions := m₁.insert cur (freed t), legacyPlaceholderViews := views }
        (cur + n) (rem - n) = .ok s' := by
  have hr₀ := hr
  rw [unmapLoop, if_neg (by omega)] at hr
  simp only [bind_eq_ok, deref_eq_ok] at hr
  obtain ⟨⟨k, r⟩, hfloor, m₁, hsplit, ⟨k₁, t₁⟩, hfloor₁, views, hviews, hr⟩ := hr
  simp only at hsplit hviews hr
  have hin : cur < k + r.size := by
    by_contra hgap
    obtain ⟨e, he, -⟩ := unmapLoop_of_gap (fuel + 1) h hfloor (by omega) hrem hlt
    rw [he] at hr₀
    cases hr₀
  rw [sizeToUnmap_eq h hfloor hin] at hsplit hr
  generalize hndef : min (k + r.size - cur) rem = n at hsplit hr
  rw [U64.add_of_lt (by omega)] at hr
  obtain ⟨t, hturn⟩ := exists_turn h hfloor hin hrem hndef.symm ha hsplit
  have hfloor' : m₁.floor? cur = some (cur, t) :=
    floor?_eq_some.2 ⟨hturn.cut.target, le_rfl, fun i b _ hi => hi⟩
  rw [hfloor'] at hfloor₁
  cases hfloor₁
  exact ⟨n, m₁, k, r, t₁, views, by omega, hturn, hviews, hr⟩

namespace Turn

variable {m₁ : RegionMap} {n : Nat}

/-- The table after the turn. -/
theorem freed (h : Turn s m₁ cur n k r t) :
    Freed s.regions (m₁.insert cur (AddressSpace.freed t)) cur n := by
  have hpos := h.pos
  obtain ⟨hwf, hat, hkeys⟩ := h.cut.replace (AddressSpace.freed t) h.find rfl rfl
    (fun hm => by cases hm)
  refine ⟨hwf, hat, ?_, ?_⟩
  · intro p hp hlt
    rw [← h.cut.bytes, at?_of_find? h.cut.wf.separated h.cut.target hp
      (by simp only [area_size, h.cut.size_eq]; omega)]
    rfl
  · intro j hj
    exact (hkeys j hj).imp id fun hj => by omega

/-- The ends of what is left to unmap stay outside anonymous regions. -/
theorem uncut (h : Turn s m₁ cur n k r t) {a : Nat} (ha : a = cur + n ∨ Uncut s.regions a) :
    Uncut (m₁.insert cur (AddressSpace.freed t)) a := by
  intro j b hj hanon
  rw [find?_insert] at hj
  split at hj
  · cases hj
    exact absurd hanon.1 (by simp [AddressSpace.freed])
  rename_i hjc
  have hold : s.regions.find? j = some b ∧ j ≠ k := by
    rcases h.cut.entries j b hj with ⟨hne, hold⟩ | ⟨-, hpiece⟩
    · exact ⟨hold, hne⟩
    · -- only an anonymous region has anonymous pieces, and it was not cut
      have hmapped : r.isMapped := hpiece.isMapped ▸ hanon.1
      obtain ⟨hkc, hm⟩ := h.whole ⟨hmapped, hpiece.phys hanon.2 hmapped⟩
      exact ⟨hm ▸ hj, hkc ▸ hjc⟩
  obtain ⟨hold, hne⟩ := hold
  rcases ha with rfl | ha
  · rintro ⟨hlt, hgt⟩
    have hfits := h.fits
    have hle := h.le
    have hpos := h.pos
    have hwf : s.regions.Separated := h.separated
    rcases Nat.lt_or_gt_of_ne hne with hjk | hjk
    · have := hwf j b k r hold h.find hjk
      simp only [area_size] at this
      omega
    · have := hwf k r j b h.find hold hjk
      simp only [area_size] at this
      omega
  · exact ha j b hold hanon

end Turn

/-- `Unmap` up to its coalescing. -/
theorem unmapLoop_eq_ok {fuel : Nat} (h : s.regions.WF) (hlt : cur + rem < 2 ^ 64)
    (ha : s.useLegacy → Uncut s.regions cur ∧ Uncut s.regions (cur + rem))
    (hr : unmapLoop fuel s cur rem = .ok s') :
    Freed s.regions s'.regions cur rem ∧ s'.useLegacy = s.useLegacy := by
  induction fuel generalizing s cur rem with
  | zero => cases hr
  | succ fuel ih =>
    by_cases hrem : rem = 0
    · subst hrem
      rw [unmapLoop, if_pos rfl, pure_eq_ok] at hr
      subst hr
      exact ⟨.refl h, rfl⟩
    · obtain ⟨n, m₁, k, r, t, views, hn, hturn, -, hr⟩ :=
        unmapLoop_succ h (by omega) hlt ha hr
      have hnext : cur + n + (rem - n) = cur + rem := by omega
      obtain ⟨hfreed, hlegacy⟩ := ih hturn.freed.wf (by omega)
        (fun hl => ⟨hturn.uncut (.inl rfl), hturn.uncut (.inr (hnext ▸ (ha hl).2))⟩) hr
      have := hturn.freed.trans hfreed
      rw [Nat.add_sub_cancel' hn] at this
      exact ⟨this, hlegacy⟩

/-! ## Mapping -/

/-- What `Map` makes of a region. -/
def marked (t : MemoryRegion) (phys prot : Nat) (fd : Int) : MemoryRegion :=
  { t with isMapped := true, physBase := phys, prot, fd }

/-- What the table says about an address that is `o` bytes into a mapping. -/
def mappedByte (phys prot : Nat) (fd : Int) (o : Nat) : RegionByte :=
  .mapped (if phys = U64.max then none else some (U64.add phys o)) prot fd

/-- The addresses of `[va, va + size)` are free. -/
def FreeRange (m : RegionMap) (va size : Nat) : Prop :=
  ∀ p, va ≤ p → p < va + size → m.at? p = some .unmapped

/-- A free range lies in one region when no two free regions touch. -/
theorem FreeRange.exists_region (hfree : FreeRange m va size) (h : m.WF) (hseam : ∀ j, ¬Seam m j)
    (hpos : 0 < size) : ∃ k r, m.floor? va = some (k, r) ∧ m.find? k = some r ∧ k ≤ va ∧
      r.isMapped = false ∧ va + size ≤ k + r.size := by
  obtain ⟨k, r, hk, hle, hlt, hbyte⟩ := exists_of_at? (hfree va le_rfl (by omega))
  rw [area_byte, byte_eq_unmapped] at hbyte
  simp only [area_size] at hlt
  refine ⟨k, r, floor?_of_mem h.separated hk hle hlt, hk, hle, hbyte, ?_⟩
  by_contra hshort
  have hnext := hfree (k + r.size) (by omega) (by omega)
  obtain ⟨j, b, hj, hjle, hjlt, hjfree⟩ := exists_of_at? hnext
  rw [area_byte, byte_eq_unmapped] at hjfree
  have hjk : j = k + r.size := by
    rcases Nat.lt_trichotomy j k with hlt' | rfl | hgt
    · have := h.separated j b k r hj hk hlt'
      omega
    · rw [hk] at hj
      cases hj
      simp only [area_size] at hjlt
      omega
    · have := h.separated k r j b hk hj hgt
      simp only [area_size] at this
      omega
  exact hseam j ((h.seam_iff hj).2 ⟨hjfree, k, r, hk, hbyte, hjk.symm⟩)

/-- `m'` is `m` with the range `[va, va + size)` mapped. -/
structure Mapped (m m' : RegionMap) (va size phys prot : Nat) (fd : Int) : Prop where
  wf : m'.WF
  bytes : ∀ p, m'.at? p =
    if va ≤ p ∧ p < va + size then some (mappedByte phys prot fd (p - va)) else m.at? p
  noSeam : ∀ j, ¬Seam m' j
  keys : ∀ j, (m'.find? j).isSome → (m.find? j).isSome ∨ j = va ∨ j = va + size

theorem mapped_of_cutOut {m₁ : RegionMap} {phys prot : Nat} {fd : Int}
    (hcut : CutOut m m₁ k r va size {va, va + size} t) (hk : m.find? k = some r)
    (hseam : ∀ j, ¬Seam m j) (hpos : 0 < size) (hphys : phys = U64.max ∨ phys + size < 2 ^ 64) :
    Mapped m (m₁.insert va (marked t phys prot fd)) va size phys prot fd := by
  obtain ⟨hwf, hat, hkeys⟩ := hcut.replace (marked t phys prot fd) hk rfl rfl
    (fun _ => by simp only [marked, hcut.size_eq]; exact hphys)
  refine ⟨hwf, hat, ?_, hkeys⟩
  -- next to a mapped address there is no seam
  rintro j ⟨hsome, hfree, q, rfl, hq⟩
  rw [hat] at hfree hq
  have hout : ¬(va ≤ q + 1 ∧ q + 1 < va + size) := by
    intro hin
    rw [if_pos hin] at hfree
    cases hfree
  have hout' : ¬(va ≤ q ∧ q < va + size) := by
    intro hin
    rw [if_pos hin] at hq
    cases hq
  rw [if_neg hout] at hfree
  rw [if_neg hout'] at hq
  exact hseam (q + 1) ⟨(hkeys _ hsome).resolve_right (by omega), hfree, q, rfl, hq⟩

/-- `Map` of a free range cuts it out and marks it. What is left is the host side of the
    Windows 7 path. -/
theorem map_of_freeRange (phys prot : Nat) (fd : Int) (h : s.regions.WF)
    (hseam : ∀ j, ¬Seam s.regions j) (hfree : FreeRange s.regions va size) (hpos : 0 < size) :
    ∃ (m₁ : RegionMap) (t : MemoryRegion), (phys = U64.max ∨ phys + size < 2 ^ 64 →
        Mapped s.regions (m₁.insert va (marked t phys prot fd)) va size phys prot fd) ∧
      t.base = va ∧ t.size = size ∧ m₁.find? va = some t ∧
      s.map va phys size prot fd =
        (let s₁ := { s with regions := m₁.insert va (marked t phys prot fd) }
        if s.useLegacy then do
          let views ← s₁.mapLegacyViews (marked t phys prot fd)
          return { s₁ with legacyPlaceholderViews := views }
        else return s₁) := by
  obtain ⟨k, r, hfloor, hk, hle, hrfree, hfits⟩ := hfree.exists_region h hseam hpos
  have hend := h.end_lt k r hk
  have hanon : ¬r.Anonymous := by
    rintro ⟨hmapped, -⟩
    rw [hrfree] at hmapped
    cases hmapped
  obtain ⟨m₁, t, hsplit, hcut⟩ : ∃ m₁ t,
      (if k ≠ va ∨ r.size ≠ size then s.split va size else pure s.regions : Outcome RegionMap) =
        .ok m₁ ∧ CutOut s.regions m₁ k r va size {va, va + size} t := by
    by_cases hwhole : k ≠ va ∨ r.size ≠ size
    · obtain ⟨m₁, hm₁⟩ := split_of_free h hfloor hrfree hpos hfits
      obtain ⟨-, -, ⟨A, t, hcut, hA⟩, -⟩ :=
        split_eq_ok h hfloor hpos (by omega) (fun _ => hanon) hm₁
      exact ⟨m₁, t, (if_pos hwhole).trans hm₁, hcut.mono hA⟩
    · refine ⟨s.regions, r, if_neg hwhole, ?_⟩
      have hkva : k = va := by omega
      have hsize : r.size = size := by omega
      subst hkva
      subst hsize
      exact (CutOut.refl h hk).mono (Set.empty_subset _)
  have hfloor₁ : m₁.floor? va = some (va, t) :=
    floor?_eq_some.2 ⟨hcut.target, le_rfl, fun i b _ hi => hi⟩
  have htfree : t.isMapped = false := hcut.piece.isMapped.trans hrfree
  refine ⟨m₁, t, mapped_of_cutOut hcut hk hseam hpos, hcut.wf.key va t hcut.target,
    hcut.size_eq, hcut.target, ?_⟩
  unfold map
  rw [hfloor]
  simp only [deref, ok_bind, hsplit, hfloor₁, assertMsg, htfree, Bool.not_false, if_true]
  rfl

end AddressSpace

/-! ## The constructor -/

theorem Reservation.rangesApart (host : Reservation) : RangesApart host.ranges :=
  ⟨fun r hr => (host.nonempty r hr).1, host.apart⟩

namespace AddressSpace

open MemoryRegion RegionMap

variable {host : Reservation} {useLegacy : Bool} {s s' : AddressSpace} {k p : Nat}
  {r : MemoryRegion}

/-- The region of a range that was just reserved. -/
def reservedRegion (e : Nat × Nat) : MemoryRegion :=
  { base := e.1, physBase := U64.max, size := e.2 - e.1, prot := PAGE_NOACCESS, fd := -1,
    isMapped := false }

theorem find?_init : (init host useLegacy).regions.find? k = some r ↔
    ∃ e ∈ host.ranges, e.1 = k ∧ reservedRegion e = r :=
  find?_foldl_emplace_eq_some fun _ hi _ hj => host.rangesApart.unique hi hj

theorem wf_init : (init host useLegacy).regions.WF where
  key := by
    intro k r hk
    obtain ⟨e, -, rfl, rfl⟩ := find?_init.1 hk
    rfl
  separated := by
    intro j a k b hj hk hlt
    obtain ⟨e, he, rfl, rfl⟩ := find?_init.1 hj
    obtain ⟨e', he', rfl, rfl⟩ := find?_init.1 hk
    have := host.nonempty e he
    have := host.rangesApart.ordered he he' hlt
    simp only [area_size, reservedRegion]
    omega
  pos := by
    intro k r hk
    obtain ⟨e, he, rfl, rfl⟩ := find?_init.1 hk
    have := host.nonempty e he
    simp only [reservedRegion]
    omega
  end_lt := by
    intro k r hk
    obtain ⟨e, he, rfl, rfl⟩ := find?_init.1 hk
    have := host.nonempty e he
    simp only [reservedRegion]
    omega
  bounded := by
    intro k r hk hm
    obtain ⟨e, -, rfl, rfl⟩ := find?_init.1 hk
    cases hm

theorem at?_init {x : RegionByte} : (init host useLegacy).regions.at? p = some x ↔
    host.Reserved p ∧ x = .unmapped := by
  rw [at?_eq_some wf_init.separated]
  constructor
  · rintro ⟨k, r, hk, hle, hlt, rfl⟩
    obtain ⟨e, he, rfl, rfl⟩ := find?_init.1 hk
    simp only [area_size, reservedRegion] at hlt
    exact ⟨⟨e, he, hle, by omega⟩, rfl⟩
  · rintro ⟨⟨e, he, hle, hlt⟩, rfl⟩
    refine ⟨e.1, _, find?_init.2 ⟨e, he, rfl, rfl⟩, hle, ?_, rfl⟩
    simp only [area_size, reservedRegion]
    omega

theorem noSeam_init (j : Nat) : ¬Seam (init host useLegacy).regions j := by
  rintro ⟨hsome, -, q, rfl, hq⟩
  obtain ⟨b, hb⟩ := Option.isSome_iff_exists.1 hsome
  obtain ⟨e, he, hej, -⟩ := find?_init.1 hb
  obtain ⟨⟨e', he', hle, hlt⟩, -⟩ := at?_init.1 hq
  have := host.rangesApart.ordered he' he (by omega)
  omega

/-! ## Runs -/

/-- A call on a range of addresses; one of `Map` on addresses that are reserved and free,
    with physical memory that does not run past the end, if it has any. -/
def Call.Proper (s : AddressSpace) : Call → Prop
  | .map virtualAddr physAddr size _ _ => 0 < size ∧ FreeRange s.regions virtualAddr size ∧
      (physAddr = U64.max ∨ physAddr + size < 2 ^ 64)
  | .unmap virtualAddr size => virtualAddr + size < 2 ^ 64

def Call.Covers (p : Nat) : Call → Prop
  | .map virtualAddr _ size _ _ => virtualAddr ≤ p ∧ p < virtualAddr + size
  | .unmap virtualAddr size => virtualAddr ≤ p ∧ p < virtualAddr + size

instance : DecidablePred (Call.Covers p)
  | .map virtualAddr _ size _ _ => inferInstanceAs (Decidable (virtualAddr ≤ p ∧ p < virtualAddr + size))
  | .unmap virtualAddr size => inferInstanceAs (Decidable (virtualAddr ≤ p ∧ p < virtualAddr + size))

/-- The calls of a run, the last one first, each made where `C` allows it. -/
inductive Run (host : Reservation) (useLegacy : Bool) (C : AddressSpace → Call → Prop) :
    List Call → AddressSpace → Prop where
  | nil : Run host useLegacy C [] (init host useLegacy)
  | cons {calls : List Call} {s s' : AddressSpace} {call : Call}
      (run : Run host useLegacy C calls s) (proper : call.Proper s) (allowed : C s call)
      (step : s.step call = .ok s') : Run host useLegacy C (call :: calls) s'

/-- What the last call that covers an address says about it. -/
def lastByte (p : Nat) : Option Call → RegionByte
  | some (.map virtualAddr physAddr _ prot fd) => mappedByte physAddr prot fd (p - virtualAddr)
  | _ => .unmapped

/-- The table after the calls: every address as the last call that covers it left it. -/
structure Follows (host : Reservation) (calls : List Call) (m : RegionMap) : Prop where
  wf : m.WF
  noSeam : ∀ j, ¬Seam m j
  bytes : ∀ p x, m.at? p = some x ↔
    host.Reserved p ∧ x = lastByte p (calls.find? fun call => call.Covers p)

theorem follows_init : Follows host [] (init host useLegacy).regions :=
  ⟨wf_init, noSeam_init, fun _ _ => at?_init⟩

theorem Follows.mapped {m m' : RegionMap} {calls : List Call} {va size phys prot : Nat} {fd : Int}
    (h : Follows host calls m) (hfree : FreeRange m va size)
    (hm : Mapped m m' va size phys prot fd) :
    Follows host (.map va phys size prot fd :: calls) m' := by
  refine ⟨hm.wf, hm.noSeam, fun p x => ?_⟩
  rw [hm.bytes, List.find?_cons]
  by_cases hp : va ≤ p ∧ p < va + size
  · have hres := ((h.bytes p _).1 (hfree p hp.1 hp.2)).1
    simp [Call.Covers, hp, lastByte, hres, eq_comm]
  · simp [Call.Covers, hp, h.bytes]

theorem Follows.freed {m m₁ m' : RegionMap} {calls : List Call} {va size : Nat}
    (h : Follows host calls m) (hf : Freed m m₁ va size)
    (hr : m₁.coalesceFreeRegions va = .ok m') : Follows host (.unmap va size :: calls) m' := by
  obtain ⟨hwf, hat, hseam⟩ := hf.coalesced h.noSeam hr
  refine ⟨hwf, hseam, fun p x => ?_⟩
  rw [hat, hf.bytes, List.find?_cons]
  by_cases hp : va ≤ p ∧ p < va + size
  · obtain ⟨y, hy⟩ := Option.isSome_iff_exists.1 (hf.inside p hp.1 hp.2)
    have hres := ((h.bytes p _).1 hy).1
    simp [Call.Covers, hp, lastByte, hres, eq_comm]
  · simp [Call.Covers, hp, h.bytes]

/-- Every call leaves the table as the calls so far say. On Windows 7 no call may cut an
    anonymous region. -/
theorem Run.follows {C : AddressSpace → Call → Prop} {calls : List Call}
    (h : Run host useLegacy C calls s)
    (hC : useLegacy → ∀ s va size, C s (.unmap va size) →
      Uncut s.regions va ∧ Uncut s.regions (va + size)) :
    Follows host calls s.regions ∧ s.useLegacy = useLegacy := by
  induction h with
  | nil => exact ⟨follows_init, rfl⟩
  | @cons calls s s' call _ hproper hallowed hstep ih =>
    obtain ⟨hf, hlegacy⟩ := ih
    cases call with
    | map va phys size prot fd =>
      obtain ⟨hpos, hfree, hphys⟩ := hproper
      obtain ⟨m₁, t, hmapped, -, -, -, heq⟩ :=
        map_of_freeRange phys prot fd hf.wf hf.noSeam hfree hpos
      have hregions : s'.regions = m₁.insert va (marked t phys prot fd) ∧
          s'.useLegacy = s.useLegacy := by
        rw [step, heq] at hstep
        simp only at hstep
        split at hstep
        · simp only [bind_eq_ok, pure_eq_ok] at hstep
          obtain ⟨views, -, rfl⟩ := hstep
          exact ⟨rfl, rfl⟩
        rw [pure_eq_ok] at hstep
        subst hstep
        exact ⟨rfl, rfl⟩
      exact ⟨hregions.1 ▸ hf.mapped hfree (hmapped hphys), hregions.2.trans hlegacy⟩
    | unmap va size =>
      simp only [step, unmap, bind_eq_ok, pure_eq_ok] at hstep
      obtain ⟨s₁, hloop, m', hcoalesce, rfl⟩ := hstep
      obtain ⟨hfreed, hlegacy₁⟩ := unmapLoop_eq_ok hf.wf hproper
        (fun hl => hC (hlegacy ▸ hl) s va size hallowed) hloop
      exact ⟨hf.freed hfreed hcoalesce, hlegacy₁.trans hlegacy⟩

/-- The host region table after some calls, the last one first. -/
structure HostTable (host : Reservation) (calls : List Call) (s : AddressSpace) : Prop where
  base : ∀ k r, s.regions.find? k = some r → r.base = k ∧ 0 < r.size
  disjoint : ∀ j a k b, s.regions.find? j = some a → s.regions.find? k = some b → j < k →
    j + a.size ≤ k
  covers : ∀ p, host.Reserved p ↔ ∃ k r, s.regions.find? k = some r ∧ k ≤ p ∧ p < k + r.size
  isMapped : ∀ k r p, s.regions.find? k = some r → k ≤ p → p < k + r.size →
    (r.isMapped ↔ ∃ va phys size prot fd,
      calls.find? (fun call => call.Covers p) = some (.map va phys size prot fd))
  physBase : ∀ k r p va phys size prot fd, s.regions.find? k = some r → k ≤ p → p < k + r.size →
    calls.find? (fun call => call.Covers p) = some (.map va phys size prot fd) →
    r.physBase + (p - k) = phys + (p - va) ∧ r.prot = prot ∧ r.fd = fd
  noTwoFree : ∀ k r j r', s.regions.find? k = some r → s.regions.find? j = some r' →
    k + r.size = j → r.isMapped ∨ r'.isMapped
  fits : ∀ va phys size prot fd, 0 < size →
    (∀ p, va ≤ p → p < va + size → ∃ k r, s.regions.find? k = some r ∧ k ≤ p ∧ p < k + r.size ∧
      r.isMapped = false) → ∃ s', s.map va phys size prot fd = .ok s'

/-- A mapping with physical memory behind it. -/
def Call.Backed (_ : AddressSpace) : Call → Prop
  | .map _ physAddr _ _ _ => physAddr ≠ U64.max
  | .unmap _ _ => True

theorem Run.phys_lt {calls : List Call} (h : Run host useLegacy Call.Backed calls s)
    {va phys size prot : Nat} {fd : Int} (hmem : .map va phys size prot fd ∈ calls) :
    phys + size < 2 ^ 64 := by
  induction h with
  | nil => cases hmem
  | cons _ hproper hallowed _ ih =>
    rcases List.mem_cons.1 hmem with rfl | hmem
    · exact hproper.2.2.resolve_left hallowed
    · exact ih hmem

/-- After any calls of `Map` on free ranges, with physical memory behind them, and of
    `Unmap`, the table tiles the reserved ranges, each address is as the last call that
    covers it left it, no two free regions touch, and a free range can be mapped. -/
theorem hostTable_of_run {calls : List Call} (h : Run host false Call.Backed calls s) :
    HostTable host calls s := by
  obtain ⟨hf, hmodern⟩ := h.follows (fun hl => by cases hl)
  have hread : ∀ {k r p}, s.regions.find? k = some r → k ≤ p → p < k + r.size →
      s.regions.at? p = some (r.byte (p - k)) := fun hk hle hlt =>
    at?_of_find? hf.wf.separated hk hle hlt
  have hlast : ∀ {k r p}, s.regions.find? k = some r → k ≤ p → p < k + r.size →
      r.byte (p - k) = lastByte p (calls.find? fun call => call.Covers p) :=
    fun hk hle hlt => ((hf.bytes _ _).1 (hread hk hle hlt)).2
  refine ⟨fun k r hk => ⟨hf.wf.key k r hk, hf.wf.pos k r hk⟩, hf.wf.separated, ?_, ?_, ?_, ?_, ?_⟩
  · intro p
    constructor
    · intro hp
      obtain ⟨k, r, hk, hle, hlt, -⟩ := exists_of_at? ((hf.bytes p _).2 ⟨hp, rfl⟩)
      exact ⟨k, r, hk, hle, hlt⟩
    · rintro ⟨k, r, hk, hle, hlt⟩
      exact ((hf.bytes p _).1 (hread hk hle hlt)).1
  · intro k r p hk hle hlt
    have hbyte := hlast hk hle hlt
    rw [← not_iff_not, Bool.not_eq_true, ← byte_eq_unmapped (o := p - k), hbyte]
    cases hcall : calls.find? fun call => call.Covers p with
    | none => simp [lastByte]
    | some call =>
      cases call with
      | map va phys size prot fd => simp [lastByte, mappedByte]
      | unmap va size => simp [lastByte]
  · intro k r p va phys size prot fd hk hle hlt hcall
    have hbyte := hlast hk hle hlt
    have hcovers : Call.Covers p (.map va phys size prot fd) := by
      simpa using List.find?_some hcall
    have hphys := h.phys_lt (List.mem_of_find?_eq_some hcall)
    rw [hcall, lastByte, mappedByte, byte] at hbyte
    split at hbyte
    · rename_i hm
      have hmax : phys ≠ U64.max := by
        simp only [U64.max]
        have := hcovers.1
        have := hcovers.2
        omega
      rw [if_neg hmax] at hbyte
      split at hbyte
      · cases hbyte
      · rename_i hrmax
        have hbound := (hf.wf.bounded k r hk hm).resolve_left hrmax
        simp only [RegionByte.mapped.injEq, Option.some.injEq] at hbyte
        have := hcovers.1
        have := hcovers.2
        rw [U64.add_of_lt (by omega), U64.add_of_lt (by omega)] at hbyte
        exact hbyte
    · cases hbyte
  · intro k r j r' hk hj hend
    by_contra hno
    simp only [not_or, Bool.not_eq_true] at hno
    exact hf.noSeam j ((hf.wf.seam_iff hj).2 ⟨hno.2, k, r, hk, hno.1, hend⟩)
  · intro va phys size prot fd hpos hfree
    have hrange : FreeRange s.regions va size := by
      intro p hle hlt
      obtain ⟨k, r, hk, hkp, hpk, hrfree⟩ := hfree p hle hlt
      rw [hread hk hkp hpk, byte_eq_unmapped.2 hrfree]
    obtain ⟨m₁, t, -, -, -, -, heq⟩ := map_of_freeRange phys prot fd hf.wf hf.noSeam hrange hpos
    rw [heq, hmodern]
    exact ⟨_, rfl⟩

/-- A host that reserved 4 MiB. -/
def sampleHost : Reservation where
  ranges := [(0x400000, 0x800000)]
  nonempty := by decide
  apart := by decide
  aligned := by decide

theorem freeRange_init {va size : Nat} (h : ∀ p, va ≤ p → p < va + size → host.Reserved p) :
    FreeRange (init host useLegacy).regions va size :=
  fun p hle hlt => at?_init.2 ⟨h p hle hlt, rfl⟩

/-- The first half of a mapping is unmapped, together with what lies before it. -/
theorem hostTable_of_partial_unmap :
    ∃ s, Run sampleHost false Call.Backed
        [.unmap 0x40C000 0x8000, .map 0x410000 0x10000 0x8000 PAGE_READONLY (-1)] s ∧
      s.regions.entries.length = 3 ∧
      HostTable sampleHost
        [.unmap 0x40C000 0x8000, .map 0x410000 0x10000 0x8000 PAGE_READONLY (-1)] s := by
  have hrun : (match (init sampleHost false).step
        (.map 0x410000 0x10000 0x8000 PAGE_READONLY (-1)) with
      | .ok s => (match s.step (.unmap 0x40C000 0x8000) with
        | .ok s' => decide (s'.regions.entries.length = 3)
        | .error _ => false)
      | .error _ => false) = true := by with_unfolding_all decide
  split at hrun
  · rename_i s₁ h₁
    split at hrun
    · rename_i s₂ h₂
      have hmap : Call.Proper (init sampleHost false)
          (.map 0x410000 0x10000 0x8000 PAGE_READONLY (-1)) :=
        ⟨by decide, freeRange_init fun p hle hlt => ⟨_, List.mem_singleton.2 rfl, by omega, by omega⟩,
          .inr (by decide)⟩
      have hunmap : Call.Proper s₁ (.unmap 0x40C000 0x8000) :=
        (by decide : 0x40C000 + 0x8000 < 2 ^ 64)
      have hr : Run sampleHost false Call.Backed
          [.unmap 0x40C000 0x8000, .map 0x410000 0x10000 0x8000 PAGE_READONLY (-1)] s₂ :=
        .cons (.cons .nil hmap (by decide : (0x10000 : Nat) ≠ U64.max) h₁) hunmap trivial h₂
      exact ⟨s₂, hr, by simpa using hrun, hostTable_of_run hr⟩
    · cases hrun
  · cases hrun

end AddressSpace

end Core
