-- SUMMARY: The label of direct memory and the mappings of it: memory is labelled as mapped when and only when a direct area uses it.
import W7PS4.Memory.PoolAccount

/-!
# Direct memory and its mappings

One label says whether direct memory is mapped, while any number of areas may map it.
Unmapping one of them takes the label back without looking for the others, and
`PoolDecommit` takes direct areas away without giving their memory back. In a run that
unmaps aliases together and decommits pooled memory only, the label is right, and so is
the answer of a `MapMemory` that asks for it.
-/

namespace Core

open Outcome (bind_eq_ok pure_eq_ok)

namespace Memory

variable {m m' : Memory} {U R : Set Nat} {q : Nat}

/-- No memory behind direct bytes of `U` is behind one outside, except in `R`. -/
def Unshared (m : Memory) (U R : Set Nat) : Prop :=
  ∀ p p' q, p ∈ U → p' ∉ U → m.Maps .direct p q → m.Maps .direct p' q → q ∈ R

/-- Outside `R` the memory labelled as mapped is what direct bytes use. -/
structure MirroredOutside (R : Set Nat) (m : Memory) : Prop extends Tracked m where
  mapped : ∀ q, q ∉ R → (m.dma q = some .mapped ↔ ∃ p, m.Maps .direct p q)

/-- A change that leaves what is mapped, and where, as it is. -/
theorem MirroredOutside.of_iff (h : m.MirroredOutside R) (ht : m'.Tracked)
    (hdma : ∀ q, m'.dma q = some .mapped ↔ m.dma q = some .mapped)
    (hmaps : ∀ p q, m'.Maps .direct p q ↔ m.Maps .direct p q) : m'.MirroredOutside R where
  toTracked := ht
  mapped := by
    intro q hq
    simp only [hdma, hmaps]
    exact h.mapped q hq

theorem MirroredOutside.unmap (h : m.MirroredOutside ∅) (hU : m.Unshared U R) :
    (m.unmap U).MirroredOutside R where
  toTracked := h.toTracked.unmap
  mapped := by
    intro q hq
    simp only [dma_unmap, maps_unmap (t := .direct) (by decide) (by decide)]
    constructor
    · rintro (⟨-, -, habs⟩ | ⟨hno, hmapped⟩)
      · cases habs
      · obtain ⟨p, hpq⟩ := (h.mapped q (Set.notMem_empty q)).1 hmapped
        exact ⟨p, fun hp => hno ⟨p, hp, hpq⟩, hpq⟩
    · rintro ⟨p, hp, hpq⟩
      refine .inr ⟨?_, (h.mapped q (Set.notMem_empty q)).2 ⟨p, hpq⟩⟩
      rintro ⟨p', hp', hpq'⟩
      exact hq (hU p' p q hp' hp hpq' hpq)

/-- Labelling memory that is not mapped with a label other than that. -/
theorem MirroredOutside.relabel {Q : Set Nat} {g : PhysByte → PhysByte} {t : PhysicalMemoryType}
    (h : m.MirroredOutside R) (ht : m'.Tracked) (hg : ∀ b, (g b).dmaType = t) (hne : t ≠ .mapped)
    (hQ : ∀ q ∈ Q, m.dma q ≠ some .mapped) (hvirt : m'.virt = m.virt)
    (hdmem : m'.dmem = updateOn Q g m.dmem) : m'.MirroredOutside R := by
  refine h.of_iff ht ?_ fun p q => maps_congr hvirt
  intro q
  rw [dma_of_updateOn hg hdmem]
  constructor
  · rintro (⟨-, -, habs⟩ | ⟨-, hq⟩)
    · exact absurd habs hne
    · exact hq
  · intro hq
    exact .inr ⟨fun hmem => hQ q hmem hq, hq⟩

/-- A mapping of free virtual memory. A direct one settles the memory it maps. -/
theorem MirroredOutside.mapsArea {a n phys : Nat} {x : VirtByte} (h : m.MirroredOutside R)
    (hR : R ⊆ if x.type = .direct then Set.Ico phys (phys + n) else ∅)
    (hfree : ∀ p ∈ Set.Ico a (a + n), ∃ x, m.virt p = some x ∧ x.type = .free)
    (hused : x.type = .direct → ∀ q ∈ Set.Ico phys (phys + n), m.Used q)
    (hmaps : m.MapsArea a n x phys m') : m'.MirroredOutside ∅ := by
  have houtside : ∀ p q, m.Maps .direct p q → ¬(a ≤ p ∧ p < a + n) := by
    rintro p q ⟨x, b, hx, hxt, -⟩ hp
    obtain ⟨y, hy, hyt⟩ := hfree p (Set.mem_Ico.2 hp)
    rw [hx] at hy
    cases hy
    cases hxt.symm.trans hyt
  have htrack := h.toTracked.mapsArea hused hmaps
  have hnotin : x.type ≠ .direct → ∀ q, q ∉ R := by
    intro hx q hq
    have := hR hq
    rw [if_neg hx] at this
    exact this
  cases hmaps with
  | plain hx =>
    have hne : x.type ≠ .direct := by
      intro heq
      simp [heq, VMAType.hasPhysicalBacking] at hx
    refine ⟨htrack, fun q _ => (h.mapped q (hnotin hne q)).trans (exists_congr fun p => ?_)⟩
    rw [mapPlain, maps_place]
    constructor
    · intro hpq
      exact .inr ⟨houtside p q hpq, hpq⟩
    · rintro (⟨-, ht, -⟩ | ⟨-, hpq⟩)
      · exact absurd ht hne
      · exact hpq
  | flexible hx =>
    have hne : x.type ≠ .direct := by simp [hx]
    refine ⟨htrack, fun q _ => (h.mapped q (hnotin hne q)).trans (exists_congr fun p => ?_)⟩
    rw [maps_mapFlexible]
    constructor
    · intro hpq
      exact .inr ⟨houtside p q hpq, hpq⟩
    · rintro (⟨-, ht, -⟩ | ⟨-, hpq⟩)
      · exact absurd ht hne
      · exact hpq
  | direct hx hphys =>
    rw [if_pos hx] at hR
    refine ⟨htrack, fun q _ => ?_⟩
    rw [dma_mapDirect]
    constructor
    · rintro (⟨hq, -⟩ | ⟨hno, hmapped⟩)
      · rw [Set.mem_Ico] at hq
        exact ⟨a + (q - phys), (maps_mapDirect hphys).2 (.inl ⟨by omega, hx, by omega⟩)⟩
      · obtain ⟨p, hpq⟩ := (h.mapped q fun hq => hno (hR hq)).1 hmapped
        exact ⟨p, (maps_mapDirect hphys).2 (.inr ⟨houtside p q hpq, hpq⟩)⟩
    · rintro ⟨p, hpq⟩
      by_cases hq : q ∈ Set.Ico phys (phys + n)
      · exact .inl ⟨hq, (hused hx q hq).isSome, rfl⟩
      rcases (maps_mapDirect hphys).1 hpq with ⟨hp, -, rfl⟩ | ⟨-, hold⟩
      · exact absurd (Set.mem_Ico.2 ⟨by omega, by omega⟩) hq
      · exact .inr ⟨hq, (h.mapped q fun hqR => hq (hR hqR)).2 ⟨p, hold⟩⟩

theorem MirroredOutside.commit {a n : Nat} {x : VirtByte} {y : Nat → PhysByte} {mt : Int}
    (h : m.MirroredOutside ∅) (ht : (m.commit a n x y mt).Tracked) (hx : x.type = .pooled)
    (hreserved : ∀ p ∈ Set.Ico a (a + n), ∃ z, m.virt p = some z ∧ z.type = .poolReserved)
    (htaken : ∀ o, o < n → m.dma (y o).addr = some .pooled) :
    (m.commit a n x y mt).MirroredOutside ∅ := by
  refine h.of_iff ht ?_ ?_
  · intro q
    rw [dma_commit]
    constructor
    · rintro (⟨-, -, habs⟩ | ⟨-, hq⟩)
      · cases habs
      · exact hq
    · intro hq
      refine .inr ⟨?_, hq⟩
      rintro ⟨o, ho, rfl⟩
      cases (htaken o ho).symm.trans hq
  · intro p q
    rw [maps_commit]
    constructor
    · rintro (⟨-, htype, -⟩ | ⟨-, hpq⟩)
      · cases hx.symm.trans htype
      · exact hpq
    · rintro hpq
      refine .inr ⟨fun hp => ?_, hpq⟩
      obtain ⟨z, b, hz, hzt, -⟩ := hpq
      obtain ⟨z', hz', hzt'⟩ := hreserved p (Set.mem_Ico.2 hp)
      rw [hz] at hz'
      cases hz'
      cases hzt.symm.trans hzt'

theorem MirroredOutside.decommit (h : m.MirroredOutside ∅)
    (hU : ∀ p ∈ U, ∀ x, m.virt p = some x → x.type ≠ .direct) :
    (m.decommit U).MirroredOutside ∅ := by
  refine h.of_iff h.toTracked.decommit ?_ ?_
  · intro q
    rw [dma_decommit]
    constructor
    · rintro (⟨-, -, habs⟩ | ⟨-, hq⟩)
      · cases habs
      · exact hq
    · intro hq
      refine .inr ⟨?_, hq⟩
      rintro ⟨p, -, hpq⟩
      cases (h.pooled p q hpq).symm.trans hq
  · intro p q
    rw [maps_decommit (t := .direct) (by decide)]
    refine ⟨fun hpq => hpq.2, fun hpq => ⟨fun hp => ?_, hpq⟩⟩
    obtain ⟨x, b, hx, hxt, -⟩ := hpq
    exact hU p hp x hx hxt

end Memory

/-- Where a call keeps the labels of direct memory right: what it unmaps is not mapped
    elsewhere as well, unless the call maps it anew, and what it decommits is not direct. -/
def Op.UnmapsWhole (s : MemoryManager) : Op → Prop
  | .unmapMemory virtualAddr size => s.view.Unshared (Set.Ico (alignDown virtualAddr.toNat 0x4000)
      (alignDown virtualAddr.toNat 0x4000 + alignUp size.toNat 0x4000)) ∅
  | .mapMemory virtualAddr size _ flags type _ _ physAddr _ =>
    s.view.Unshared (MemoryManager.overwritten flags virtualAddr.toNat size.toNat)
      (if type = .direct then Set.Ico physAddr.toNat (physAddr.toNat + size.toNat) else ∅)
  | .mapFile virtualAddr size _ flags _ _ =>
    s.view.Unshared (MemoryManager.overwritten flags virtualAddr.toNat size.toNat) ∅
  | .free physAddr size _ => physAddr.toNat + size.toNat < 2 ^ 64 ∧
      s.view.Unshared (s.freeUnmaps physAddr.toNat size.toNat) ∅
  | .poolDecommit virtualAddr size =>
    ∀ v, s.EndsInside (virtualAddr.toNat + size.toNat) v → v.type ≠ .direct
  | _ => True

namespace MemoryManager

variable {env : Environment} {s s' : MemoryManager}

theorem Maps.mirrored {W R : Set Nat} {a n phys : Nat} {x : VirtByte}
    (h : Maps env W a n x phys s s') (hm : s.view.MirroredOutside ∅) (hW : s.view.Unshared W R)
    (hR : R ⊆ if x.type = .direct then Set.Ico phys (phys + n) else ∅) :
    s'.view.MirroredOutside ∅ := by
  obtain ⟨s₁, hu, hfree, hmaps⟩ := h.result
  have hm₁ : s₁.view.MirroredOutside R := hu.view ▸ hm.unmap hW
  refine hm₁.mapsArea hR hfree (fun hx q hq => ?_) hmaps
  rw [hu.view]
  exact (h.used_dma hx q hq).unmap

theorem Effect.mirrored {op : Op} {r : Reply} (h : Effect env s s' op r)
    (hm : s.view.MirroredOutside ∅) (hrel : op.ReleasesUnused s) (hexp : op.ExpandsFree)
    (hwhole : op.UnmapsWhole s) : s'.view.MirroredOutside ∅ := by
  have htrack := h.tracked hm.toTracked hrel hexp
  cases h with
  | retouched same =>
    exact hm.of_iff htrack (fun q => by rw [same.dma_eq]) fun p q => same.maps_iff
  | @shrunk _ _ _ _ R free view =>
    rw [view] at htrack ⊢
    refine hm.of_iff htrack (fun q => ⟨fun hq => (Memory.dma_shrink.1 hq).2, fun hq => ?_⟩)
      fun p q => Memory.maps_congr rfl
    refine Memory.dma_shrink.2 ⟨fun hR => ?_, hq⟩
    obtain ⟨b, hqb, ht⟩ := Memory.dma_eq_some.1 hq
    rw [free q hR b hqb] at ht
    cases ht
  | expanded _ free view =>
    rw [view] at htrack ⊢
    refine hm.relabel htrack (PhysByte.labelled_dmaType 3 .pooled) (by decide)
      (fun q hq hmapped => ?_) rfl rfl
    cases (Memory.dma_eq_some.2 (free hexp q hq)).symm.trans hmapped
  | @allocated _ _ _ _ mt _ free view =>
    rw [view] at htrack ⊢
    refine hm.relabel htrack (PhysByte.labelled_dmaType mt .allocated) (by decide)
      (fun q hq hmapped => ?_) rfl rfl
    cases (Memory.dma_eq_some.2 (free q hq)).symm.trans hmapped
  | @freed _ _ checked _ U Q held _ unmaps view =>
    rw [view] at htrack ⊢
    -- what is unmapped first is mapped nowhere else, so what is freed then is not mapped
    obtain ⟨hnowrap, hunshared⟩ := hwhole
    rw [← unmaps hnowrap] at hunshared
    have hm₁ := hm.unmap hunshared
    refine hm₁.relabel htrack (PhysByte.labelled_dmaType 0 .free) (by decide)
      (fun q hq hmapped => ?_) rfl rfl
    obtain ⟨p, hpq⟩ := (hm₁.mapped q (Set.notMem_empty q)).1 hmapped
    exact not_refers_released (hrel : Op.ReleasesUnused s (.free _ _ checked)) unmaps
      (held hq) (.inl hpq)
  | committed commits =>
    rw [commits.view] at htrack ⊢
    exact hm.commit htrack commits.type commits.reserved commits.pooled_dma
  | decommitted part decommits =>
    rw [decommits.view]
    refine hm.decommit fun p hp x hx hxt => ?_
    rcases part p hp x hx with h | h | ⟨v, hv, hvt⟩
    · cases h.symm.trans hxt
    · cases h.symm.trans hxt
    · exact hwhole v hv (hvt.trans hxt)
  | mapped maps => exact maps.mirrored hm hwhole Set.Subset.rfl
  | mappedFile maps => exact maps.mirrored hm hwhole (by simp)
  | unmapped unmaps =>
    rw [unmaps.view]
    exact hm.unmap hwhole
  | retyped view =>
    rw [view] at htrack ⊢
    exact hm.of_iff htrack (fun q => by rw [Memory.dma_setType]) fun p q => Memory.maps_setType

/-! ## Asking for memory that is mapped -/

variable {flags : MemoryMapFlags} {name : String} {prot : MemoryProt} {type : VMAType} {validateDmem : Bool}

theorem chooseAddress_ne_busy {addr size alignment : Nat} :
    chooseAddress env s addr size flags alignment ≠ .ok (.error .EBUSY) := by
  intro hr
  simp only [chooseAddress] at hr
  split at hr
  · simp only [VMAMap.findVMA, bind_eq_ok] at hr
    obtain ⟨valid, -, hr⟩ := hr
    split at hr
    · simp [pure_eq_ok] at hr
    simp only [bind_eq_ok, deref_eq_ok] at hr
    obtain ⟨_, -, hr⟩ := hr
    split at hr <;> simp [pure_eq_ok] at hr
  · split at hr
    · simp only [bind_eq_ok] at hr
      obtain ⟨_, -, hr⟩ := hr
      split at hr <;> simp [pure_eq_ok] at hr
    · simp [pure_eq_ok] at hr

/-- The checks `MapMemory` makes before it looks at the requested memory. -/
def PassesEarlierChecks (env : Environment) (s : MemoryManager) (virtualAddr size : Nat)
    (flags : MemoryMapFlags) (type : VMAType) (physAddr : Nat) : Prop :=
  ¬(env.isLegacyBackend ∧ type = .direct ∧
    (physAddr % 0x10000 ≠ 0 ∨ flags.has .fixed ∧ virtualAddr % 0x10000 ≠ 0)) ∧
  (type = .flexible → U64.add s.flexibleUsage size ≤ s.totalFlexibleSize) ∧
  U64.add physAddr size ≤ s.totalDirectSize

theorem checkPhysRange_eq_some_busy {size phys : Nat}
    (hr : s.checkPhysRange size validateDmem phys = .ok (some .EBUSY)) :
    phys ≠ U64.max ∧ U64.add phys size ≤ s.totalDirectSize := by
  simp only [checkPhysRange] at hr
  split at hr
  · cases hr
  next hne =>
  split at hr
  · cases hr
  next hfits => exact ⟨hne, Nat.not_lt.1 hfits⟩

/-- What the check of the requested memory finds is what the call ends with. -/
theorem mapMemory_of_checkPhysRange {virtualAddr size phys alignment : Nat}
    {e : OrbisError} (halign : ¬(env.isLegacyBackend ∧ type = .direct ∧
      (phys % 0x10000 ≠ 0 ∨ flags.has .fixed ∧ virtualAddr % 0x10000 ≠ 0)))
    (hbudget : type = .flexible → U64.add s.flexibleUsage size ≤ s.totalFlexibleSize)
    (hcheck : s.checkPhysRange size validateDmem phys = .ok (some e)) :
    s.mapMemory env virtualAddr size prot flags type name validateDmem phys alignment =
      .ok (s, .error e) := by
  have hfirst : ¬((env.isLegacyBackend && type = .direct) && phys ≠ U64.max &&
      phys % 0x10000 ≠ 0) = true := by
    simp only [Bool.and_eq_true, decide_eq_true_eq]
    rintro ⟨⟨⟨hlegacy, htype⟩, -⟩, hmod⟩
    exact halign ⟨hlegacy, htype, .inl hmod⟩
  have hsecond : ¬((env.isLegacyBackend && type = .direct) && flags.has .fixed &&
      virtualAddr % 0x10000 ≠ 0) = true := by
    simp only [Bool.and_eq_true, decide_eq_true_eq]
    rintro ⟨⟨⟨hlegacy, htype⟩, hfixed⟩, hmod⟩
    exact halign ⟨hlegacy, htype, .inr ⟨hfixed, hmod⟩⟩
  have hthird : ¬(type = .flexible && U64.add s.flexibleUsage size > s.totalFlexibleSize) =
      true := by
    simp only [Bool.and_eq_true, decide_eq_true_eq, not_and, Nat.not_lt]
    exact hbudget
  simp only [mapMemory, mapMemoryChecks, if_neg hfirst, if_neg hsecond, if_neg hthird, hcheck]
  rfl

/-- Only the validation of the requested memory answers so, and the others have passed then. -/
theorem mapMemory_eq_busy {virtualAddr size phys alignment : Nat} :
    (∃ s', s.mapMemory env virtualAddr size prot flags type name validateDmem phys alignment =
        .ok (s', .error .EBUSY)) ↔
      PassesEarlierChecks env s virtualAddr size flags type phys ∧
        s.checkPhysRange size validateDmem phys = .ok (some .EBUSY) := by
  constructor
  · rintro ⟨s', hr⟩
    simp only [mapMemory, bind_eq_ok] at hr
    obtain ⟨checked, hchecks, hr⟩ := hr
    cases checked with
    | ok a =>
      simp only [bind_eq_ok, pure_eq_ok, Prod.mk.injEq] at hr
      obtain ⟨_, -, -, habs⟩ := hr
      cases habs
    | error e =>
      simp only [pure_eq_ok, Prod.mk.injEq, Except.error.injEq] at hr
      obtain ⟨-, rfl⟩ := hr
      simp only [mapMemoryChecks] at hchecks
      split at hchecks
      · simp [pure_eq_ok] at hchecks
      next hphys =>
      split at hchecks
      · simp [pure_eq_ok] at hchecks
      next hvirt =>
      split at hchecks
      · simp [pure_eq_ok] at hchecks
      next hbudget =>
      simp only [bind_eq_ok] at hchecks
      obtain ⟨found, hcheck, hchecks⟩ := hchecks
      cases found with
      | none => exact absurd hchecks chooseAddress_ne_busy
      | some e =>
        simp only [pure_eq_ok, Except.error.injEq] at hchecks
        subst hchecks
        -- only this check answers so
        obtain ⟨hne, hfits⟩ := checkPhysRange_eq_some_busy hcheck
        simp only [Bool.and_eq_true, decide_eq_true_eq, not_and, not_not, Nat.not_lt] at hphys hvirt hbudget
        refine ⟨⟨?_, hbudget, hfits⟩, hcheck⟩
        rintro ⟨hlegacy, htype, hbad | ⟨hfixed, hbad⟩⟩
        · exact hbad (hphys ⟨⟨hlegacy, htype⟩, hne⟩)
        · exact hbad (hvirt ⟨⟨hlegacy, htype⟩, hfixed⟩)
  · rintro ⟨⟨halign, hbudget, -⟩, hcheck⟩
    exact ⟨s, mapMemory_of_checkPhysRange halign hbudget hcheck⟩

/-- A direct area maps memory of the range. -/
def MeetsMapping (s : MemoryManager) (phys size : Nat) : Prop :=
  ∃ q ∈ Set.Ico phys (phys + size), ∃ p, s.BackedAt .direct p q

/-- What the range has that is neither allocated nor mapped lies above the first byte of it that
    a direct area maps: the validation, which goes up the range, comes to that one first. -/
def MappingFirst (s : MemoryManager) (phys size : Nat) : Prop :=
  ∀ q' ∈ Set.Ico phys (phys + size), ¬s.view.Used q' →
    ∃ q ∈ Set.Ico phys (phys + size), q < q' ∧ ∃ p, s.BackedAt .direct p q

/-- The area `FindDmemArea` returns for an address of direct memory holds it. -/
theorem floor?_of_dmem (h : s.Valid env) {phys : Nat} (hsome : (s.view.dmem phys).isSome) :
    ∃ k a, s.dmemMap.floor? phys = some (k, a) ∧ k ≤ phys ∧ phys < k + a.size := by
  obtain ⟨b, hb⟩ := Option.isSome_iff_exists.1 hsome
  obtain ⟨k, a, hk, hle, hlt, -⟩ := StdMap.exists_of_at? hb
  exact ⟨k, a, StdMap.floor?_of_mem h.dmem.separated hk hle hlt, hle, hlt⟩

theorem used_iff_of_area (h : s.Valid env) {j q : Nat} {d : PhysicalMemoryArea}
    (hj : s.dmemMap.find? j = some d) (hle : j ≤ q) (hlt : q < j + d.size) :
    s.view.dma q = some d.dmaType := by
  rw [Memory.dma_eq_some]
  exact ⟨_, StdMap.at?_of_find? h.dmem.separated hj hle hlt, rfl⟩

/-- An area the check looks at has a byte of the range. -/
theorem lt_end_of_startingAt (h : s.Valid env) {phys size k : Nat} {a : PhysicalMemoryArea}
    (hsome : ∀ q ∈ Set.Ico phys (phys + size), (s.view.dmem q).isSome)
    (hfloor : s.dmemMap.floor? phys = some (k, a)) (hin : phys < k + a.size)
    {e : Nat × PhysicalMemoryArea} (he : e ∈ s.dmemMap.startingAt k) (hlt : e.1 < phys + size) :
    max phys e.1 < e.1 + e.2.size := by
  obtain ⟨hk, hle, hmax⟩ := StdMap.floor?_eq_some.1 hfloor
  obtain ⟨hfind, hke⟩ := StdMap.mem_startingAt_iff.1 he
  simp only at hk hle hmax
  by_cases hphys : e.1 ≤ phys
  · obtain rfl : e.1 = k := by
      have := hmax e.1 e.2 hfind hphys
      omega
    rw [hk, Option.some.injEq] at hfind
    rw [← hfind]
    omega
  · -- its first byte is in the range, so the area is not empty
    obtain ⟨b, hb⟩ := Option.isSome_iff_exists.1 (hsome e.1 (Set.mem_Ico.2 ⟨by omega, hlt⟩))
    obtain ⟨j, c, hj, hjle, hjlt, -⟩ := StdMap.exists_of_at? hb
    have hje : j = e.1 := by
      by_contra hne
      have := h.dmem.separated j c e.1 e.2 hj hfind (by omega)
      omega
    subst hje
    rw [hfind, Option.some.injEq] at hj
    subst hj
    simp only [PhysicalMemoryArea.area_size] at hjlt
    omega

/-- The validating check is the one over the areas. -/
theorem checkPhysRange_eq_some_iff {phys size k : Nat} {a : PhysicalMemoryArea} {e : OrbisError}
    (hend : phys + size < 2 ^ 64) (hpos : 0 < size) (hfits : U64.add phys size ≤ s.totalDirectSize)
    (hfloor : s.dmemMap.floor? phys = some (k, a)) :
    s.checkPhysRange size validateDmem phys = .ok (some e) ↔
      checkDmemAreas validateDmem (phys + size) (s.dmemMap.startingAt k) = some e := by
  have hne : phys ≠ U64.max := by
    simp only [U64.max]
    omega
  have hadd := U64.add_of_lt hend
  rw [hadd] at hfits
  simp only [checkPhysRange, if_neg hne, hadd, if_neg (Nat.not_lt.2 hfits), hfloor,
    bind_eq_ok, deref_eq_ok, Option.some.injEq, exists_eq_left', pure_eq_ok]

/-- The validating check over a range of direct memory, byte by byte. -/
theorem checkPhysRange_eq_busy_iff (h : s.Valid env) {phys size : Nat} (hpos : 0 < size)
    (hsome : ∀ q ∈ Set.Ico phys (phys + size), (s.view.dmem q).isSome)
    (hfits : U64.add phys size ≤ s.totalDirectSize) :
    s.checkPhysRange size true phys = .ok (some .EBUSY) ↔ ∃ q ∈ Set.Ico phys (phys + size),
      s.view.dma q = some .mapped ∧ ∀ q' ∈ Set.Ico phys (phys + size), q' < q → s.view.Used q' := by
  obtain ⟨k, a, hfloor, hkle, hklt⟩ := floor?_of_dmem h (hsome phys (Set.mem_Ico.2 ⟨le_rfl, by omega⟩))
  have hend : phys + size < 2 ^ 64 := by
    obtain ⟨b, hb⟩ := Option.isSome_iff_exists.1
      (hsome (phys + size - 1) (Set.mem_Ico.2 ⟨by omega, by omega⟩))
    have := Valid.dmem_lt h.dmem hb
    have := directExtent_hi_lt env
    simp only [directExtent] at this
    omega
  -- the label of an area is that of its first byte in the range
  have hlabel : ∀ e ∈ s.dmemMap.startingAt k, e.2.base < phys + size →
      max phys e.1 ∈ Set.Ico phys (phys + size) ∧ s.view.dma (max phys e.1) = some e.2.dmaType ∧
        e.2.base = e.1 := by
    intro e he hlt
    obtain ⟨hfind, -⟩ := StdMap.mem_startingAt_iff.1 he
    have hbase := h.dmem.key _ _ hfind
    rw [hbase] at hlt
    exact ⟨Set.mem_Ico.2 ⟨by omega, by omega⟩, used_iff_of_area h hfind (Nat.le_max_right phys e.1)
      (lt_end_of_startingAt h hsome hfloor hklt he hlt), hbase⟩
  rw [checkPhysRange_eq_some_iff hend hpos hfits hfloor,
    checkDmemAreas_eq_busy (pairwise_base_startingAt h.dmem)]
  constructor
  · rintro ⟨e, he, hlt, hmapped, hearlier⟩
    obtain ⟨hin, hdma, hbase⟩ := hlabel e he hlt
    rw [hmapped] at hdma
    refine ⟨max phys e.1, hin, hdma, fun q' hq' hlt' => ?_⟩
    obtain ⟨b', hb'⟩ := Option.isSome_iff_exists.1 (hsome q' hq')
    rw [Set.mem_Ico] at hq'
    obtain ⟨e', he', hle', hlt'', htype⟩ := exists_startingAt_of_at? h.dmem hfloor hq'.1 hb'
    have hused := hearlier e' he' (by omega)
    rw [htype] at hused
    exact hused.imp (fun h => Memory.dma_eq_some.2 ⟨b', hb', h⟩)
      fun h => Memory.dma_eq_some.2 ⟨b', hb', h⟩
  · rintro ⟨q, hq, hdma, hearlier⟩
    obtain ⟨b, hb, hmapped⟩ := Memory.dma_eq_some.1 hdma
    rw [Set.mem_Ico] at hq
    obtain ⟨e, he, hle, hlt, htype⟩ := exists_startingAt_of_at? h.dmem hfloor hq.1 hb
    refine ⟨e, he, by omega, htype.trans hmapped, fun e' he' hlt' => ?_⟩
    obtain ⟨hfind, -⟩ := StdMap.mem_startingAt_iff.1 he
    obtain ⟨hfind', -⟩ := StdMap.mem_startingAt_iff.1 he'
    obtain ⟨hin, hdma', hbase'⟩ := hlabel e' he' (by omega)
    have hbase := h.dmem.key _ _ hfind
    have hsep := h.dmem.separated _ _ _ _ hfind' hfind (by omega)
    have hend' := lt_end_of_startingAt h hsome hfloor hklt he' (by rw [Set.mem_Ico] at hin; omega)
    simp only [PhysicalMemoryArea.area_size] at hsep
    exact (hearlier _ hin (by omega)).imp (fun h => Option.some.inj (hdma'.symm.trans h))
      fun h => Option.some.inj (hdma'.symm.trans h)

theorem mapped_iff_backedAt (h : s.Valid env) (hm : s.view.MirroredOutside ∅) (q : Nat) :
    s.view.dma q = some .mapped ↔ ∃ p, s.BackedAt .direct p q := by
  rw [hm.mapped q (Set.notMem_empty q)]
  exact exists_congr fun p => (h.backedAt_iff rfl).symm

/-- The validating check where the labels are right. -/
theorem checkPhysRange_eq_busy (h : s.Valid env) (hm : s.view.MirroredOutside ∅) {phys size : Nat}
    (hpos : 0 < size) (hsome : ∀ q ∈ Set.Ico phys (phys + size), (s.view.dmem q).isSome)
    (hfits : U64.add phys size ≤ s.totalDirectSize) :
    s.checkPhysRange size true phys = .ok (some .EBUSY) ↔
      s.MeetsMapping phys size ∧ s.MappingFirst phys size := by
  classical
  rw [checkPhysRange_eq_busy_iff h hpos hsome hfits]
  constructor
  · rintro ⟨q, hq, hmapped, hearlier⟩
    have hback := (mapped_iff_backedAt h hm q).1 hmapped
    refine ⟨⟨q, hq, hback⟩, fun q' hq' hnot => ⟨q, hq, ?_, hback⟩⟩
    rcases Nat.lt_trichotomy q' q with hlt | rfl | hgt
    · exact absurd (hearlier q' hq' hlt) hnot
    · exact absurd (.inr hmapped) hnot
    · exact hgt
  · rintro ⟨hmeets, hfirst⟩
    -- the lowest mapped byte has nothing before it that the validation refuses
    have hlow : ∃ q, q ∈ Set.Ico phys (phys + size) ∧ ∃ p, s.BackedAt .direct p q := hmeets
    obtain ⟨hq, hback⟩ := Nat.find_spec hlow
    refine ⟨Nat.find hlow, hq, (mapped_iff_backedAt h hm _).2 hback, fun q' hq' hlt => ?_⟩
    by_contra hnot
    obtain ⟨q, hq, hqq', hback⟩ := hfirst q' hq' hnot
    exact Nat.find_min hlow (Nat.lt_trans hqq' hlt) ⟨hq, hback⟩

/-- Direct memory is labelled as mapped when and only when a direct area uses it. A `MapMemory`
    that validates memory it asks for answers `EBUSY` exactly when a direct area maps part of that,
    unless such a request fails in an earlier check, or the range has memory below the mapping that
    cannot be mapped. -/
structure DirectMirrored (env : Environment) (s : MemoryManager) : Prop where
  mapped : ∀ q, (∃ p, s.BackedAt .direct p q) ↔ ∃ j d, s.dmemMap.find? j = some d ∧
    d.base ≤ q ∧ q < d.base + d.size ∧ d.dmaType = .mapped
  busy : ∀ (virtualAddr size : UInt64) (prot : MemoryProt) (flags : MemoryMapFlags)
    (type : VMAType) (name : String) (physAddr alignment : UInt64), 0 < size.toNat →
    (∀ q ∈ Set.Ico physAddr.toNat (physAddr.toNat + size.toNat), (s.view.dmem q).isSome) →
    (((∃ s', s.step env (.mapMemory virtualAddr size prot flags type name true physAddr
        alignment) = .ok (s', .error .EBUSY)) ↔ s.MeetsMapping physAddr.toNat size.toNat) ↔
      (s.MeetsMapping physAddr.toNat size.toNat →
        PassesEarlierChecks env s virtualAddr.toNat size.toNat flags type physAddr.toNat ∧
          s.MappingFirst physAddr.toNat size.toNat))

theorem step_eq_busy {virtualAddr size physAddr alignment : UInt64} :
    s.step env (.mapMemory virtualAddr size prot flags type name validateDmem physAddr alignment) =
        .ok (s', .error .EBUSY) ↔
      s.mapMemory env virtualAddr.toNat size.toNat prot flags type name validateDmem
        physAddr.toNat alignment.toNat = .ok (s', .error .EBUSY) := by
  simp only [step, bind_eq_ok, pure_eq_ok, Prod.mk.injEq]
  constructor
  · rintro ⟨⟨s₁, r⟩, hr, rfl, hreply⟩
    cases r with
    | ok a => cases hreply
    | error e =>
      cases hreply
      exact hr
  · intro hr
    exact ⟨_, hr, rfl, rfl⟩

theorem directMirrored_of_mirrored (h : s.Valid env) (hm : s.view.MirroredOutside ∅) :
    s.DirectMirrored env where
  mapped := by
    intro q
    simp only [h.backedAt_iff (t := .direct) rfl]
    rw [← hm.mapped q (Set.notMem_empty q), Memory.dma_eq_some]
    constructor
    · rintro ⟨b, hb, hmapped⟩
      obtain ⟨j, d, hj, hle, hlt, rfl⟩ := StdMap.exists_of_at? hb
      have hbase := h.dmem.key j d hj
      exact ⟨j, d, hj, by rw [hbase]; exact hle, by rw [hbase]; exact hlt, hmapped⟩
    · rintro ⟨j, d, hj, hle, hlt, hmapped⟩
      rw [h.dmem.key j d hj] at hle hlt
      exact ⟨_, StdMap.at?_of_find? h.dmem.separated hj hle hlt, hmapped⟩
  busy := by
    intro virtualAddr size prot flags type name physAddr alignment hpos hsome
    have hanswer : (∃ s', s.step env (.mapMemory virtualAddr size prot flags type name true physAddr
        alignment) = .ok (s', .error .EBUSY)) ↔ s.MeetsMapping physAddr.toNat size.toNat ∧
          PassesEarlierChecks env s virtualAddr.toNat size.toNat flags type physAddr.toNat ∧
            s.MappingFirst physAddr.toNat size.toNat := by
      simp only [step_eq_busy]
      rw [mapMemory_eq_busy]
      constructor
      · rintro ⟨hpass, hcheck⟩
        obtain ⟨hmeets, hfirst⟩ := (checkPhysRange_eq_busy h hm hpos hsome hpass.2.2).1 hcheck
        exact ⟨hmeets, hpass, hfirst⟩
      · rintro ⟨hmeets, hpass, hfirst⟩
        exact ⟨hpass, (checkPhysRange_eq_busy h hm hpos hsome hpass.2.2).2 ⟨hmeets, hfirst⟩⟩
    rw [hanswer]
    exact and_iff_left_iff_imp

/-- In a run that unmaps all aliases of direct memory together, the labels of direct
    memory are right in every state. -/
theorem reachable_directMirrored (h : Reachable env
    (fun s op => op.ReleasesUnused s ∧ op.ExpandsFree ∧ op.UnmapsWhole s) s) :
    s.DirectMirrored env := by
  refine directMirrored_of_mirrored h.valid
    (h.invariant (P := Memory.MirroredOutside ∅) ⟨tracked_init, ?_⟩ ?_)
  · intro q _
    constructor
    · intro hq
      obtain ⟨b, hb, ht⟩ := Memory.dma_eq_some.1 hq
      rw [dmem_init hb] at ht
      cases ht
    · rintro ⟨p, hpq⟩
      exact absurd hpq not_maps_init
  · intro s s' op r _ hm hop heff
    exact heff.mirrored hm hop.1 hop.2.1 hop.2.2

/-- Two blocks of direct memory, each mapped once. -/
def mapBlocksCalls : List Op :=
  [.allocate 0 0x100000000 0x20000 0 0,
   .mapMemory 0x200000000 0x10000 .cpuReadWrite 0 .direct "a" true 0 0,
   .mapMemory 0x300000000 0x10000 .cpuReadWrite 0 .direct "b" true 0x10000 0]

theorem reachable_directMirrored_of_run : ∃ s,
    run .retail (init .retail) (mapBlocksCalls ++ [.unmapMemory 0x300000000 0x10000]) = .ok s ∧
      s.pieces .direct = [(0x200000000, 0, 0x10000)] ∧ s.DirectMirrored .retail := by
  have hops : ∀ op ∈ mapBlocksCalls, op.Issued ∧ ∀ s, op.ReleasesUnused s ∧ op.ExpandsFree ∧
      op.UnmapsWhole s := by
    have hnone : ∀ addr size, overwritten 0 addr size = ∅ := fun _ _ => if_neg (by decide)
    intro op hop
    refine ⟨by revert op; decide, fun s => ?_⟩
    simp only [mapBlocksCalls, List.mem_cons, List.not_mem_nil, or_false] at hop
    rcases hop with rfl | rfl | rfl
    · exact ⟨trivial, trivial, trivial⟩
    all_goals
      refine ⟨trivial, trivial, ?_⟩
      rintro p p' q hp
      rw [hnone] at hp
      cases hp
  obtain ⟨s, s', r, hreach, hbefore, hr, hafter, hrun⟩ :=
    exists_last_call (C := fun s op => op.ReleasesUnused s ∧ op.ExpandsFree ∧ op.UnmapsWhole s)
      .retail mapBlocksCalls (.unmapMemory 0x300000000 0x10000)
      (fun s => decide (s.pieces .direct =
        [(0x200000000, 0, 0x10000), (0x300000000, 0x10000, 0x10000)]))
      (fun s => decide (s.pieces .direct = [(0x200000000, 0, 0x10000)]))
      hops (by with_unfolding_all decide)
  have hpieces := of_decide_eq_true hbefore
  refine ⟨s', hrun, of_decide_eq_true hafter,
    reachable_directMirrored (hreach.call hr (by decide) ⟨trivial, trivial, ?_⟩)⟩
  -- what lies behind the second mapping is not behind the first
  intro p p' q hp hp' hpq hpq'
  exfalso
  obtain ⟨x, hx, i, hi, rfl, rfl⟩ := exists_piece hpq
  obtain ⟨y, hy, j, hj, rfl, hij⟩ := exists_piece hpq'
  rw [hpieces] at hx hy
  simp only [List.mem_cons, List.not_mem_nil, or_false] at hx hy
  simp only [Set.mem_Ico, alignDown, alignUp] at hp hp'
  rcases hx with rfl | rfl <;> rcases hy with rfl | rfl <;> simp at hi hj hij hp hp' <;> omega

/-- Unmapping one of two mappings of direct memory takes the label from the other. -/
theorem not_directMirrored_of_alias : ∃ s, run .retail (init .retail) aliasCalls = .ok s ∧
    Reachable .retail anyCall s ∧ ¬s.DirectMirrored .retail := by
  have hrun : (match run .retail (init .retail) aliasCalls with
      | .ok s => decide ((s.dmemMap.at? 0).map PhysByte.dmaType = some .allocated ∧
          ∃ v ∈ s.vmaMap.find? 0x200000000, v.type = .direct ∧
            ∃ e ∈ v.physAreas.find? 0, e.base = 0 ∧ 0 < e.size)
      | .error _ => false) = true := by with_unfolding_all decide
  split at hrun
  · rename_i s hs
    obtain ⟨hlabel, v, hv, ht, e, he, hbase, hsize⟩ := of_decide_eq_true hrun
    have hreach : Reachable .retail anyCall s := by
      refine reachable_of_run .refl hs ?_
      intro op hop
      exact ⟨by revert op; decide, fun _ => trivial⟩
    refine ⟨s, hs, hreach, fun hmirror => ?_⟩
    obtain ⟨j, d, hj, hle, hlt, hmapped⟩ := (hmirror.mapped 0).1
      ⟨_, _, v, _, e, 0, hv, ht, he, hsize, rfl, by omega⟩
    rw [hreach.valid.dmem.key j d hj] at hle hlt
    have hat := StdMap.at?_of_find? hreach.valid.dmem.separated hj hle hlt
    rw [hat, Option.map_some, Option.some.injEq] at hlabel
    cases hmapped.symm.trans hlabel
  · cases hrun

end MemoryManager

end Core
