-- SUMMARY: The account of pooled memory: the budget counts the pooled bytes, and every committed byte is used once.
import W7PS4.Memory.Ownership

/-!
# The account of pooled memory

`pool_budget` is the size of the direct memory labelled as pooled. `PoolExpand`,
`PoolCommit` and `PoolDecommit` change the label and the counter together. `Free` does
not: it releases pooled and committed memory without touching the counter. The account
holds in every run in which it is called for allocated memory only.
-/

namespace Core

namespace Memory

variable {m m' : Memory} {U : Set Nat} {q : Nat}

/-- The direct memory labelled `t`. -/
def labelled (m : Memory) (t : PhysicalMemoryType) : Set Nat := {q | m.dma q = some t}

/-- The budget counts the pooled bytes, and every committed byte is in use. -/
structure PoolBalanced (m : Memory) : Prop extends Tracked m where
  budget_eq : m.budget = (m.labelled .pooled).ncard
  in_use : ∀ q, m.dma q = some .committed → ∃ p, m.Maps .pooled p q

/-- A change that moves no label to or from the pool. -/
theorem PoolBalanced.of_labels (h : m.PoolBalanced) (ht : m'.Tracked) (hbudget : m'.budget = m.budget)
    (hpool : ∀ q, m'.dma q = some .pooled ↔ m.dma q = some .pooled)
    (hcommit : ∀ q, m'.dma q = some .committed → m.dma q = some .committed)
    (hmaps : ∀ p q, m.Maps .pooled p q → m'.Maps .pooled p q) : m'.PoolBalanced where
  toTracked := ht
  budget_eq := by
    have hset : m'.labelled .pooled = m.labelled .pooled := Set.ext hpool
    rw [hbudget, hset, h.budget_eq]
  in_use := by
    intro q hq
    obtain ⟨p, hp⟩ := h.in_use q (hcommit q hq)
    exact ⟨p, hmaps p q hp⟩

/-- Unmapping changes the labels of memory behind direct memory only, which is never in
    the pool. -/
theorem Tracked.dma_unmap_iff (h : m.Tracked) {t : PhysicalMemoryType} (ha : t ≠ .allocated)
    (hm : t ≠ .mapped) : (m.unmap U).dma q = some t ↔ m.dma q = some t := by
  rw [dma_unmap]
  constructor
  · rintro (⟨-, -, habs⟩ | ⟨-, hq⟩)
    · exact absurd habs.symm ha
    · exact hq
  · intro hq
    refine .inr ⟨?_, hq⟩
    rintro ⟨p, -, hpq⟩
    exact (h.direct p q hpq).ne ha hm hq

theorem PoolBalanced.unmap (h : m.PoolBalanced) : (m.unmap U).PoolBalanced :=
  h.of_labels h.toTracked.unmap rfl (fun _ => h.dma_unmap_iff (by decide) (by decide))
    (fun _ => (h.dma_unmap_iff (by decide) (by decide)).1) fun _ _ => maps_unmap_pooled.2

/-- Labelling memory outside the pool with a label that is not the pool's. -/
theorem PoolBalanced.relabelDirect {Q : Set Nat} {mt : Int} {t : PhysicalMemoryType}
    (h : m.PoolBalanced) (htrack : (m.relabelDirect Q (PhysByte.labelled mt t)).Tracked)
    (hp : t ≠ .pooled) (hc : t ≠ .committed) (hQ : ∀ q ∈ Q, m.dma q ≠ some .pooled) :
    (m.relabelDirect Q (PhysByte.labelled mt t)).PoolBalanced := by
  refine h.of_labels htrack rfl ?_ ?_ fun p q hpq => (maps_congr rfl).2 hpq
  · intro q
    rw [dma_relabelDirect]
    constructor
    · rintro (⟨-, -, habs⟩ | ⟨-, hq⟩)
      · exact absurd habs hp
      · exact hq
    · intro hq
      exact .inr ⟨fun hmem => hQ q hmem hq, hq⟩
  · intro q hq
    rcases dma_relabelDirect.1 hq with ⟨-, -, habs⟩ | ⟨-, hq⟩
    · exact absurd habs hc
    · exact hq

/-- A mapping of free virtual memory. -/
theorem PoolBalanced.mapsArea {a n phys : Nat} {x : VirtByte} (h : m.PoolBalanced)
    (hfree : ∀ p ∈ Set.Ico a (a + n), ∃ x, m.virt p = some x ∧ x.type = .free)
    (hused : x.type = .direct → ∀ q ∈ Set.Ico phys (phys + n), m.Used q)
    (hmaps : m.MapsArea a n x phys m') : m'.PoolBalanced := by
  have houtside : ∀ p q, m.Maps .pooled p q → ¬(a ≤ p ∧ p < a + n) := by
    rintro p q ⟨x, b, hx, hxt, -⟩ hp
    obtain ⟨y, hy, hyt⟩ := hfree p (Set.mem_Ico.2 hp)
    rw [hx] at hy
    cases hy
    cases hxt.symm.trans hyt
  have htrack := h.toTracked.mapsArea hused hmaps
  cases hmaps with
  | plain =>
    exact h.of_labels htrack rfl (fun _ => Iff.rfl) (fun _ => id)
      fun p q hpq => maps_place.2 (.inr ⟨houtside p q hpq, hpq⟩)
  | flexible =>
    exact h.of_labels htrack rfl (fun _ => Iff.rfl) (fun _ => id)
      fun p q hpq => maps_mapFlexible.2 (.inr ⟨houtside p q hpq, hpq⟩)
  | direct hx hphys =>
    have hlabel : ∀ t, t ≠ .allocated → t ≠ .mapped → ∀ q,
        ((m.mapDirect a n x phys).dma q = some t ↔ m.dma q = some t) := by
      intro t ha hm q
      rw [dma_mapDirect]
      constructor
      · rintro (⟨-, -, habs⟩ | ⟨-, hq⟩)
        · exact absurd habs.symm hm
        · exact hq
      · intro hq
        exact .inr ⟨fun hmem => (hused hx q hmem).ne ha hm hq, hq⟩
    exact h.of_labels htrack rfl (hlabel _ (by decide) (by decide))
      (fun q => (hlabel _ (by decide) (by decide) q).1)
      fun p q hpq => (maps_mapDirect hphys).2 (.inr ⟨houtside p q hpq, hpq⟩)

theorem PoolBalanced.expand {a n : Nat} (h : m.PoolBalanced) (hfin : (m.labelled .pooled).Finite)
    (hfree : ∀ q ∈ Set.Ico a (a + n), m.dma q = some .free)
    (hlt : m.budget + n < 2 ^ 64)
    (hm' : m' = { m.relabelDirect (Set.Ico a (a + n)) (PhysByte.labelled 3 .pooled) with
      budget := U64.add m.budget n }) : m'.PoolBalanced := by
  have hdma : ∀ q t, m'.dma q = some t ↔ q ∈ Set.Ico a (a + n) ∧ (m.dma q).isSome ∧ .pooled = t ∨
      q ∉ Set.Ico a (a + n) ∧ m.dma q = some t := by
    intro q t
    rw [hm']
    exact dma_relabelDirect
  have hvirt : m'.virt = m.virt := by rw [hm']; rfl
  refine ⟨?_, ?_, ?_⟩
  · refine h.toTracked.relabel (t := .pooled) (PhysByte.labelled_dmaType 3 .pooled)
      (fun q hq p href => h.toTracked.owned p q href (hfree q hq)) hvirt ?_
    rw [hm']
    rfl
  · have hset : m'.labelled .pooled = m.labelled .pooled ∪ Set.Ico a (a + n) := by
      ext q
      simp only [labelled, Set.mem_ofPred_eq, Set.mem_union, hdma]
      constructor
      · rintro (⟨hq, -⟩ | ⟨-, hq⟩)
        · exact .inr hq
        · exact .inl hq
      · rintro (hq | hq)
        · by_cases hmem : q ∈ Set.Ico a (a + n)
          · exact .inl ⟨hmem, by rw [hq]; rfl, trivial⟩
          · exact .inr ⟨hmem, hq⟩
        · exact .inl ⟨hq, by rw [hfree q hq]; rfl, trivial⟩
    have hdisj : Disjoint (m.labelled .pooled) (Set.Ico a (a + n)) := by
      rw [Set.disjoint_left]
      intro q hq hmem
      cases (hfree q hmem).symm.trans hq
    have hbudget : m'.budget = m.budget + n := by
      rw [hm']
      exact U64.add_of_lt hlt
    rw [hbudget, hset, Set.ncard_union_eq hdisj hfin (Set.finite_Ico _ _), StdMap.ncard_Ico_add,
      h.budget_eq]
  · intro q hq
    rcases (hdma q _).1 hq with ⟨-, -, habs⟩ | ⟨-, hq⟩
    · cases habs
    · obtain ⟨p, hp⟩ := h.in_use q hq
      exact ⟨p, (maps_congr hvirt).2 hp⟩

theorem PoolBalanced.commit {a n : Nat} {x : VirtByte} {y : Nat → PhysByte} {mt : Int}
    (h : m.PoolBalanced) (hfin : (m.labelled .pooled).Finite) (hx : x.type = .pooled)
    (hreserved : ∀ p ∈ Set.Ico a (a + n), ∃ z, m.virt p = some z ∧ z.type = .poolReserved)
    (htaken : ∀ o, o < n → m.dma (y o).addr = some .pooled)
    (hinj : ∀ o o', o < n → o' < n → (y o).addr = (y o').addr → o = o') :
    (m.commit a n x y mt).PoolBalanced := by
  have hcard : {q | ∃ o < n, (y o).addr = q}.ncard = n := StdMap.ncard_values hinj
  have hsub : {q | ∃ o < n, (y o).addr = q} ⊆ m.labelled .pooled := by
    rintro q ⟨o, ho, rfl⟩
    exact htaken o ho
  refine ⟨h.toTracked.commit hx htaken hinj, ?_, ?_⟩
  · have hset : (m.commit a n x y mt).labelled .pooled =
        m.labelled .pooled \ {q | ∃ o < n, (y o).addr = q} := by
      ext q
      simp only [labelled, Set.mem_ofPred_eq, Set.mem_sdiff, dma_commit]
      constructor
      · rintro (⟨-, -, habs⟩ | ⟨hno, hq⟩)
        · cases habs
        · exact ⟨hq, hno⟩
      · rintro ⟨hq, hno⟩
        exact .inr ⟨hno, hq⟩
    rw [hset, Set.ncard_sdiff hsub (hfin.subset hsub), hcard, ← h.budget_eq]
    rfl
  · intro q hq
    rcases dma_commit.1 hq with ⟨⟨o, ho, hy⟩, -⟩ | ⟨-, hold⟩
    · exact ⟨a + o, maps_commit.2 (.inl ⟨⟨by omega, by omega⟩, hx, by
        rw [Nat.add_sub_cancel_left]; exact hy⟩)⟩
    · obtain ⟨p, hpq⟩ := h.in_use q hold
      refine ⟨p, maps_commit.2 (.inr ⟨fun hp => ?_, hpq⟩)⟩
      obtain ⟨z, b, hz, hzt, -⟩ := hpq
      obtain ⟨z', hz', hzt'⟩ := hreserved p (Set.mem_Ico.2 hp)
      rw [hz] at hz'
      cases hz'
      cases hzt.symm.trans hzt'

theorem PoolBalanced.decommit (h : m.PoolBalanced) (hb : m.Backed)
    (hfin : (m.labelled .pooled).Finite) (hU : U.Finite)
    (hlt : m.budget + (m.behind .pooled U).ncard < 2 ^ 64) : (m.decommit U).PoolBalanced := by
  have hdisj : Disjoint (m.labelled .pooled) (m.behind .pooled U) := by
    rw [Set.disjoint_left]
    rintro q hq ⟨p, -, hpq⟩
    cases (h.pooled p q hpq).symm.trans hq
  have hfin' : (m.behind .pooled U).Finite := by
    refine (hU.image fun p => ((m.virt p).bind fun x => x.backing.map PhysByte.addr).getD 0).subset ?_
    rintro q ⟨p, hp, x, b, hx, -, hxb, rfl⟩
    exact ⟨p, hp, by simp [hx, hxb]⟩
  have hcount : (m.ofType .pooled U).ncard = (m.behind .pooled U).ncard :=
    ncard_ofType hb rfl h.pooled_inj
  refine ⟨h.toTracked.decommit, ?_, ?_⟩
  · have hset : (m.decommit U).labelled .pooled = m.labelled .pooled ∪ m.behind .pooled U := by
      ext q
      simp only [labelled, Set.mem_ofPred_eq, Set.mem_union, dma_decommit]
      constructor
      · rintro (⟨hq, -⟩ | ⟨-, hq⟩)
        · exact .inr hq
        · exact .inl hq
      · rintro (hq | hq)
        · exact .inr ⟨fun hmem => Set.disjoint_left.1 hdisj hq hmem, hq⟩
        · obtain ⟨p, -, hpq⟩ := id hq
          exact .inl ⟨hq, by rw [h.pooled p q hpq]; rfl, trivial⟩
    have hbudget : (m.decommit U).budget = m.budget + (m.behind .pooled U).ncard := by
      show U64.add m.budget (m.ofType .pooled U).ncard = _
      rw [hcount]
      exact U64.add_of_lt hlt
    rw [hbudget, hset, Set.ncard_union_eq hdisj hfin hfin', h.budget_eq]
  · intro q hq
    rcases dma_decommit.1 hq with ⟨-, -, habs⟩ | ⟨hno, hold⟩
    · cases habs
    · obtain ⟨p, hpq⟩ := h.in_use q hold
      exact ⟨p, (maps_decommit (by decide)).2 ⟨fun hp => hno ⟨p, hp, hpq⟩, hpq⟩⟩

end Memory

/-- Where a `Free` keeps the account: all it can release is allocated, and what is behind
    direct memory lies in the block as given. -/
def Op.ReleasesAllocated (s : MemoryManager) : Op → Prop
  | .free physAddr size _ => ∀ q ∈ s.view.firstHeld physAddr.toNat size.toNat,
      s.view.Used q ∧ ∀ p, s.view.Maps .direct p q →
        physAddr.toNat + size.toNat < 2 ^ 64 ∧ q < physAddr.toNat + size.toNat
  | _ => True

namespace MemoryManager

variable {env : Environment} {s s' : MemoryManager}

theorem releasesUnused_of_allocated {op : Op} (ht : s.view.Tracked) (h : op.ReleasesAllocated s) :
    op.ReleasesUnused s := by
  cases op with
  | free physAddr size checked =>
    intro q hq p
    obtain ⟨hused, hdirect⟩ := h q hq
    refine ⟨fun hp => ?_, hdirect p⟩
    exact hused.ne (by decide) (by decide) (ht.pooled p q hp)
  | _ => trivial

theorem finite_labelled (s : MemoryManager) (t : PhysicalMemoryType) :
    (s.view.labelled t).Finite := by
  refine (StdMap.finite_at? s.dmemMap fun b : PhysByte => b.dmaType = t).subset ?_
  intro q hq
  exact Memory.dma_eq_some.1 hq

theorem labelled_eq (s : MemoryManager) (t : PhysicalMemoryType) :
    s.view.labelled t = {q | ∃ b, s.dmemMap.at? q = some b ∧ b.dmaType = t} :=
  Set.ext fun _ => Memory.dma_eq_some

/-- The bytes of one type, counted and added up over the areas. -/
theorem ncard_labelled (h : s.Valid env) (t : PhysicalMemoryType) :
    (s.view.labelled t).ncard = s.dmemMap.sum fun d => if d.dmaType = t then d.size else 0 := by
  rw [labelled_eq]
  exact (StdMap.sum_eq_ncard h.dmem.separated (fun d => d.dmaType = t)
    (fun b : PhysByte => b.dmaType = t) fun _ _ _ _ _ => Iff.rfl).symm

/-- A set of direct memory is no larger than direct memory. -/
theorem ncard_dmem_le (h : s.Valid env) {Q : Set Nat} (hQ : ∀ q ∈ Q, (s.view.dmem q).isSome) :
    Q.ncard < 2 ^ 60 := by
  have hsub : Q ⊆ Set.Ico 0 (0 + (directExtent env).hi) := by
    intro q hq
    obtain ⟨b, hb⟩ := Option.isSome_iff_exists.1 (hQ q hq)
    have := Valid.dmem_lt h.dmem hb
    simp only [Set.mem_Ico, directExtent]
    omega
  have hcard := Set.ncard_le_ncard hsub (Set.finite_Ico _ _)
  rw [StdMap.ncard_Ico_add] at hcard
  have := directExtent_hi_lt env
  omega

theorem budget_lt_of_balanced (h : s.Valid env) (hb : s.view.PoolBalanced) :
    s.view.budget < 2 ^ 60 := by
  rw [hb.budget_eq]
  refine ncard_dmem_le h fun q hq => ?_
  obtain ⟨b, hqb, -⟩ := Memory.dma_eq_some.1 hq
  simp [hqb]

theorem Maps.poolBalanced {W : Set Nat} {a n phys : Nat} {x : VirtByte}
    (h : Maps env W a n x phys s s') (hb : s.view.PoolBalanced) : s'.view.PoolBalanced := by
  obtain ⟨s₁, hu, hfree, hmaps⟩ := h.result
  have hb₁ : s₁.view.PoolBalanced := hu.view ▸ hb.unmap
  refine hb₁.mapsArea hfree (fun hx q hq => ?_) hmaps
  rw [hu.view]
  exact (h.used_dma hx q hq).unmap

theorem Effect.poolBalanced {op : Op} {r : Reply} (h : Effect env s s' op r) (hv : s.Valid env)
    (hb : s.view.PoolBalanced) (hop : op.ReleasesAllocated s) (hexp : op.ExpandsFree) :
    s'.view.PoolBalanced := by
  have hrel := releasesUnused_of_allocated hb.toTracked hop
  have htrack := h.tracked hb.toTracked hrel hexp
  have hbudget := budget_lt_of_balanced hv hb
  cases h with
  | retouched same =>
    exact hb.of_labels htrack same.budget (fun q => by rw [same.dma_eq])
      (fun q hq => same.dma_eq ▸ hq) fun p q => same.maps_iff.2
  | @shrunk _ _ _ _ R free view =>
    rw [view] at htrack ⊢
    refine hb.of_labels htrack rfl (fun q => ⟨fun hq => (Memory.dma_shrink.1 hq).2, fun hq => ?_⟩)
      (fun q hq => (Memory.dma_shrink.1 hq).2) fun p q hpq => (Memory.maps_congr rfl).2 hpq
    refine Memory.dma_shrink.2 ⟨fun hR => ?_, hq⟩
    obtain ⟨b, hqb, ht⟩ := Memory.dma_eq_some.1 hq
    rw [free q hR b hqb] at ht
    cases ht
  | @expanded _ _ size _ a isSome free view =>
    have hsize : size.toNat < 2 ^ 60 := by
      have := ncard_dmem_le hv isSome
      rwa [StdMap.ncard_Ico_add] at this
    exact hb.expand (finite_labelled s _)
      (fun q hq => Memory.dma_eq_some.2 (free hexp q hq)) (by omega) view
  | allocated free view =>
    rw [view] at htrack ⊢
    refine hb.relabelDirect htrack (by decide) (by decide) fun q hq hpool => ?_
    cases (Memory.dma_eq_some.2 (free q hq)).symm.trans hpool
  | @freed _ _ _ _ U Q held _ _ view =>
    rw [view] at htrack ⊢
    refine hb.unmap.relabelDirect htrack (by decide) (by decide) fun q hq hpool => ?_
    exact (hop q (held hq)).1.unmap.ne (by decide) (by decide) hpool
  | committed commits =>
    rw [commits.view]
    exact hb.commit (finite_labelled s _) commits.type commits.reserved commits.pooled_dma
      commits.inj
  | @decommitted virtualAddr size _ _ decommits =>
    rw [decommits.view]
    refine hb.decommit hv.backed (finite_labelled s _) decommits.finite ?_
    have hcard : ∀ U, (s.view.behind .pooled U).ncard < 2 ^ 60 := by
      intro U
      refine ncard_dmem_le hv ?_
      rintro q ⟨p, -, hpq⟩
      obtain ⟨b, hqb, -⟩ := Memory.dma_eq_some.1 (hb.pooled p q hpq)
      simp [hqb]
    have := hcard (Set.Ico virtualAddr.toNat (virtualAddr.toNat + size.toNat))
    omega
  | mapped maps => exact maps.poolBalanced hb
  | mappedFile maps => exact maps.poolBalanced hb
  | unmapped unmaps =>
    rw [unmaps.view]
    exact hb.unmap
  | retyped view =>
    rw [view] at htrack ⊢
    exact hb.of_labels htrack rfl (fun q => by rw [Memory.dma_setType])
      (fun q hq => Memory.dma_setType ▸ hq) fun p q => Memory.maps_setType.2

/-- Offset `i` of a physical area of an area of type `t` makes `q` the byte behind `p`. -/
def BackedAt (s : MemoryManager) (t : VMAType) (p q : Nat) : Prop :=
  ∃ k v o e i, s.vmaMap.find? k = some v ∧ v.type = t ∧ v.physAreas.find? o = some e ∧
    i < e.size ∧ p = k + o + i ∧ q = e.base + i

theorem Valid.backedAt_iff (h : s.Valid env) {t : VMAType} {p q : Nat}
    (ht : t.hasPhysicalBacking) : s.BackedAt t p q ↔ s.view.Maps t p q := by
  constructor
  · rintro ⟨k, v, o, e, i, hk, rfl, he, hi, rfl, rfl⟩
    exact ⟨_, _, virt_of_piece h.vma hk ht he hi, rfl, rfl, rfl⟩
  · exact piece_of_maps

/-- The budget is the size of the pooled areas, every committed byte is behind one byte of
    one pooled area, and committing subtracts no more than there is. -/
structure PoolAccounted (env : Environment) (s : MemoryManager) : Prop where
  budget : s.poolBudget = s.dmemMap.sum fun d => if d.dmaType = .pooled then d.size else 0
  committed : ∀ j d q, s.dmemMap.find? j = some d → d.dmaType = .committed → d.base ≤ q →
    q < d.base + d.size → ∃! p, s.BackedAt .pooled p q
  commit : ∀ virtualAddr size prot mt s', Op.Issued (.poolCommit virtualAddr size prot mt) →
    s.step env (.poolCommit virtualAddr size prot mt) = .ok (s', .ok) →
    size.toNat ≤ s.poolBudget ∧ s'.poolBudget + size.toNat = s.poolBudget

theorem poolAccounted_of_balanced (h : s.Valid env) (hb : s.view.PoolBalanced) :
    s.PoolAccounted env where
  budget := hb.budget_eq.trans (ncard_labelled h .pooled)
  committed := by
    intro j d q hj hd hle hlt
    rw [h.dmem.key j d hj] at hle hlt
    have hq : s.view.dma q = some .committed :=
      Memory.dma_eq_some.2 ⟨_, StdMap.at?_of_find? h.dmem.separated hj hle hlt, hd⟩
    obtain ⟨p, hpq⟩ := hb.in_use q hq
    refine ⟨p, (h.backedAt_iff rfl).2 hpq, fun p' hp' => ?_⟩
    exact hb.pooled_inj p' p q ((h.backedAt_iff rfl).1 hp') hpq
  commit := by
    intro virtualAddr size prot mt s' hop hr
    simp only [step, Outcome.bind_eq_ok, Outcome.pure_eq_ok, Prod.mk.injEq] at hr
    obtain ⟨⟨s₁, e⟩, hr, rfl, hreply⟩ := hr
    have hmin : 0x10000 ≤ size.toNat := by
      obtain ⟨-, hpos, hmod, -⟩ := hop
      have : 0 < size.toNat := hpos
      omega
    rcases poolCommit_eq_ok h virtualAddr.toNat_lt size.toNat_lt hmin hr with
      ⟨e, rfl, -⟩ | ⟨-, x, y, hcommits, -⟩
    · cases hreply
    · have hlt := hcommits.budget
      have hview : s₁.poolBudget = s.poolBudget - size.toNat := congrArg Memory.budget hcommits.view
      simp only [hview]
      omega

/-- In a run whose calls of `Free` release allocated memory only, and whose calls of
    `PoolExpand` align their start, every state has its pool accounted for. -/
theorem reachable_poolAccounted
    (h : Reachable env (fun s op => op.ReleasesAllocated s ∧ op.ExpandsFree) s) :
    s.PoolAccounted env := by
  refine poolAccounted_of_balanced h.valid (h.invariant (P := Memory.PoolBalanced) ?_ ?_)
  · have hempty : ∀ q t, (init env).view.dma q = some t → t = .free := by
      intro q t hq
      obtain ⟨b, hb, rfl⟩ := Memory.dma_eq_some.1 hq
      rw [dmem_init hb]
    refine ⟨tracked_init, ?_, fun q hq => by cases hempty q _ hq⟩
    have hnone : (init env).view.labelled .pooled = ∅ := by
      rw [Set.eq_empty_iff_forall_notMem]
      intro q hq
      cases hempty q _ hq
    rw [hnone, Set.ncard_empty]
    rfl
  · intro s s' op r hv hb hop heff
    exact heff.poolBalanced hv hb hop.1 hop.2

/-- Nothing of direct memory from `phys` on is in the pool or committed. -/
def unpooledFrom (s : MemoryManager) (phys : Nat) : Bool :=
  s.dmemMap.entries.all fun e => e.1 + e.2.size ≤ phys || e.2.dmaType = .free ||
    e.2.dmaType = .allocated || e.2.dmaType = .mapped

theorem used_of_unpooledFrom {phys q : Nat} (h : s.unpooledFrom phys = true)
    (hq : q ∈ s.view.held) (hle : phys ≤ q) : s.view.Used q := by
  obtain ⟨b, hb, hfree⟩ := hq
  obtain ⟨j, d, hj, hjle, hlt, rfl⟩ := StdMap.exists_of_at? hb
  simp only [PhysicalMemoryArea.area_size] at hlt
  have hd := List.all_eq_true.1 h (j, d) (StdMap.mem_entries_iff.2 hj)
  simp only [Bool.or_eq_true, decide_eq_true_eq] at hd
  rcases hd with ((hend | hd) | hd) | hd
  · omega
  · exact absurd hd hfree
  · exact .inl (Memory.dma_eq_some.2 ⟨_, hb, hd⟩)
  · exact .inr (Memory.dma_eq_some.2 ⟨_, hb, hd⟩)

theorem reachable_poolAccounted_of_run : ∃ s,
    run .retail (init .retail) (poolAndDirectCalls ++ [.poolDecommit 0x200010000 0x10000] ++
      [.free 0x40000 0x10000 true]) = .ok s ∧
    s.poolBudget = 0x30000 ∧ s.unpooledFrom 0x40000 = true ∧ s.PoolAccounted .retail := by
  obtain ⟨s, s', r, hreach, hbefore, hr, hafter, hrun⟩ :=
    exists_last_call (C := fun s op => op.ReleasesAllocated s ∧ op.ExpandsFree) .retail
      (poolAndDirectCalls ++ [.poolDecommit 0x200010000 0x10000]) (.free 0x40000 0x10000 true)
      (fun s => s.unpooledFrom 0x40000 &&
        decide (s.pieces .direct = [(0x300000000, 0x40000, 0x10000)]))
      (fun s => decide (s.poolBudget = 0x30000 ∧ s.unpooledFrom 0x40000 = true))
      (by simp [poolAndDirectCalls, Op.ReleasesAllocated, Op.ExpandsFree, AlignsUp]; decide)
      (by with_unfolding_all decide)
  obtain ⟨hunpooled, hdirect⟩ := Bool.and_eq_true_iff.1 hbefore
  have hdirect := of_decide_eq_true hdirect
  obtain ⟨hbudget, hunpooled'⟩ := of_decide_eq_true hafter
  refine ⟨s', hrun, hbudget, hunpooled',
    reachable_poolAccounted (hreach.call hr (by decide) ⟨?_, trivial⟩)⟩
  rintro q ⟨hheld, hle, -⟩
  refine ⟨used_of_unpooledFrom hunpooled hheld hle, fun p hpq => ⟨by decide, ?_⟩⟩
  obtain ⟨x, hx, i, hi, rfl, rfl⟩ := exists_piece hpq
  rw [hdirect, List.mem_singleton] at hx
  subst hx
  simp only at hi
  simp
  omega

/-- Pooled memory that is released. -/
def releasePooledCalls : List Op :=
  [.poolExpand 0 0x100000000 0x20000 0, .free 0 0x10000 true]

/-- `Free` takes memory out of the pool and leaves the budget as it is. -/
theorem not_poolAccounted_of_release : ∃ s, run .retail (init .retail) releasePooledCalls = .ok s ∧
    Reachable .retail anyCall s ∧ ¬s.PoolAccounted .retail := by
  have hrun : (match run .retail (init .retail) releasePooledCalls with
      | .ok s => decide (s.poolBudget ≠
          s.dmemMap.sum fun d => if d.dmaType = .pooled then d.size else 0)
      | .error _ => false) = true := by with_unfolding_all decide
  split at hrun
  · rename_i s hs
    refine ⟨s, hs, reachable_of_run .refl hs ?_, ?_⟩
    · intro op hop
      exact ⟨by revert op; decide, fun _ => trivial⟩
    · intro hacc
      exact of_decide_eq_true hrun hacc.budget
  · cases hrun

end MemoryManager

end Core
