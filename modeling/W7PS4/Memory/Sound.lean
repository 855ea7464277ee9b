-- SUMMARY: What always holds of the bytes: the usable addresses, the bounds of backings, and the account of flexible memory.
import W7PS4.Memory.View

/-!
# Soundness of the byte-level state

`Sound` collects what every operation keeps, whatever its arguments. The virtual
bytes are the usable ones. Direct and pooled memory is backed from below the end
of direct memory. Every flexible byte has a flexible physical byte of its own, and
`flexible_usage` counts the flexible physical bytes.
-/

namespace Core

/-- The addresses of the regions the address space offers. -/
def Environment.Usable (env : Environment) (p : Nat) : Prop :=
  ∃ r ∈ env.usableRegions, r.1 ≤ p ∧ p < r.2

namespace Memory

/-- The flexible memory in use. -/
def flexibleInUse (m : Memory) : Set Nat := {q | ∃ b, m.fmem q = some b ∧ b.dmaType ≠ .free}

/-- A byte has physical memory behind it when its type says so, and only then. -/
def Backed (m : Memory) : Prop :=
  ∀ p x, m.virt p = some x → (x.type.hasPhysicalBacking ↔ ∃ b, x.backing = some b)

structure Sound (env : Environment) (m : Memory) : Prop where
  usable : ∀ p, (m.virt p).isSome ↔ env.Usable p
  refs_lt : ∀ p q, m.Maps .direct p q ∨ m.Maps .pooled p q →
    q < MemoryManager.constructorTotalSize env
  flexible : ∀ p q, m.Maps .flexible p q → q ∈ m.flexibleInUse
  flexible_inj : ∀ p p' q, m.Maps .flexible p q → m.Maps .flexible p' q → p = p'
  usage_eq : m.usage = m.flexibleInUse.ncard

variable {env : Environment} {m : Memory} {U : Set Nat}

/-- Backed bytes of a type are as many as the physical bytes behind them when none
    of these is behind two. -/
theorem ncard_ofType {t : VMAType} (hb : m.Backed) (ht : t.hasPhysicalBacking)
    (hinj : ∀ p p' q, m.Maps t p q → m.Maps t p' q → p = p') :
    (m.ofType t U).ncard = (m.behind t U).ncard := by
  have hmaps : ∀ p ∈ m.ofType t U, ∃ q, m.Maps t p q := by
    rintro p ⟨-, x, hx, hxt⟩
    obtain ⟨b, hxb⟩ := (hb p x hx).1 (hxt ▸ ht)
    exact ⟨b.addr, x, b, hx, hxt, hxb, rfl⟩
  have huniq : ∀ p q q', m.Maps t p q → m.Maps t p q' → q = q' := by
    rintro p q q' ⟨x, b, hx, -, hxb, rfl⟩ ⟨x', b', hx', -, hxb', rfl⟩
    rw [hx] at hx'
    cases hx'
    rw [hxb] at hxb'
    cases hxb'
    rfl
  choose f hf using hmaps
  refine Set.ncard_congr f ?_ ?_ ?_
  · intro p hp
    exact ⟨p, hp.1, hf p hp⟩
  · intro p p' hp hp' heq
    exact hinj p p' _ (hf p hp) (heq ▸ hf p' hp')
  · rintro q ⟨p, hpU, hpq⟩
    have hp : p ∈ m.ofType t U := by
      obtain ⟨x, b, hx, hxt, -⟩ := hpq
      exact ⟨hpU, x, hx, hxt⟩
    exact ⟨p, hp, huniq p _ _ (hf p hp) hpq⟩

theorem Sound.behind_subset (h : m.Sound env) : m.behind .flexible U ⊆ m.flexibleInUse := by
  rintro q ⟨p, -, hpq⟩
  exact h.flexible p q hpq

/-- The flexible bytes of a set are covered by the usage count. -/
theorem Sound.ncard_ofType_le (h : m.Sound env) (hb : m.Backed) (hfin : m.flexibleInUse.Finite) :
    (m.ofType .flexible U).ncard ≤ m.usage := by
  rw [ncard_ofType hb rfl h.flexible_inj, h.usage_eq]
  exact Set.ncard_le_ncard h.behind_subset hfin

theorem flexibleInUse_unmap :
    (m.unmap U).flexibleInUse = m.flexibleInUse \ m.behind .flexible U := by
  ext q
  constructor
  · rintro ⟨b, hb, hne⟩
    obtain ⟨c, hc, ⟨-, rfl⟩ | ⟨hq, rfl⟩⟩ := updateOn_eq_some.1 hb
    · exact absurd rfl hne
    · exact ⟨⟨c, hc, hne⟩, hq⟩
  · rintro ⟨⟨b, hb, hne⟩, hq⟩
    exact ⟨b, (updateOn_of_notMem hq).trans hb, hne⟩

theorem Sound.unmap (h : m.Sound env) (hb : m.Backed) (hfin : m.flexibleInUse.Finite) :
    (m.unmap U).Sound env where
  usable := by
    intro p
    rw [← h.usable p]
    exact iff_of_eq (congrArg (· = true) isSome_updateOn)
  refs_lt := by
    rintro p q (hpq | hpq)
    · exact h.refs_lt p q (.inl ((maps_unmap (by decide) (by decide)).1 hpq).2)
    · exact h.refs_lt p q (.inr (maps_unmap_pooled.1 hpq))
  flexible := by
    intro p q hpq
    obtain ⟨hp, hpq⟩ := (maps_unmap (by decide) (by decide)).1 hpq
    rw [flexibleInUse_unmap]
    refine ⟨h.flexible p q hpq, ?_⟩
    rintro ⟨p', hp', hpq'⟩
    exact hp (h.flexible_inj p p' q hpq hpq' ▸ hp')
  flexible_inj := by
    intro p p' q hpq hpq'
    exact h.flexible_inj p p' q ((maps_unmap (by decide) (by decide)).1 hpq).2
      ((maps_unmap (by decide) (by decide)).1 hpq').2
  usage_eq := by
    rw [flexibleInUse_unmap, Set.ncard_sdiff h.behind_subset (hfin.subset h.behind_subset),
      ← h.usage_eq, ← ncard_ofType hb rfl h.flexible_inj]
    rfl

/-- A change that leaves flexible memory alone, apart from bytes it takes away. -/
theorem Sound.of_flexible {m' : Memory} (h : m.Sound env)
    (hdom : ∀ p, (m'.virt p).isSome = (m.virt p).isSome)
    (hrefs : ∀ p q, m'.Maps .direct p q ∨ m'.Maps .pooled p q →
      m.Maps .direct p q ∨ m.Maps .pooled p q ∨ q < MemoryManager.constructorTotalSize env)
    (hflex : ∀ p q, m'.Maps .flexible p q → m.Maps .flexible p q)
    (hfmem : m'.fmem = m.fmem) (husage : m'.usage = m.usage) : m'.Sound env where
  usable := by
    intro p
    rw [hdom]
    exact h.usable p
  refs_lt := by
    intro p q hpq
    rcases hrefs p q hpq with hd | hp | hlt
    · exact h.refs_lt p q (.inl hd)
    · exact h.refs_lt p q (.inr hp)
    · exact hlt
  flexible := by
    intro p q hpq
    rw [flexibleInUse, hfmem]
    exact h.flexible p q (hflex p q hpq)
  flexible_inj := by
    intro p p' q hpq hpq'
    exact h.flexible_inj p p' q (hflex p q hpq) (hflex p' q hpq')
  usage_eq := by
    rw [husage, flexibleInUse, hfmem]
    exact h.usage_eq

/-- Direct memory and the budget play no part in soundness. -/
theorem Sound.congr {m' : Memory} (h : m.Sound env) (hvirt : m'.virt = m.virt)
    (hfmem : m'.fmem = m.fmem) (husage : m'.usage = m.usage) : m'.Sound env := by
  refine h.of_flexible (fun p => by rw [hvirt]) ?_ ?_ hfmem husage
  · rintro p q (hpq | hpq)
    · exact .inl ((maps_congr hvirt).1 hpq)
    · exact .inr (.inl ((maps_congr hvirt).1 hpq))
  · intro p q hpq
    exact (maps_congr hvirt).1 hpq

theorem isSome_place {a n p : Nat} {y : Nat → VirtByte}
    (h : ∀ p ∈ Set.Ico a (a + n), (m.virt p).isSome) :
    ((m.place a n y).virt p).isSome = (m.virt p).isSome := by
  rw [virt_place]
  split
  · rename_i hp
    rw [h p (Set.mem_Ico.2 hp)]
    rfl
  · rfl

/-- Flexible memory taken from what is free. -/
structure TakesFree (m : Memory) (y : Nat → PhysByte) (n : Nat) : Prop where
  free : ∀ o, o < n → ∃ b, m.fmem (y o).addr = some b ∧ b.dmaType = .free
  inj : ∀ o o', o < n → o' < n → (y o).addr = (y o').addr → o = o'

section

variable {a n : Nat} {x : VirtByte} {y : Nat → PhysByte}

/-- What `MapMemory` makes of the bytes `[a, a + n)`. -/
inductive MapsArea (m : Memory) (a n : Nat) (x : VirtByte) (phys : Nat) : Memory → Prop where
  | plain (hx : x.type.hasPhysicalBacking = false) : MapsArea m a n x phys (m.mapPlain a n x)
  /-- The flexible memory taken is the lowest that is free. -/
  | flexible {y : Nat → PhysByte} (hx : x.type = .flexible) (hy : m.TakesFree y n)
      (hlow : ∀ o, o < n → ∀ q b, q < (y o).addr → (m.mapFlexible a n x y).fmem q = some b →
        b.dmaType ≠ .free) : MapsArea m a n x phys (m.mapFlexible a n x y)
  | direct (hx : x.type = .direct)
      (hphys : ∀ o, o < n → ∃ b, m.dmem (phys + o) = some b ∧ b.addr = phys + o) :
      MapsArea m a n x phys (m.mapDirect a n x phys)

theorem MapsArea.direct_bytes {phys : Nat} {m' : Memory} (h : m.MapsArea a n x phys m')
    (hx : x.type = .direct) :
    ∀ o, o < n → ∃ b, m.dmem (phys + o) = some b ∧ b.addr = phys + o := by
  cases h with
  | plain hplain => simp [hx, VMAType.hasPhysicalBacking] at hplain
  | flexible hflex => simp [hx] at hflex
  | direct _ hphys => exact hphys

theorem flexibleInUse_mapFlexible (hy : m.TakesFree y n) :
    (m.mapFlexible a n x y).flexibleInUse = m.flexibleInUse ∪ {q | ∃ o < n, (y o).addr = q} := by
  ext q
  constructor
  · rintro ⟨b, hb, hne⟩
    obtain ⟨c, hc, ⟨hq, rfl⟩ | ⟨-, rfl⟩⟩ := updateOn_eq_some.1 hb
    · exact .inr hq
    · exact .inl ⟨c, hc, hne⟩
  · rintro (⟨b, hb, hne⟩ | hq)
    · by_cases hq : q ∈ {q | ∃ o < n, (y o).addr = q}
      · exact ⟨_, (updateOn_of_mem hq).trans (by rw [hb]; rfl), by simp⟩
      · exact ⟨b, (updateOn_of_notMem hq).trans hb, hne⟩
    · obtain ⟨o, ho, ho'⟩ := id hq
      obtain ⟨b, hb, -⟩ := hy.free o ho
      rw [ho'] at hb
      exact ⟨_, (updateOn_of_mem hq).trans (by rw [hb]; rfl), by simp⟩

theorem TakesFree.ncard (hy : m.TakesFree y n) : {q | ∃ o < n, (y o).addr = q}.ncard = n :=
  StdMap.ncard_values hy.inj

theorem TakesFree.notMem_inUse (hy : m.TakesFree y n) {o : Nat} (ho : o < n) :
    (y o).addr ∉ m.flexibleInUse := by
  rintro ⟨b, hb, hne⟩
  obtain ⟨c, hc, hfree⟩ := hy.free o ho
  rw [hb] at hc
  cases hc
  exact hne hfree

theorem Sound.mapFlexible (h : m.Sound env) (hfin : m.flexibleInUse.Finite)
    (huse : ∀ p ∈ Set.Ico a (a + n), (m.virt p).isSome) (hx : x.type = .flexible)
    (hy : m.TakesFree y n) : (m.mapFlexible a n x y).Sound env := by
  have hmaps : ∀ t p q, (m.mapFlexible a n x y).Maps t p q →
      (t = .flexible ∧ a ≤ p ∧ p < a + n ∧ (y (p - a)).addr = q) ∨
        (¬(a ≤ p ∧ p < a + n) ∧ m.Maps t p q) := by
    intro t p q hpq
    rcases maps_mapFlexible.1 hpq with ⟨hp, rfl, hq⟩ | hold
    · exact .inl ⟨hx, hp.1, hp.2, hq⟩
    · exact .inr hold
  refine ⟨?_, ?_, ?_, ?_, ?_⟩
  · intro p
    rw [← h.usable p]
    rw [virt_mapFlexible]
    exact iff_of_eq (congrArg (· = true) (isSome_place huse))
  · rintro p q (hpq | hpq)
    · rcases hmaps _ p q hpq with ⟨habs, -⟩ | ⟨-, hold⟩
      · cases habs
      · exact h.refs_lt p q (.inl hold)
    · rcases hmaps _ p q hpq with ⟨habs, -⟩ | ⟨-, hold⟩
      · cases habs
      · exact h.refs_lt p q (.inr hold)
  · intro p q hpq
    rw [flexibleInUse_mapFlexible hy]
    rcases hmaps _ p q hpq with ⟨-, hle, hlt, rfl⟩ | ⟨-, hold⟩
    · exact .inr ⟨p - a, by omega, rfl⟩
    · exact .inl (h.flexible p q hold)
  · intro p p' q hpq hpq'
    rcases hmaps _ p q hpq with ⟨-, hle, hlt, hq⟩ | ⟨-, hold⟩ <;>
      rcases hmaps _ p' q hpq' with ⟨-, hle', hlt', hq'⟩ | ⟨-, hold'⟩
    · have := hy.inj (p - a) (p' - a) (by omega) (by omega) (hq.trans hq'.symm)
      omega
    · exact absurd (h.flexible p' q hold') (hq ▸ hy.notMem_inUse (by omega))
    · exact absurd (h.flexible p q hold) (hq' ▸ hy.notMem_inUse (by omega))
    · exact h.flexible_inj p p' q hold hold'
  · rw [flexibleInUse_mapFlexible hy, Set.ncard_union_eq _ hfin _, hy.ncard, ← h.usage_eq]
    · rfl
    · rw [Set.disjoint_left]
      rintro q hq ⟨o, ho, rfl⟩
      exact hy.notMem_inUse ho hq
    · refine ((Set.finite_Ico 0 n).image fun o => (y o).addr).subset ?_
      rintro q ⟨o, ho, rfl⟩
      exact ⟨o, Set.mem_Ico.2 ⟨Nat.zero_le o, ho⟩, rfl⟩

theorem Sound.mapPlain (h : m.Sound env) (huse : ∀ p ∈ Set.Ico a (a + n), (m.virt p).isSome)
    (hx : x.backing = none) : (m.mapPlain a n x).Sound env := by
  refine h.of_flexible (fun p => isSome_place huse) ?_ ?_ rfl rfl
  · rintro p q (hpq | hpq)
    · exact .inl ((maps_mapPlain hx).1 hpq).2
    · exact .inr (.inl ((maps_mapPlain hx).1 hpq).2)
  · intro p q hpq
    exact ((maps_mapPlain hx).1 hpq).2

theorem Sound.mapDirect {phys : Nat} (h : m.Sound env)
    (huse : ∀ p ∈ Set.Ico a (a + n), (m.virt p).isSome) (hx : x.type = .direct)
    (hphys : ∀ o, o < n → ∃ b, m.dmem (phys + o) = some b ∧ b.addr = phys + o)
    (hlt : ∀ q b, m.dmem q = some b → q < MemoryManager.constructorTotalSize env) :
    (m.mapDirect a n x phys).Sound env := by
  refine h.of_flexible (fun p => virt_mapDirect ▸ isSome_place huse) ?_ ?_ rfl rfl
  · rintro p q (hpq | hpq)
    · rcases (maps_mapDirect hphys).1 hpq with ⟨hp, -, rfl⟩ | ⟨-, hold⟩
      · obtain ⟨b, hb, -⟩ := hphys (p - a) (by omega)
        exact .inr (.inr (hlt _ b hb))
      · exact .inl hold
    · rcases (maps_mapDirect hphys).1 hpq with ⟨-, htype, -⟩ | ⟨-, hold⟩
      · rw [hx] at htype
        cases htype
      · exact .inr (.inl hold)
  · intro p q hpq
    rcases (maps_mapDirect hphys).1 hpq with ⟨-, htype, -⟩ | ⟨-, hold⟩
    · rw [hx] at htype
      cases htype
    · exact hold

end

end Memory

end Core
