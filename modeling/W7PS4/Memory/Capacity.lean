-- SUMMARY: The limit of flexible memory and the memory there is for it: when every mapping within the limit finds its memory.
import W7PS4.Memory.Failure
import W7PS4.Memory.FlexibleAccount
import W7PS4.Memory.Limits

/-!
# The capacity of flexible memory

`MapMemory` compares a request with `total_flexible_size`, which `SetupMemoryRegions`
computes from the settings. The memory itself is in `fmem_map`, which the constructor
sized with the number of additional megabytes added as bytes. The comparison is enough
when the limit does not exceed the 512 MiB that both agree on, and then no address lies
past the end of the backing.
-/

/-- A test on what the computation returns, for runs that are evaluated. -/
theorem Outcome.any_toOption {α : Type} {x : Outcome α} {p : α → Bool} :
    x.toOption.any p = true ↔ ∃ a, x = .ok a ∧ p a = true := by
  cases x with
  | error e => simp [Except.toOption]
  | ok a => simp [Except.toOption]

namespace Core

open PhysicalMemoryArea (area_size getEnd)

namespace PhysMap

variable {x : Extent} {n size k offset : Nat} {map map' areas areas' : PhysMap}
  {f : PhysicalMemoryArea → PhysicalMemoryArea} {g : PhysByte → PhysByte} {a : PhysicalMemoryArea}

/-! ## The search for memory ends -/

/-- Carving from the start of an area always succeeds. -/
theorem WF.carvePhysArea_base (h : map.WF x) (hk : map.find? k = some a) (hpos : 0 < size)
    (hle : size ≤ a.size) : ∃ map₁, map.carvePhysArea a.base size = .ok (map₁, k) ∧
      (map₁.find? k).isSome ∧ (size = a.size → map₁ = map) := by
  have hbase := h.key k a hk
  have hbounds := h.bounds k a hk
  have hhi := h.hi_lt
  have hfloor : map.floor? k = some (k, a) :=
    StdMap.floor?_of_mem h.separated hk le_rfl (by simp only [area_size]; omega)
  have hadd : U64.add 0 size = size := by
    rw [U64.add_of_lt (by omega)]
    omega
  have hend : k ≤ a.getEnd := by
    simp only [getEnd, hbase]
    omega
  have hcarve : ∀ map₁, (if U64.add (k - a.base) size ≠ a.size then
        Prod.fst <$> map.split k (U64.add (k - a.base) size) else pure map : Outcome PhysMap) =
      .ok map₁ → map.carvePhysArea a.base size = .ok (map₁, k) := by
    intro map₁ hsplit
    simp only [PhysMap.carvePhysArea, Outcome.bind_eq_ok, deref_eq_ok, assertMsg_eq_ok,
      decide_eq_true_eq]
    rw [hbase] at hsplit ⊢
    refine ⟨(k, a), hfloor, (), hend, (), hbase.le, (), ?_, map₁, ?_, ?_⟩
    · simp only [hbase, Nat.sub_self, hadd]
      exact hle
    · simp only [hbase]
      exact hsplit
    · simp only [hbase, Nat.sub_self, ne_eq, not_true_eq_false, if_false]
      rfl
  rw [hbase, Nat.sub_self, hadd] at hcarve
  rw [hbase]
  by_cases hwhole : size = a.size
  · refine ⟨map, hcarve map ?_, by simp [hk], fun _ => rfl⟩
    rw [if_neg (by simpa using hwhole)]
    rfl
  have hsplit : ∃ r, map.split k size = .ok r := by
    simp only [PhysMap.split, Outcome.bind_eq_ok, deref_eq_ok, assertMsg_eq_ok,
      Bool.and_eq_true, decide_eq_true_eq]
    exact ⟨_, a, hk, (), ⟨by omega, hpos⟩, rfl⟩
  obtain ⟨r, hr⟩ := hsplit
  refine ⟨r.1, hcarve r.1 ?_, ?_, fun heq => absurd heq hwhole⟩
  · rw [if_pos hwhole, hr]
    rfl
  · obtain ⟨b, hb, -, -, rfl⟩ := split_eq_ok h hr
    simp only [StdMap.find?_insert]
    split
    · rfl
    · rfl

theorem takePiece_total (h : map.WF x) (hk : map.find? k = some a) (hpos : 0 < size)
    (hle : size ≤ a.size) (f : PhysicalMemoryArea → PhysicalMemoryArea) (areas : PhysMap)
    (offset : Nat) : ∃ map' areas' handle,
      takePiece f map areas a.base size offset = .ok (map', areas', handle) ∧
      (size = a.size → ∀ i, (map'.find? i).isSome → (map.find? i).isSome) := by
  obtain ⟨map₁, hcarve, hsome, hsame⟩ := h.carvePhysArea_base hk hpos hle
  obtain ⟨b, hb⟩ := Option.isSome_iff_exists.1 hsome
  have hfind : (map₁.modify k f).find? k = some (f b) := by simp [hb]
  refine ⟨(mergeAdjacent (map₁.modify k f) k).1, (mergeAdjacent (areas.insert offset (f b)) offset).1,
    (mergeAdjacent (map₁.modify k f) k).2, ?_, ?_⟩
  · simp only [takePiece, Outcome.bind_eq_ok, deref_eq_ok]
    exact ⟨(map₁, k), hcarve, f b, hfind, rfl⟩
  · intro hwhole
    rw [hsame hwhole]
    refine StdMap.mergeAdjacent_induction
      (P := fun m => ∀ i, (m.find? i).isSome → (map.find? i).isSome) ?_ ?_
    · intro i hi
      simp only [StdMap.find?_modify] at hi
      split at hi
      · rename_i hik
        rw [hik, hk]
        rfl
      · exact hi
    · intro m m' hm hj i hi
      exact hm i (hj.find?_isSome hi)

/-- The entries the loop has still ahead of it. -/
def ahead (map : PhysMap) : Option Nat → Nat
  | none => 0
  | some k => (map.startingAt k).length

/-- A turn leaves fewer entries ahead, so the loop returns. -/
theorem takeBackingLoop_total {wanted : PhysicalMemoryType} {fuel remaining : Nat}
    {handle : Option Nat} (hwf : map.WF x) (hback : areas.Backs offset)
    (hf : Relabels f g) (hw : wanted ≠ .free ∨ x.shrinks = false) (hrem : remaining < 2 ^ 64)
    (hhandle : ∀ k, handle = some k → (map.find? k).isSome)
    (hfuel : map.ahead handle < fuel) :
    ∃ r, takeBackingLoop wanted f fuel map handle areas offset remaining = .ok r := by
  induction fuel generalizing map handle areas offset remaining with
  | zero => omega
  | succ fuel ih =>
    cases handle with
    | none => exact ⟨_, rfl⟩
    | some k =>
      simp only [takeBackingLoop]
      split
      · exact ⟨_, rfl⟩
      rename_i hne
      obtain ⟨a, hk⟩ := Option.isSome_iff_exists.1 (hhandle k rfl)
      have hnext : ∀ (map' : PhysMap) (h' : Nat), (∀ i, (map'.find? i).isSome →
          (map.find? i).isSome) → (∀ i, (map'.find? i).isSome → h' < i → k < i) →
          (∀ i, (map'.next? h').map Prod.fst = some i → (map'.find? i).isSome) ∧
            map'.ahead ((map'.next? h').map Prod.fst) < fuel := by
        intro map' h' hkeys hafter
        cases hn : map'.next? h' with
        | none =>
          refine ⟨fun i hi => by simp at hi, ?_⟩
          have : 0 < (map.startingAt k).length := List.length_pos_of_mem
            (StdMap.mem_startingAt_iff.2 ⟨hk, le_rfl⟩)
          simp only [ahead] at hfuel
          simp only [Option.map_none, ahead]
          omega
        | some e =>
          obtain ⟨hfind, hlt, -⟩ := StdMap.next?_eq_some.1 hn
          have hsome : (map'.find? e.1).isSome := by simp [hfind]
          refine ⟨fun i hi => ?_, ?_⟩
          · simp only [Option.map_some, Option.some.injEq] at hi
            exact hi ▸ hsome
          · have hless := StdMap.length_startingAt_lt (n := map') (j := e.1) hk fun i hi hle =>
              ⟨hafter i hi (lt_of_lt_of_le hlt hle), hkeys i hi⟩
            simp only [ahead] at hfuel
            simp only [Option.map_some, ahead]
            omega
      rw [hk]
      show ∃ r, (if a.dmaType ≠ wanted then _ else _ : Outcome _) = .ok r
      split
      · -- an area of another type is passed over
        obtain ⟨hsome, hless⟩ := hnext map k (fun i => id) fun i _ hlt => hlt
        exact ih hwf hback hrem hsome hless
      rename_i hwanted
      simp only [ne_eq, Decidable.not_not] at hwanted
      have hsize : 0 < a.size := h_pos hwf hk hw hwanted
      obtain ⟨map', areas', h', htake, hkeys⟩ := takePiece_total hwf hk
        (show 0 < min remaining a.size by omega) (Nat.min_le_right _ _) f areas offset
      obtain ⟨hwf', hback', -, -, -, e, hfloor⟩ := takePiece_eq_ok hwf hback (by omega)
        (by omega) hf htake
      rw [htake]
      show ∃ r, takeBackingLoop wanted f fuel map' ((map'.next? h').map Prod.fst) areas'
        (offset + min remaining a.size) (remaining - min remaining a.size) = .ok r
      by_cases hwhole : min remaining a.size = a.size
      · -- the whole area is taken, and no key is new
        have hafter : ∀ i, (map'.find? i).isSome → h' < i → k < i := by
          intro i hi hlt
          obtain ⟨-, -, hmax⟩ := StdMap.floor?_eq_some.1 hfloor
          obtain ⟨b, hb⟩ := Option.isSome_iff_exists.1 hi
          by_contra hle
          have := hmax i b hb (by rw [hwf.key k a hk]; omega)
          simp only at this
          omega
        obtain ⟨hsome, hless⟩ := hnext map' h' (hkeys hwhole) hafter
        exact ih hwf' hback' (by omega) hsome hless
      · -- nothing is missing any more
        have hzero : remaining - min remaining a.size = 0 := by omega
        have hpos : 0 < (map.startingAt k).length := List.length_pos_of_mem
          (StdMap.mem_startingAt_iff.2 ⟨hk, le_rfl⟩)
        rw [hzero]
        simp only [ahead] at hfuel
        obtain ⟨fuel', rfl⟩ := Nat.exists_eq_succ_of_ne_zero (n := fuel) (by omega)
        cases (map'.next? h').map Prod.fst with
        | none => exact ⟨_, rfl⟩
        | some i =>
          simp only [takeBackingLoop, if_true]
          exact ⟨_, rfl⟩
where
  h_pos {map : PhysMap} {x : Extent} {k : Nat} {a : PhysicalMemoryArea}
      {wanted : PhysicalMemoryType} (hwf : map.WF x) (hk : map.find? k = some a)
      (hw : wanted ≠ .free ∨ x.shrinks = false) (hwanted : a.dmaType = wanted) : 0 < a.size :=
    hwf.pos k a hk (hwanted ▸ hw)

theorem takeBacking_total {wanted : PhysicalMemoryType} (hwf : map.WF x) (hf : Relabels f g)
    (hw : wanted ≠ .free ∨ x.shrinks = false) (hsize : size < 2 ^ 64) :
    ∃ r, takeBacking wanted f map size = .ok r := by
  refine takeBackingLoop_total hwf backs_empty hf hw hsize ?_ ?_
  · intro k hk
    obtain ⟨e, he, rfl⟩ := Option.map_eq_some_iff.1 hk
    simp [(StdMap.first?_eq_some.1 he).1]
  · cases hfirst : map.first? with
    | none => simp [ahead]
    | some e =>
      simp only [Option.map_some, ahead, StdMap.startingAt]
      have := List.length_filter_le (fun e' : Nat × PhysicalMemoryArea => decide (e.1 ≤ e'.1))
        map.entries
      omega

end PhysMap

namespace MemoryManager

open Outcome

variable {env : Environment} {s s' s₁ : MemoryManager} {addr size limit : Nat}

/-! ## Only `SetupMemoryRegions` changes the limit -/

/-- The limit is `n`. -/
def Limited (n : Nat) (s : MemoryManager) : Prop := s.totalFlexibleSize = n

theorem Step.limited (h : Step env afterSetup s s') (hl : s.Limited limit) : s'.Limited limit :=
  (h.sized ⟨hl, rfl⟩).1

/-! ## All flexible memory stays in its map -/

/-- Every byte the constructor gave to flexible memory is in its map. -/
def FlexibleWhole (env : Environment) (m : Memory) : Prop :=
  ∀ q, (flexibleExtent env).lo ≤ q → q < (flexibleExtent env).hi → (m.fmem q).isSome

theorem flexibleWhole_init : FlexibleWhole env (init env).view := by
  intro q hle hlt
  have hfind : (init env).fmemMap.find? (constructorTotalSize env) =
      some ⟨constructorTotalSize env, ORBIS_KERNEL_FLEXIBLE_MEMORY_SIZE + env.extraFmemInMBytes, 0,
        .free⟩ := by
    simp only [init]
    rw [StdMap.emplace_of_find?_eq_none StdMap.find?_empty]
    simp
  have hinit : (init env).Valid env := .init
  have hread := StdMap.at?_of_find? hinit.fmem.separated hfind hle
    (by simp only [area_size, flexibleExtent] at hlt ⊢; omega)
  exact Option.isSome_iff_exists.2 ⟨_, hread⟩

theorem FlexibleWhole.of_isSome {m m' : Memory} (h : FlexibleWhole env m)
    (hsome : ∀ q, (m'.fmem q).isSome = (m.fmem q).isSome) : FlexibleWhole env m' := by
  intro q hle hlt
  rw [hsome]
  exact h q hle hlt

theorem Maps.isSome_fmem {W : Set Nat} {a n phys q : Nat} {x : VirtByte}
    (h : Maps env W a n x phys s s') : (s'.view.fmem q).isSome = (s.view.fmem q).isSome := by
  obtain ⟨s₁, hu, -, hmaps⟩ := h.result
  have h₁ : (s₁.view.fmem q).isSome = (s.view.fmem q).isSome := by
    rw [hu.view]
    exact isSome_updateOn
  rw [← h₁]
  generalize s'.view = m' at hmaps ⊢
  cases hmaps with
  | plain => rfl
  | flexible => exact isSome_updateOn
  | direct => rfl

theorem Effect.isSome_fmem {op : Op} {r : Reply} {q : Nat} (h : Effect env s s' op r) :
    (s'.view.fmem q).isSome = (s.view.fmem q).isSome := by
  cases h with
  | retouched same => rw [same.fmem]
  | shrunk _ view => rw [view]; rfl
  | expanded _ _ view => rw [view]; rfl
  | allocated _ view => rw [view]; rfl
  | freed _ _ _ view =>
    rw [view]
    exact isSome_updateOn
  | committed commits => rw [commits.view]; rfl
  | decommitted _ decommits => rw [decommits.view]; rfl
  | mapped maps => exact maps.isSome_fmem
  | mappedFile maps => exact maps.isSome_fmem
  | unmapped unmaps =>
    rw [unmaps.view]
    exact isSome_updateOn
  | retyped view => rw [view]; rfl

theorem Reachable.flexibleWhole (h : Reachable env anyCall s) : FlexibleWhole env s.view :=
  h.invariant flexibleWhole_init fun _ hm _ heff => hm.of_isSome fun _ => heff.isSome_fmem

/-! ## Mapping within the limit -/

/-- `BackingSize`, the size of what the address space allocates. -/
def backingSize (env : Environment) : Nat :=
  ORBIS_KERNEL_TOTAL_MEM_DEV_PRO + ORBIS_KERNEL_FLEXIBLE_MEMORY_SIZE +
    (env.extraDmemInMBytes * oneMB + env.extraFmemInMBytes * oneMB)

/-- Flexible memory that is in use without a gap is not more than what was in use and
    what was taken. -/
theorem Valid.run_le (h : s.Valid env) (hwhole : FlexibleWhole env s.view) {T : Set Nat} {c : Nat}
    (hT : T.Finite) (hc : c ≤ (flexibleExtent env).hi)
    (hused : ∀ q b, q < c → updateOn T (PhysByte.withDmaType .flexible) s.view.fmem q = some b →
      b.dmaType ≠ .free) : c - (flexibleExtent env).lo ≤ s.flexibleUsage + T.ncard := by
  have hsub : Set.Ico (flexibleExtent env).lo c ⊆ s.view.flexibleInUse ∪ T := by
    intro q hq
    rw [Set.mem_Ico] at hq
    by_cases hqT : q ∈ T
    · exact .inr hqT
    · obtain ⟨b, hb⟩ := Option.isSome_iff_exists.1 (hwhole q hq.1 (by omega))
      exact .inl ⟨b, hb, hused q b hq.2 ((updateOn_of_notMem hqT).trans hb)⟩
  have hcard := Set.ncard_le_ncard hsub (s.finite_inUse.union hT)
  have hunion := Set.ncard_union_le s.view.flexibleInUse T
  have husage : s.flexibleUsage = s.view.flexibleInUse.ncard := h.sound.usage_eq
  have hico : (Set.Ico (flexibleExtent env).lo c).ncard = c - (flexibleExtent env).lo := by
    rw [← Finset.coe_Ico, Set.ncard_coe_finset, Nat.card_Ico]
  omega

/-- The physical memory for a flexible area: free, found, and inside the backing. By then
    the virtual map has the new area in it. -/
theorem Valid.mapBacking_flexible (h : s.Valid env) (hwhole : FlexibleWhole env s.view)
    {phys : Nat} (hfits : s.flexibleUsage + size ≤ ORBIS_KERNEL_FLEXIBLE_MEMORY_SIZE)
    (vmaMap : VMAMap) :
    ∃ s' areas, mapBacking { s with vmaMap } size .flexible phys = .ok (s', areas) ∧
      ∀ o, o < size → ∃ b c, areas.at? o = some b ∧ s.view.fmem b.addr = some c ∧
        c.dmaType = .free ∧ b.addr < backingSize env := by
  have hsize : size < 2 ^ 64 := by
    simp only [ORBIS_KERNEL_FLEXIBLE_MEMORY_SIZE, oneMB] at hfits
    omega
  have hlo : (flexibleExtent env).lo + ORBIS_KERNEL_FLEXIBLE_MEMORY_SIZE = backingSize env := by
    simp only [flexibleExtent, constructorTotalSize, backingSize]
    omega
  have hhi : (flexibleExtent env).lo + ORBIS_KERNEL_FLEXIBLE_MEMORY_SIZE ≤
      (flexibleExtent env).hi := by
    simp only [flexibleExtent]
    omega
  obtain ⟨⟨map, areas, left⟩, htake⟩ := PhysMap.takeBacking_total h.fmem
    claims_flexible.toRelabels (.inr rfl) hsize
  obtain ⟨-, hle, ht, hdone⟩ := PhysMap.takeBacking_eq_ok h.fmem claims_flexible (.inr rfl) hsize
    htake
  obtain ⟨y, hread, htaken, hinj, hbytes⟩ := exists_bytes_of_takes ht fun _ => rfl
  have hy : s.view.TakesFree y (size - left) := by
    refine ⟨fun o ho => ?_, hinj⟩
    obtain ⟨b, hb, hbt, -⟩ := htaken o ho
    exact ⟨b, hb, hbt⟩
  have hT : {q | ∃ o < size - left, (y o).addr = q}.Finite := by
    refine (Set.finite_Iio (flexibleExtent env).hi).subset ?_
    rintro q ⟨o, ho, rfl⟩
    obtain ⟨b, hb, -⟩ := hy.free o ho
    obtain ⟨k, a, hk, hka, hlt, -⟩ := StdMap.exists_of_at? hb
    have := h.fmem.bounds k a hk
    simp only [area_size] at hlt
    rw [Set.mem_Iio]
    omega
  -- a walk that ends early has left nothing free, which would be too much
  have hzero : left = 0 := by
    rcases hdone with hzero | hnone
    · exact hzero
    · have := h.run_le hwhole hT le_rfl fun q b _ hb => hnone q b (hbytes ▸ hb)
      rw [hy.ncard] at this
      omega
  subst hzero
  refine ⟨{ s with vmaMap, fmemMap := map, flexibleUsage := U64.add s.flexibleUsage size }, areas,
    ?_, ?_⟩
  · simp only [mapBacking, Outcome.bind_eq_ok, assertMsg_eq_ok]
    exact ⟨_, htake, (), by simp, rfl⟩
  · intro o ho
    obtain ⟨c, hc, hct, -⟩ := htaken o (by omega)
    refine ⟨y o, c, hread o (by omega), hc, hct, ?_⟩
    obtain ⟨k, a, hk, hka, hlt, -⟩ := StdMap.exists_of_at? hc
    have hbounds := h.fmem.bounds k a hk
    simp only [area_size] at hlt
    have hrun := h.run_le hwhole (c := (y o).addr + 1) hT (by omega) ?_
    · rw [hy.ncard] at hrun
      omega
    · intro q b hq hb
      rcases Nat.lt_or_eq_of_le (Nat.le_of_lt_succ hq) with hlt | rfl
      · exact ht.lowest o _ (Nat.zero_le _) (by omega) (hread o (by omega)) q b hlt (hbytes ▸ hb)
      · have hmem : (y o).addr ∈ {q | ∃ o < size - 0, (y o).addr = q} := ⟨o, by omega, rfl⟩
        rw [updateOn_of_mem hmem, Option.map_eq_some_iff] at hb
        obtain ⟨d, -, rfl⟩ := hb
        simp [PhysByte.withDmaType]

/-- Every flexible `MapMemory` that passes its checks finds its memory among what is
    free, inside the backing: the assertion of `mapBacking` does not fail. -/
def FlexibleCapacity (env : Environment) (s : MemoryManager) : Prop :=
  ∀ (virtualAddr size : UInt64) (prot : MemoryProt) (flags : MemoryMapFlags) (name : String)
    (validateDmem : Bool) (physAddr alignment : UInt64) (a : Nat) (s₁ : MemoryManager)
    (handle : Nat),
    mapMemoryChecks env s virtualAddr.toNat size.toNat flags .flexible validateDmem
      physAddr.toNat alignment.toNat = .ok (.ok a) →
    s.createArea a size.toNat prot flags .flexible name = .ok (s₁, handle) →
    ∃ s₂ areas, s₁.mapBacking size.toNat .flexible physAddr.toNat = .ok (s₂, areas) ∧
      ∀ o, o < size.toNat → ∃ b c, areas.at? o = some b ∧ s₁.view.fmem b.addr = some c ∧
        c.dmaType = .free ∧ b.addr < backingSize env

theorem Valid.flexibleCapacity (h : s.Valid env) (hwhole : FlexibleWhole env s.view)
    (hlimit : s.totalFlexibleSize ≤ ORBIS_KERNEL_FLEXIBLE_MEMORY_SIZE) :
    s.FlexibleCapacity env := by
  intro virtualAddr size prot flags name validateDmem physAddr alignment a s₁ handle hchecks hcreate
  obtain ⟨hbudget, -, _, hchoose⟩ := mapMemoryChecks_eq_ok hchecks
  have ha := (chooseAddress_eq_ok h.vma virtualAddr.toNat_lt hchoose).1
  obtain ⟨rfl, s₀, map, v, hc, rfl⟩ := createArea_eq_ok h ha size.toNat_lt hcreate
  have hu := hc.unmaps
  have hwhole₀ : FlexibleWhole env s₀.view := hwhole.of_isSome fun q => by
    rw [hu.view]
    exact isSome_updateOn
  -- the new area is usable memory, so adding its size did not wrap around
  have hsize : size.toNat < 2 ^ 63 := by
    by_contra hge
    obtain ⟨x, hx, -⟩ := hc.free (handle + (size.toNat - 1)) (Set.mem_Ico.2 ⟨by omega, by omega⟩)
    obtain ⟨r, hr, -, hlt⟩ := (hu.valid.sound.usable _).1 (Option.isSome_iff_exists.2 ⟨x, hx⟩)
    have := (env.usable_nonempty r hr).2
    omega
  have hfits : s₀.flexibleUsage + size.toNat ≤ ORBIS_KERNEL_FLEXIBLE_MEMORY_SIZE := by
    have := hbudget rfl
    have hhi := flexibleExtent_hi_lt env
    rw [U64.add_of_lt (by have := h.usage_le_hi; omega)] at this
    have := hu.usage_le
    omega
  exact hu.valid.mapBacking_flexible hwhole₀ hfits _

/-- With `flexible_size` and the additional megabytes within what `fmem_map` and the
    backing both hold, every flexible mapping after `SetupMemoryRegions` that passes the
    test finds its memory, whatever was called before and after. -/
theorem reachable_flexibleCapacity {s₀ : MemoryManager} {flexibleSize : UInt64}
    {ext1 ext2 : Bool} (h₀ : Reachable env anyCall s₀)
    (hbase : ORBIS_KERNEL_FLEXIBLE_MEMORY_BASE ≤ flexibleSize.toNat)
    (hfits : flexibleSize.toNat + env.extraFmemInMBytes * oneMB ≤
      ORBIS_KERNEL_FLEXIBLE_MEMORY_BASE + ORBIS_KERNEL_FLEXIBLE_MEMORY_SIZE)
    (hsetup : s₀.setupMemoryRegions env flexibleSize.toNat ext1 ext2 = .ok s₁)
    (h : Relation.ReflTransGen (Step env afterSetup) s₁ s) : s.FlexibleCapacity env := by
  have hlimit : s₁.Limited
      (flexibleSize.toNat + env.extraFmemInMBytes * oneMB - ORBIS_KERNEL_FLEXIBLE_MEMORY_BASE) := by
    have hwide : flexibleSize.toNat + env.extraFmemInMBytes * oneMB < 2 ^ 64 := by
      simp only [ORBIS_KERNEL_FLEXIBLE_MEMORY_BASE, ORBIS_KERNEL_FLEXIBLE_MEMORY_SIZE,
        oneMB] at hfits ⊢
      omega
    simp only [setupMemoryRegions, Outcome.bind_eq_ok, Outcome.pure_eq_ok] at hsetup
    obtain ⟨-, -, -, -, -, -, rfl⟩ := hsetup
    simp only [Limited]
    rw [U64.add_of_lt hwide, U64.sub_of_le hwide (by omega)]
  have hreach : Reachable env anyCall s₁ :=
    h₀.tail ⟨.setupMemoryRegions flexibleSize ext1 ext2, .ok, trivial, trivial, by
      simp only [step, hsetup]
      rfl⟩
  have hboth : Reachable env anyCall s ∧ s.Limited
      (flexibleSize.toNat + env.extraFmemInMBytes * oneMB - ORBIS_KERNEL_FLEXIBLE_MEMORY_BASE) := by
    induction h with
    | refl => exact ⟨hreach, hlimit⟩
    | tail _ hstep ih =>
      obtain ⟨hr, hl⟩ := ih
      refine ⟨hr.tail ?_, hstep.limited hl⟩
      obtain ⟨op, r, hop, -, hr⟩ := hstep
      exact ⟨op, r, hop, trivial, hr⟩
  have hl : s.totalFlexibleSize = _ := hboth.2
  exact hboth.1.valid.flexibleCapacity hboth.1.flexibleWhole (by omega)

theorem reachable_flexibleCapacity_of_run :
    ∃ s₁ s, setupMemoryRegions .retail (init .retail) 0x20000000 false false = .ok s₁ ∧
      run .retail s₁ partitionCalls = .ok s ∧ s.flexibleUsage = 0x8000 ∧
      s.FlexibleCapacity .retail := by
  have hrun : ((setupMemoryRegions .retail (init .retail) 0x20000000 false false).toOption.any
      fun s₁ => (run .retail s₁ partitionCalls).toOption.any fun s =>
        decide (s.flexibleUsage = 0x8000)) = true := by with_unfolding_all decide
  obtain ⟨s₁, hsetup, hrun⟩ := Outcome.any_toOption.1 hrun
  obtain ⟨s, hs, hrun⟩ := Outcome.any_toOption.1 hrun
  refine ⟨s₁, s, hsetup, hs, of_decide_eq_true hrun, ?_⟩
  have hsetup' : setupMemoryRegions .retail (init .retail) (0x20000000 : UInt64).toNat false
    false = .ok s₁ := hsetup
  refine reachable_flexibleCapacity .refl (by decide) (by decide) hsetup' (steps_of_run hs ?_)
  intro op hop
  exact ⟨by revert op; decide, fun s => by revert op; simp [partitionCalls, afterSetup]⟩

end MemoryManager

/-- A retail console with 65 MiB of additional flexible memory. -/
def Environment.moreFlexible : Environment :=
  { Environment.retail with extraFmemInMBytes := 65, extra_lt := by decide }

namespace MemoryManager

/-- The limit counts 65 MiB more and `fmem_map` 65 bytes: a mapping of 513 MiB passes the
    test and the assertion fails. -/
theorem not_flexibleCapacity_of_extra :
    ∃ s₁, setupMemoryRegions .moreFlexible (init .moreFlexible) 0x20000000 false false = .ok s₁ ∧
      s₁.mapMemory .moreFlexible 0x200000000 0x20100000 .cpuReadWrite .fixed .flexible "heap" false
        U64.max 0 = .error (.assertion "Failed to map physical memory") ∧
      ¬s₁.FlexibleCapacity .moreFlexible := by
  have hrun : ((setupMemoryRegions .moreFlexible (init .moreFlexible) 0x20000000 false
      false).toOption.any fun s₁ =>
      (s₁.createArea 0x200000000 0x20100000 .cpuReadWrite .fixed .flexible "heap").toOption.any
        fun r => decide (
          mapMemoryChecks .moreFlexible s₁ 0x200000000 0x20100000 .fixed .flexible false U64.max 0 =
            .ok (.ok 0x200000000) ∧
          r.1.mapBacking 0x20100000 .flexible U64.max =
            .error (.assertion "Failed to map physical memory"))) = true := by with_unfolding_all decide
  obtain ⟨s₁, hsetup, hrun⟩ := Outcome.any_toOption.1 hrun
  obtain ⟨r, hcreate, hrun⟩ := Outcome.any_toOption.1 hrun
  obtain ⟨hchecks, hback⟩ := of_decide_eq_true hrun
  refine ⟨s₁, hsetup, ?_, fun hcap => ?_⟩
  · simp only [mapMemory, hchecks, mapMemoryAt, Outcome.ok_bind, hcreate, hback, Outcome.error_bind]
  · obtain ⟨s₂, areas, hok, -⟩ := hcap 0x200000000 0x20100000 .cpuReadWrite .fixed "heap" false
      (-1) 0 _ r.1 r.2 hchecks hcreate
    exact absurd (hback.symm.trans hok) (by simp)

end MemoryManager

end Core
