-- SUMMARY: Committing and decommitting pooled memory refine their byte-level readings.
import W7PS4.Memory.Direct

/-!
# Pooled memory

`PoolCommit` puts pooled direct memory behind a part of an area that is reserved
for a pool. `PoolDecommit` gives it back. The search it starts with does not look
at the area in which the range ends, so that area may be of any type.
-/

namespace Core

open Outcome (bind_eq_ok pure_eq_ok)
open VirtualMemoryArea (area_size)

namespace Memory

variable {env : Environment} {m : Memory} {a n : Nat} {x : VirtByte} {y : Nat → PhysByte}

theorem Sound.commit {mt : Int} (h : m.Sound env)
    (huse : ∀ p ∈ Set.Ico a (a + n), (m.virt p).isSome) (hx : x.type = .pooled)
    (hlt : ∀ o, o < n → (y o).addr < MemoryManager.constructorTotalSize env) :
    (m.commit a n x y mt).Sound env := by
  refine h.of_flexible (fun p => ?_) ?_ ?_ rfl rfl
  · rw [virt_commit]
    exact isSome_place huse
  · rintro p q (hpq | hpq)
    · rcases maps_commit.1 hpq with ⟨-, htype, -⟩ | ⟨-, hold⟩
      · rw [hx] at htype
        cases htype
      · exact .inl hold
    · rcases maps_commit.1 hpq with ⟨hp, -, rfl⟩ | ⟨-, hold⟩
      · exact .inr (.inr (hlt (p - a) (by omega)))
      · exact .inr (.inl hold)
  · intro p q hpq
    rcases maps_commit.1 hpq with ⟨-, htype, -⟩ | ⟨-, hold⟩
    · rw [hx] at htype
      cases htype
    · exact hold

theorem Sound.decommit {U : Set Nat} (h : m.Sound env) : (m.decommit U).Sound env := by
  refine h.of_flexible (fun p => isSome_updateOn) ?_ ?_ rfl rfl
  · rintro p q (hpq | hpq)
    · exact .inl ((maps_decommit (by decide)).1 hpq).2
    · exact .inr (.inl ((maps_decommit (by decide)).1 hpq).2)
  · intro p q hpq
    exact ((maps_decommit (by decide)).1 hpq).2

end Memory

namespace MemoryManager

variable {env : Environment} {s s' : MemoryManager} {addr size n k : Nat} {v : VirtualMemoryArea}

/-! ## Committing -/

theorem claims_committed (mt : Int) :
    PhysMap.Claims .pooled (fun area => { area with dmaType := .committed, memoryType := mt })
      (PhysByte.labelled mt .committed) where
  toRelabels := relabels_labelled mt .committed
  idem _ := rfl
  addr _ := rfl
  ne _ := by simp

/-- The pooled memory `y` committed to `[addr, addr + size)`, which was reserved for
    the pool. -/
structure Commits (env : Environment) (addr size : Nat) (x : VirtByte) (y : Nat → PhysByte)
    (mt : Int) (s s' : MemoryManager) : Prop where
  valid : s'.Valid env
  type : x.type = .pooled
  reserved : ∀ p ∈ Set.Ico addr (addr + size),
    ∃ z, s.view.virt p = some z ∧ z.type = .poolReserved
  budget : size < s.poolBudget
  taken : ∀ o, o < size → ∃ b, s.view.dmem (y o).addr = some b ∧ b.dmaType = .pooled ∧
    y o = b.labelled mt .committed
  inj : ∀ o o', o < size → o' < size → (y o).addr = (y o').addr → o = o'
  view : s'.view = s.view.commit addr size x y mt

/-- The range that is carved lies in the area that was checked, although the check
    is for the aligned address. -/
theorem carved_of_aligned (h : s.vmaMap.WF) {w : VirtualMemoryArea} (hsize : 0x10000 ≤ size)
    (hc : s.vmaMap.Carved addr size v)
    (hfloor : s.vmaMap.floor? (alignUp addr 0x10000) = some (k, w)) : w = v := by
  have hfits := hc.fits
  have hle := hc.le
  have hend := h.end_lt _ v hc.mem
  have hup : addr ≤ alignUp addr 0x10000 ∧ alignUp addr 0x10000 < addr + 0x10000 := by
    simp only [alignUp]
    split
    · omega
    · rw [U64.add_of_lt (by omega)]
      omega
  rw [StdMap.floor?_of_mem h.separated hc.mem (by omega)
    (by simp only [area_size]; omega)] at hfloor
  cases hfloor
  rfl

theorem poolCommit_eq_ok {prot : MemoryProt} {mt : Int} {r : Except OrbisError Unit}
    (h : s.Valid env) (haddr : addr < 2 ^ 64) (hsize : size < 2 ^ 64) (hmin : 0x10000 ≤ size)
    (hr : s.poolCommit addr size prot mt = .ok (s', r)) :
    (∃ e, r = .error e ∧ s' = s) ∨
      (r = .ok () ∧ ∃ x y, Commits env addr size x y mt s s' ∧
        ∃ dmem areas, PhysMap.takeBacking .pooled
            (fun area => { area with dmaType := .committed, memoryType := mt }) s.dmemMap size =
              .ok (dmem, areas, 0) ∧
          ∀ o, o < size → areas.at? o = some (y o)) := by
  simp only [poolCommit, VMAMap.findVMA, bind_eq_ok, deref_eq_ok, assertMsg_eq_ok] at hr
  obtain ⟨valid, -, -, -, ⟨k, w⟩, hfloor, hr⟩ := hr
  simp only at hr
  split at hr
  · cases hr
    exact .inl ⟨_, rfl, rfl⟩
  rename_i htype
  simp only [ne_eq, Decidable.not_not] at htype
  split at hr
  · cases hr
    exact .inl ⟨_, rfl, rfl⟩
  split at hr
  · cases hr
    exact .inl ⟨_, rfl, rfl⟩
  rename_i hbudget
  simp only [bind_eq_ok, assertMsg_eq_ok, decide_eq_true_eq, pure_eq_ok,
    Prod.mk.injEq] at hr
  obtain ⟨⟨map, new⟩, hcarve, ⟨dmem, areas, left⟩, htake, -, hleft, rfl, rfl⟩ := hr
  simp only at hleft
  subst hleft
  obtain ⟨hhandle, v, v', hc, -, hv', hbase, hsz, hvt, hread, hrep⟩ :=
    h.vma.carve_modify haddr hsize hcarve
  simp only at hhandle
  subst hhandle
  have hwv := carved_of_aligned h.vma hmin hc hfloor
  subst hwv
  obtain ⟨hdwf, -, ht, -⟩ := PhysMap.takeBacking_eq_ok h.dmem (claims_committed mt)
    (.inl (by decide)) hsize htake
  rw [Nat.sub_zero] at ht
  have hback := ht.backs
  rw [Nat.zero_add] at hback
  obtain ⟨y, hy, htaken, hinj, hbytes⟩ := exists_bytes_of_takes ht fun _ => rfl
  have hrep := hrep (markPooled prot areas) ⟨hv'.pos, fun _ => hsz.symm ▸ hback,
    by simp [markPooled, VMAType.hasPhysicalBacking], by simp [markPooled]⟩ hbase hsz
  obtain ⟨hwf, hat⟩ := hrep.mergeAdjacent
  have hreserved : ∀ p ∈ Set.Ico new (new + size),
      ∃ z, s.view.virt p = some z ∧ z.type = .poolReserved := by
    intro p hp
    rw [Set.mem_Ico] at hp
    have hx := hread (p - new) (by omega)
    rw [Nat.add_sub_cancel' hp.1] at hx
    exact ⟨_, hx, hvt.trans htype⟩
  have hsome : ∀ p ∈ Set.Ico new (new + size), (s.view.virt p).isSome := by
    intro p hp
    obtain ⟨z, hz, -⟩ := hreserved p hp
    simp [hz]
  have hview : MemoryManager.view { s with
      dmemMap := dmem, poolBudget := s.poolBudget - size,
      vmaMap := (VMAMap.mergeAdjacent (map.modify new (markPooled prot areas)) new).1 } = s.view.commit new size
        ⟨.pooled, prot.appendRead, "anon", false, none⟩ y mt := by
    have hplace : (VMAMap.mergeAdjacent (map.modify new (markPooled prot areas)) new).1.at? =
        (s.view.place new size fun o => Area.byte (markPooled prot areas v') o).virt :=
      funext hat
    refine Memory.ext (hplace.trans ?_) hbytes rfl rfl rfl
    rw [Memory.virt_commit]
    refine Memory.virt_place_congr fun o ho => ?_
    simp [markPooled, hy o ho]
  refine .inr ⟨rfl, _, y, ⟨⟨hdwf, h.fmem, hwf, hrep.coalesced_mergeAdjacent h.coalesced, ?_,
    h.usage_le, (Nat.sub_le _ _).trans_lt h.budget_lt⟩, rfl, hreserved, by omega, htaken, hinj, hview⟩,
    dmem, areas, htake, hy⟩
  rw [hview]
  refine h.sound.commit hsome rfl fun o ho => ?_
  obtain ⟨b, hb, -⟩ := htaken o ho
  exact Valid.dmem_lt h.dmem hb

/-! ## Decommitting -/

/-- Going from `s` to `s'` decommits the bytes of `U` and changes nothing else. -/
structure Decommits (env : Environment) (U : Set Nat) (s s' : MemoryManager) : Prop where
  valid : s'.Valid env
  view : s'.view = s.view.decommit U
  finite : U.Finite

theorem Decommits.trans {U W : Set Nat} {s₁ s₂ s₃ : MemoryManager} (h₁ : Decommits env U s₁ s₂)
    (h₂ : Decommits env W s₂ s₃) : Decommits env (U ∪ W) s₁ s₃ where
  valid := h₂.valid
  view := by rw [h₂.view, h₁.view, Memory.decommit_decommit h₁.finite h₂.finite]
  finite := h₁.finite.union h₂.finite

/-- The physical side of decommitting `n` bytes of an area. -/
theorem repoolBacking_eq_ok (h : s.Valid env) (hc : s.vmaMap.Carved addr n v)
    (hr : s.repoolBacking v (addr - v.base) n = .ok s') :
    s'.dmemMap.WF (directExtent env) ∧ s'.fmemMap = s.fmemMap ∧ s'.vmaMap = s.vmaMap ∧
      s'.totalFlexibleSize = s.totalFlexibleSize ∧ s'.flexibleUsage = s.flexibleUsage ∧
      s'.view = { s.view.decommit (Set.Ico addr (addr + n)) with virt := s.view.virt } := by
  have hfits := hc.fits
  have hle := hc.le
  have hbehind := behind_of_reads (virt_of_carved h.vma hc)
  have hcount := ofType_of_reads (virt_of_carved h.vma hc)
  simp only [repoolBacking] at hr
  split at hr
  · rename_i hne
    rw [pure_eq_ok] at hr
    subst hr
    refine ⟨h.dmem, rfl, rfl, rfl, rfl, Memory.ext rfl ?_ rfl rfl ?_⟩
    · simp only [Memory.decommit, hbehind, if_neg hne, updateOn_empty]
    · simp only [Memory.decommit, hcount, if_neg hne, Set.ncard_empty]
      exact (U64.add_of_lt (b := 0) h.budget_lt).symm
  · rename_i hpooled
    simp only [ne_eq, Decidable.not_not] at hpooled
    simp only [bind_eq_ok, pure_eq_ok, assertMsg_eq_ok] at hr
    obtain ⟨pieces, hpieces, ⟨map', left⟩, hret, -, -, rfl⟩ := hr
    obtain ⟨hwf, hat, -⟩ := retypeBehind_eq_ok ((h.vma.entry _ v hc.mem).backed (hpooled ▸ rfl))
      (relabels_withDmaType _) (PhysByte.withDmaType_withDmaType _) hc.pos (by omega) hpieces
      h.dmem hret
    refine ⟨hwf, rfl, rfl, rfl, rfl, Memory.ext rfl ?_ rfl rfl ?_⟩
    · simp only [Memory.decommit, hbehind, if_pos hpooled]
      exact hat
    · simp only [Memory.decommit, hcount, if_pos hpooled, StdMap.ncard_Ico_add]
      rfl

theorem wf_markPoolReserved {w : VirtualMemoryArea} (hw : w.WF) : (markPoolReserved w).WF where
  pos := hw.pos
  backed := by simp [markPoolReserved, VMAType.hasPhysicalBacking]
  unbacked := by simp [markPoolReserved]
  free := by simp [markPoolReserved]

theorem repoolBacking_vmaMap {start : Nat} (hr : s.repoolBacking v start n = .ok s') :
    s'.vmaMap = s.vmaMap := by
  simp only [repoolBacking] at hr
  split at hr
  · rw [pure_eq_ok] at hr
    rw [hr]
  simp only [bind_eq_ok, pure_eq_ok] at hr
  obtain ⟨_, -, _, -, _, -, rfl⟩ := hr
  rfl

/-- A turn of the loop decommits its part of the range. -/
theorem poolDecommitTurn_eq_ok (h : s.Valid env) (haddr : addr < 2 ^ 64) (hn : n < 2 ^ 64)
    (hfloor : s.vmaMap.floor? addr = some (k, v)) {s₁ : MemoryManager} {map : VMAMap} {new : Nat}
    (hrepool : s.repoolBacking v (addr - k) n = .ok s₁)
    (hcarve : s.vmaMap.carveVMA addr n = .ok (map, new)) :
    new = addr ∧ s.vmaMap.Carved addr n v ∧
      Decommits env (Set.Ico addr (addr + n)) s { s₁ with
        vmaMap := (VMAMap.mergeAdjacent (map.modify new markPoolReserved) new).1 } := by
  obtain ⟨hk, -, -⟩ := StdMap.floor?_eq_some.1 hfloor
  simp only at hk
  obtain ⟨hhandle, v₁, w, hc, -, hw, hwbase, hwsize, -, hread, hrep⟩ :=
    h.vma.carve_modify haddr hn hcarve
  simp only at hhandle
  subst hhandle
  have hv₁ := hc.floor? h.vma
  rw [hfloor] at hv₁
  cases hv₁
  obtain ⟨hdmem, hfmem, -, htf, husage, hview⟩ := repoolBacking_eq_ok h hc hrepool
  have hrep := hrep markPoolReserved (wf_markPoolReserved hw) hwbase hwsize
  obtain ⟨hwf, hat⟩ := hrep.mergeAdjacent
  have hview' : MemoryManager.view { s₁ with
      vmaMap := (VMAMap.mergeAdjacent (map.modify new markPoolReserved) new).1 } =
      s.view.decommit (Set.Ico new (new + n)) := by
    rw [view_vmaMap, hview]
    refine Memory.ext ?_ rfl rfl rfl rfl
    funext p
    refine (hat p).trans ?_
    split
    · rename_i hp
      have hx := hread (p - new) (by omega)
      rw [Nat.add_sub_cancel' hp.1] at hx
      refine ((updateOn_of_mem (Set.mem_Ico.2 hp)).trans ?_).symm
      change (s.vmaMap.at? p).map _ = _
      rw [hx]
      rfl
    · rename_i hp
      exact (updateOn_of_notMem (mt Set.mem_Ico.1 hp)).symm
  refine ⟨rfl, hc, ⟨hdmem, hfmem ▸ h.fmem, hwf, hrep.coalesced_mergeAdjacent h.coalesced, ?_, ?_, ?_⟩,
    hview', Set.finite_Ico _ _⟩
  · rw [hview']
    exact h.sound.decommit
  · exact (husage.trans_le h.usage_le).trans_eq htf.symm
  · exact (congrArg Memory.budget hview).trans_lt (U64.add_lt _ _)

/-- The loop decommits its range. It starts at an address that is in use. -/
theorem poolDecommitLoop_eq_ok {fuel : Nat} (h : s.Valid env) (haddr : addr < 2 ^ 64)
    (hsize : size < 2 ^ 64) (hr : poolDecommitLoop fuel s addr size = .ok s') :
    Decommits env (Set.Ico addr (addr + size)) s s' ∧
      (0 < size → (s.view.virt addr).isSome) := by
  induction fuel generalizing s addr size with
  | zero => cases hr
  | succ fuel ih =>
    simp only [poolDecommitLoop] at hr
    split at hr
    · rename_i hzero
      rw [pure_eq_ok] at hr
      subst hr
      subst hzero
      refine ⟨⟨h, ?_, Set.finite_Ico _ _⟩, by omega⟩
      have hempty : Set.Ico addr (addr + 0) = ∅ := by simp
      rw [hempty, Memory.decommit_empty h.budget_lt]
    · rename_i hne
      simp only [VMAMap.findVMA, bind_eq_ok, deref_eq_ok] at hr
      obtain ⟨⟨k, v⟩, hfloor, s₁, hrepool, ⟨map, new⟩, hcarve, hr⟩ := hr
      obtain ⟨hk, hkle, -⟩ := StdMap.floor?_eq_some.1 hfloor
      simp only at hk hkle hrepool hcarve hr
      have hbase := h.vma.key k v hk
      have hend := h.vma.end_lt k v hk
      have hstart : U64.sub addr v.base = addr - k := by
        rw [U64.sub_of_le haddr (by omega), hbase]
      rw [hstart] at hrepool hcarve hr
      generalize hn : min size (U64.sub v.size (addr - k)) = n at hrepool hcarve hr
      have hnle : n ≤ size := by omega
      rw [repoolBacking_vmaMap hrepool] at hcarve
      obtain ⟨rfl, hc, hdec⟩ := poolDecommitTurn_eq_ok h haddr (by omega) hfloor hrepool hcarve
      have hpos := hc.pos
      have hfits := hc.fits
      have hnext : U64.add new n = new + n := U64.add_of_lt (by omega)
      rw [hnext] at hr
      obtain ⟨hrest, -⟩ := ih hdec.valid (by omega) (by omega) hr
      have hboth := hdec.trans hrest
      rw [Set.Ico_union_Ico_eq_Ico (by omega) (by omega)] at hboth
      have hsum : new + n + (size - n) = new + size := by omega
      refine ⟨hsum ▸ hboth, fun _ => ?_⟩
      have hx := virt_of_carved h.vma hc 0 hpos
      rw [Nat.add_zero] at hx
      simp [hx]

/-- The areas that end inside the range are those of a pool. -/
theorem decommitSearch_eq_true {endAddr : Nat} {es : List (Nat × VirtualMemoryArea)}
    (hs : es.Pairwise fun e e' => e.2.base + e.2.size ≤ e'.2.base)
    (hr : decommitSearch endAddr es = true) :
    ∀ e ∈ es, e.2.base + e.2.size ≤ endAddr →
      e.2.type = .poolReserved ∨ e.2.type = .pooled := by
  induction es with
  | nil => simp
  | cons e es ih =>
    obtain ⟨k, v⟩ := e
    rw [List.pairwise_cons] at hs
    simp only [decommitSearch] at hr
    intro e he hend
    split at hr
    · split at hr
      · cases hr
      · rename_i htype
        rcases List.mem_cons.1 he with rfl | hmem
        · simp only [ne_eq, Bool.and_eq_true, decide_eq_true_eq, not_and, Decidable.not_not] at htype
          by_cases hres : v.type = .poolReserved
          · exact .inl hres
          · exact .inr (htype hres)
        · exact ih hs.2 hr e hmem hend
    · rename_i hstop
      rcases List.mem_cons.1 he with rfl | hmem
      · exact absurd hend hstop
      · have := hs.1 e hmem
        simp only at this
        omega

/-- The areas the search stops at. -/
theorem decommitSearch_eq_false {endAddr : Nat} {es : List (Nat × VirtualMemoryArea)}
    (hr : decommitSearch endAddr es = false) :
    ∃ e ∈ es, e.2.base + e.2.size ≤ endAddr ∧ ¬(e.2.type = .poolReserved ∨ e.2.type = .pooled) := by
  induction es with
  | nil => cases hr
  | cons e es ih =>
    obtain ⟨k, v⟩ := e
    simp only [decommitSearch] at hr
    split at hr
    · rename_i hend
      split at hr
      · rename_i htype
        simp only [ne_eq, Bool.and_eq_true, decide_eq_true_eq] at htype
        exact ⟨(k, v), List.mem_cons_self, hend, not_or.2 htype⟩
      · obtain ⟨e, he, hforeign⟩ := ih hr
        exact ⟨e, List.mem_cons_of_mem _ he, hforeign⟩
    · cases hr

/-- The search accepts when the areas that end inside the range are those of a pool. -/
theorem decommitSearch_iff (h : s.vmaMap.WF) {endAddr : Nat}
    (hfloor : s.vmaMap.floor? addr = some (k, v)) (hlt : addr < k + v.size) :
    decommitSearch endAddr (s.vmaMap.startingAt k) = true ↔
      ∀ j w, s.vmaMap.find? j = some w → addr < j + w.size → j + w.size ≤ endAddr →
        w.type = .poolReserved ∨ w.type = .pooled := by
  obtain ⟨hk, hkle, -⟩ := StdMap.floor?_eq_some.1 hfloor
  simp only at hk hkle
  have hs : (s.vmaMap.startingAt k).Pairwise fun e e' => e.2.base + e.2.size ≤ e'.2.base := by
    refine StdMap.sorted_startingAt.imp_of_mem ?_
    rintro ⟨i, b⟩ ⟨j, c⟩ hi hj hlt
    have hib := (StdMap.mem_startingAt_iff.1 hi).1
    have hjc := (StdMap.mem_startingAt_iff.1 hj).1
    have hsep := h.separated i b j c hib hjc hlt
    rw [h.key i b hib, h.key j c hjc]
    exact hsep
  constructor
  · intro hsearch j w hj hover hend
    have hkj : k ≤ j := by
      by_contra hlt
      have := h.separated j w k v hj hk (by omega)
      simp only [area_size] at this
      omega
    exact decommitSearch_eq_true hs hsearch (j, w) (StdMap.mem_startingAt_iff.2 ⟨hj, hkj⟩)
      (by rw [h.key j w hj]; exact hend)
  · intro hall
    by_contra hsearch
    obtain ⟨⟨j, w⟩, hmem, hend, hforeign⟩ := decommitSearch_eq_false (Bool.not_eq_true _ ▸ hsearch)
    obtain ⟨hj, hkj⟩ := StdMap.mem_startingAt_iff.1 hmem
    rw [h.key j w hj] at hend
    refine hforeign (hall j w hj ?_ hend)
    rcases Nat.lt_or_eq_of_le hkj with hkj | rfl
    · have hsep := h.separated k v j w hk hj hkj
      have hpos := (h.entry j w hj).pos
      simp only [area_size] at hsep
      omega
    · rw [hk] at hj
      cases hj
      exact hlt

/-- The range ends strictly inside the area `v`. -/
def EndsInside (s : MemoryManager) (endAddr : Nat) (v : VirtualMemoryArea) : Prop :=
  s.vmaMap.find? v.base = some v ∧ v.base < endAddr ∧ endAddr < v.base + v.size

/-- `PoolDecommit`: an error and no change, or the range decommitted. A byte of it
    belongs to a pool or to the area in which the range ends. -/
theorem poolDecommit_eq_ok {r : Except OrbisError Unit} (h : s.Valid env) (haddr : addr < 2 ^ 64)
    (hsize : size < 2 ^ 64) (hpos : 0 < size)
    (hr : s.poolDecommit addr size = .ok (s', r)) :
    (∃ e, r = .error e ∧ s' = s) ∨
      (r = .ok () ∧ Decommits env (Set.Ico addr (addr + size)) s s' ∧ addr + size < 2 ^ 64 ∧
        ∀ p ∈ Set.Ico addr (addr + size), ∀ x, s.view.virt p = some x →
          x.type = .poolReserved ∨ x.type = .pooled ∨
            ∃ v, s.EndsInside (addr + size) v ∧ v.type = x.type) := by
  simp only [poolDecommit, VMAMap.findVMA, bind_eq_ok, deref_eq_ok, assertMsg_eq_ok] at hr
  obtain ⟨valid, hvalid, -, rfl, ⟨k, v⟩, hfloor, hr⟩ := hr
  simp only at hr
  split at hr
  · cases hr
    exact .inl ⟨_, rfl, rfl⟩
  rename_i hsearch
  simp only [Bool.not_eq_true', Bool.not_eq_false] at hsearch
  simp only [bind_eq_ok, pure_eq_ok, Prod.mk.injEq] at hr
  obtain ⟨s₁, hloop, rfl, rfl⟩ := hr
  obtain ⟨hdec, hstart⟩ := poolDecommitLoop_eq_ok h haddr hsize hloop
  have huse := isValidMapping_eq_true h.vma (hstart hpos) haddr hvalid
  have harea : ∀ p ∈ Set.Ico addr (addr + size), ∃ j w, s.vmaMap.find? j = some w ∧ j ≤ p ∧
      p < j + w.size := by
    intro p hp
    obtain ⟨x, hx⟩ := Option.isSome_iff_exists.1 (huse.2 p hp)
    obtain ⟨j, w, hj, hjle, hjlt, -⟩ := StdMap.exists_of_at? hx
    exact ⟨j, w, hj, hjle, hjlt⟩
  have hend : addr + size < 2 ^ 64 := by
    obtain ⟨j, w, hj, hjle, hjlt⟩ := harea (addr + size - 1)
      (Set.mem_Ico.2 ⟨by omega, by omega⟩)
    have := h.vma.end_lt j w hj
    omega
  rw [U64.add_of_lt hend] at hsearch
  obtain ⟨j, w, hj, hjle, hjlt⟩ := harea addr (Set.mem_Ico.2 ⟨le_rfl, by omega⟩)
  have hstart : s.vmaMap.floor? addr = some (j, w) := StdMap.floor?_of_mem h.vma.separated hj hjle
    (by simp only [area_size]; omega)
  rw [hstart] at hfloor
  cases hfloor
  refine .inr ⟨rfl, hdec, hend, fun p hp x hx => ?_⟩
  obtain ⟨i, u, hi, hile, hilt, rfl⟩ := StdMap.exists_of_at? hx
  have hbase := h.vma.key i u hi
  rw [Set.mem_Ico] at hp
  simp only [area_size] at hilt
  by_cases hin : i + u.size ≤ addr + size
  · exact ((decommitSearch_iff h.vma hstart hjlt).1 hsearch i u hi (by omega) hin).imp id .inl
  · exact .inr (.inr ⟨u, ⟨by rw [hbase]; exact hi, by omega, by omega⟩, rfl⟩)

end MemoryManager

end Core
