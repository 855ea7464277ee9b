-- SUMMARY: Allocating, pooling and releasing direct memory: which bytes each of them relabels, and what releasing unmaps first.
import W7PS4.Memory.Mapping

/-!
# Direct memory

`Allocate` and `PoolExpand` look for a free area that is large enough. `Free`
unmaps the direct mappings of a block and releases what is not free yet, counting
`size` bytes from the start of the block on.
-/

namespace Core

open Outcome (bind_eq_ok pure_eq_ok)
open List (mem_cons mem_cons_of_mem mem_cons_self pairwise_cons)
open PhysicalMemoryArea (area_size getEnd)

namespace PhysMap

variable {x : Extent} {map : PhysMap} {size alignment start k : Nat} {a : PhysicalMemoryArea}

/-! ## The search for a free area -/

/-- The area the search ends at is free. The range starts where it was asked to in
    the first area, and at the aligned start of an area after it. -/
theorem searchFreeArea_eq_some {es : List (Nat × PhysicalMemoryArea)} {r : Nat × Nat}
    (hr : searchFreeArea size alignment es start = some r) :
    ∃ a, (r.1, a) ∈ es ∧ a.dmaType = .free ∧ U64.add r.2 size ≤ a.getEnd ∧
      (r.2 = start ∧ es.head? = some (r.1, a) ∨ r.2 = alignUp a.base alignment) := by
  induction es generalizing start with
  | nil => cases hr
  | cons e es ih =>
    obtain ⟨k, a⟩ := e
    simp only [searchFreeArea] at hr
    split at hr
    · obtain ⟨b, hb, hfree, hend, hstart⟩ := ih hr
      refine ⟨b, mem_cons_of_mem _ hb, hfree, hend, .inr ?_⟩
      rcases hstart with ⟨hstart, hhead⟩ | hstart
      · simpa [hhead] using hstart
      · exact hstart
    · rename_i hfit
      simp only [ne_eq, Bool.or_eq_true, decide_eq_true_eq, not_or, Decidable.not_not,
        Nat.not_lt] at hfit
      cases hr
      exact ⟨a, mem_cons_self, hfit.1, hfit.2, .inl ⟨rfl, rfl⟩⟩

/-- What is carved from where the search ended is free, unless aligning the start
    of the search went back to before its first area. -/
theorem free_of_searchFreeArea (h : map.WF x) (hx : x.hi < 2 ^ 63) (hpos : 0 < size)
    (halign : 0 < alignment ∧ alignment < 2 ^ 64) {k₀ : Nat} {a₀ : PhysicalMemoryArea}
    (hk₀ : map.find? k₀ = some a₀) (hstart : k₀ ≤ start) {r : Nat × Nat}
    (hr : searchFreeArea size alignment (map.startingAt k₀) start = some r)
    (hc : Carved map r.2 size a) : a.dmaType = .free := by
  obtain ⟨b, hb, hfree, hend, hle⟩ := searchFreeArea_eq_some hr
  obtain ⟨hfind, -⟩ := StdMap.mem_startingAt_iff.1 hb
  have hbase := h.key _ b hfind
  have hbounds := h.bounds _ b hfind
  have hge : b.base ≤ r.2 := by
    rcases hle with ⟨hr2, hhead⟩ | hr2
    · rw [StdMap.startingAt_eq_cons hk₀ (Nat.lt_succ_self k₀) (fun i _ _ hi => hi),
        List.head?_cons] at hhead
      cases hhead
      omega
    · rw [hr2]
      exact le_alignUp halign.1 halign.2 (by omega)
  have hcfits := hc.fits
  have hcle := hc.le
  have hcbounds := h.bounds _ a hc.mem
  rw [U64.add_of_lt (by omega), getEnd] at hend
  have hsame := h.separated.unique hc.mem hfind hcle
    (by simp only [area_size]; omega) (by omega)
    (by simp only [area_size]; omega)
  have hmem := hc.mem
  rw [hsame, hfind] at hmem
  cases hmem
  exact hfree

end PhysMap

namespace MemoryManager

variable {env : Environment} {s s' : MemoryManager} {addr size n k : Nat}

/-! ## Allocating and pooling -/

theorem directExtent_hi_lt (env : Environment) : (directExtent env).hi < 2 ^ 60 := by
  have := flexibleExtent_hi_lt env
  simp only [flexibleExtent, directExtent] at this ⊢
  omega

theorem relabels_labelled (mt : Int) (t : PhysicalMemoryType) :
    PhysMap.Relabels (fun area => { area with memoryType := mt, dmaType := t })
      (PhysByte.labelled mt t) where
  base _ := rfl
  size _ := rfl
  byte _ _ := rfl

/-- Other labels of direct memory, or another budget. -/
theorem Valid.withDmem (h : s.Valid env) {map : PhysMap} {budget : Nat}
    (hwf : map.WF (directExtent env)) (hlt : budget < 2 ^ 64) :
    Valid env { s with dmemMap := map, poolBudget := budget } :=
  ⟨hwf, h.fmem, h.vma, h.coalesced, h.sound.congr rfl rfl rfl, h.usage_le, hlt⟩

variable {a : PhysicalMemoryArea} {es : List (Nat × PhysicalMemoryArea)} {phys : Nat} {checked : Bool}
  {remaining : Nat} {rs : List (Nat × Nat)} {r : Nat × Nat}

/-- The range that was carved is all there, and free if its area is. -/
theorem dmem_of_carved (h : s.Valid env) (hc : PhysMap.Carved s.dmemMap addr size a) :
    ∀ q ∈ Set.Ico addr (addr + size), ∃ b, s.view.dmem q = some b ∧ b.dmaType = a.dmaType := by
  intro q hq
  rw [Set.mem_Ico] at hq
  exact ⟨_, hc.at? h.dmem hq.1 hq.2, rfl⟩

theorem allocate_eq_ok {searchStart searchEnd alignment a : Nat} {mt : Int} (h : s.Valid env)
    (hstart : searchStart < 2 ^ 63) (halign : alignment < 2 ^ 64) (hsize : size < 2 ^ 64)
    (hpos : 0 < size)
    (hr : s.allocate env searchStart searchEnd size alignment mt = .ok (s', a)) :
    (a = U64.max ∧ s' = s) ∨ (a ≠ U64.max ∧ s'.Valid env ∧
      s'.view = s.view.relabelDirect (Set.Ico a (a + size)) (PhysByte.labelled mt .allocated) ∧
      ∀ q ∈ Set.Ico a (a + size), ∃ b, s.view.dmem q = some b ∧ b.dmaType = .free) := by
  simp only [allocate, bind_eq_ok, deref_eq_ok] at hr
  obtain ⟨⟨k, area⟩, hfloor, hr⟩ := hr
  obtain ⟨hk, hle, -⟩ := StdMap.floor?_eq_some.1 hfloor
  have hbase := h.dmem.key k area hk
  have hhi := directExtent_hi_lt env
  simp only at hk hle hr
  generalize hal : (if env.isLegacyBackend = true then
    max (if alignment > 0 then alignment else 16384) 65536
    else if alignment > 0 then alignment else 16384) = al at hr
  have halign : 0 < al ∧ al < 2 ^ 64 := by
    subst hal
    split_ifs <;> omega
  split at hr
  · cases hr
    exact .inl ⟨rfl, rfl⟩
  rename_i handle start hsearch
  split at hr
  · cases hr
    exact .inl ⟨rfl, rfl⟩
  simp only [bind_eq_ok, pure_eq_ok, Prod.mk.injEq] at hr
  obtain ⟨⟨map, new⟩, hcarve, rfl, rfl⟩ := hr
  obtain ⟨hwf, -, ⟨b, hc, -⟩, hat⟩ :=
    h.dmem.carve_modify hsize (relabels_labelled mt .allocated) (.inl hpos) hcarve
  have hfree := PhysMap.free_of_searchFreeArea h.dmem (by omega) hpos halign hk
    ((Nat.le_max_left searchStart area.base |> hle.trans).trans
      (le_alignUp halign.1 halign.2 (by have := h.dmem.bounds k area hk; omega))) hsearch hc
  have hcbounds := h.dmem.bounds _ b hc.mem
  have hcfits := hc.fits
  refine .inr ⟨?_, h.withDmem hwf.mergeAdjacent h.budget_lt, ?_, ?_⟩
  · simp only [U64.max]
    omega
  · refine Memory.ext rfl ?_ rfl rfl rfl
    exact (funext fun _ => PhysMap.at?_mergeAdjacent hwf).trans hat
  · intro q hq
    obtain ⟨c, hcq, hct⟩ := dmem_of_carved h hc q hq
    exact ⟨c, hcq, hct.trans hfree⟩

/-- `PoolExpand`. The bytes it takes are free unless aligning the start of the
    search wrapped around. -/
theorem poolExpand_eq_ok {searchStart searchEnd alignment a : Nat} (h : s.Valid env)
    (hstart : searchStart < 2 ^ 64) (halign : alignment < 2 ^ 64) (hsize : size < 2 ^ 64)
    (hpos : 0 < size)
    (hr : s.poolExpand searchStart searchEnd size alignment = .ok (s', a)) :
    (a = U64.max ∧ s' = s) ∨ (a ≠ U64.max ∧ s'.Valid env ∧
      s'.view = { s.view.relabelDirect (Set.Ico a (a + size)) (PhysByte.labelled 3 .pooled) with
        budget := U64.add s.poolBudget size } ∧
      (∀ q ∈ Set.Ico a (a + size), (s.view.dmem q).isSome) ∧
      (searchStart ≤ alignUp searchStart (if alignment > 0 then alignment else 0x10000) →
        ∀ q ∈ Set.Ico a (a + size), ∃ b, s.view.dmem q = some b ∧ b.dmaType = .free)) := by
  simp only [poolExpand, bind_eq_ok, deref_eq_ok] at hr
  obtain ⟨⟨k, area⟩, hfloor, hr⟩ := hr
  obtain ⟨hk, hle, -⟩ := StdMap.floor?_eq_some.1 hfloor
  have hbase := h.dmem.key k area hk
  have hbounds := h.dmem.bounds k area hk
  have hhi := directExtent_hi_lt env
  simp only at hk hle hr
  generalize hal : (if alignment > 0 then alignment else 0x10000) = al at hr ⊢
  have halign : 0 < al ∧ al < 2 ^ 64 := by
    subst hal
    split_ifs <;> omega
  split at hr
  · cases hr
    exact .inl ⟨rfl, rfl⟩
  rename_i handle start hsearch
  simp only [bind_eq_ok, pure_eq_ok, Prod.mk.injEq] at hr
  obtain ⟨⟨map, new⟩, hcarve, rfl, rfl⟩ := hr
  obtain ⟨hwf, -, ⟨b, hc, -⟩, hat⟩ :=
    h.dmem.carve_modify hsize (relabels_labelled 3 .pooled) (.inl hpos) hcarve
  have hcbounds := h.dmem.bounds _ b hc.mem
  have hcfits := hc.fits
  refine .inr ⟨?_, h.withDmem hwf (U64.add_lt _ _), Memory.ext rfl hat rfl rfl rfl, ?_, ?_⟩
  · simp only [U64.max]
    omega
  · intro q hq
    obtain ⟨c, hcq, -⟩ := dmem_of_carved h hc q hq
    simp [hcq]
  · intro hwrap q hq
    have hfirst : k ≤ if searchStart > area.base then alignUp searchStart al
        else alignUp area.base al := by
      split
      · omega
      · have : area.base ≤ alignUp area.base al := le_alignUp halign.1 halign.2 (by omega)
        omega
    have hfree := PhysMap.free_of_searchFreeArea h.dmem (by omega) hpos halign hk hfirst
      hsearch hc
    obtain ⟨c, hcq, hct⟩ := dmem_of_carved h hc q hq
    exact ⟨c, hcq, hct.trans hfree⟩

/-! ## What `Free` releases -/

/-- The bytes from `phys` on that the listed areas hold and that are not free. -/
def heldFrom (phys : Nat) (es : List (Nat × PhysicalMemoryArea)) : Set Nat :=
  {q | phys ≤ q ∧ ∃ e ∈ es, e.2.dmaType ≠ .free ∧ e.1 ≤ q ∧ q < e.1 + e.2.size}

theorem heldFrom_cons_free (ha : a.dmaType = .free) : heldFrom phys ((k, a) :: es) = heldFrom phys es := by
  simp [heldFrom, ha]

theorem heldFrom_cons (ha : a.dmaType ≠ .free) :
    heldFrom phys ((k, a) :: es) = Set.Ico (max phys k) (k + a.size) ∪ heldFrom phys es := by
  ext q
  simp only [heldFrom, mem_cons, exists_eq_or_imp, Set.mem_union, Set.mem_ofPred_eq,
    Set.mem_Ico]
  constructor
  · rintro ⟨hle, ⟨-, hk, hlt⟩ | hrest⟩
    · exact .inl ⟨by omega, hlt⟩
    · exact .inr ⟨hle, hrest⟩
  · rintro (⟨hle, hlt⟩ | ⟨hle, hrest⟩)
    · exact ⟨by omega, .inl ⟨ha, by omega, hlt⟩⟩
    · exact ⟨hle, .inr hrest⟩

theorem finite_heldFrom (phys : Nat) (es : List (Nat × PhysicalMemoryArea)) :
    (heldFrom phys es).Finite := by
  induction es with
  | nil => simp [heldFrom]
  | cons e es ih =>
    obtain ⟨k, a⟩ := e
    by_cases ha : a.dmaType = .free
    · rw [heldFrom_cons_free ha]
      exact ih
    · rw [heldFrom_cons ha]
      exact (Set.finite_Ico _ _).union ih

/-- What an area holds before `q`, when no area before it holds anything from `phys` on. -/
theorem ncard_heldFrom_cons {phys q : Nat} (ha : a.dmaType ≠ .free)
    (hafter : ∀ e ∈ es, k + a.size ≤ e.1) (hq : q ≤ k + a.size) :
    (heldFrom phys ((k, a) :: es) ∩ Set.Iio q).ncard = q - max phys k := by
  have hset : heldFrom phys ((k, a) :: es) ∩ Set.Iio q =
      Set.Ico (max phys k) (max phys k + (q - max phys k)) := by
    rw [heldFrom_cons ha]
    ext p
    constructor
    · rintro ⟨hp | ⟨-, e, he, -, hep, -⟩, hpq⟩
      · rw [Set.mem_Ico] at hp ⊢
        rw [Set.mem_Iio] at hpq
        omega
      · have := hafter e he
        rw [Set.mem_Iio] at hpq
        omega
    · intro hp
      rw [Set.mem_Ico] at hp
      exact ⟨.inl (Set.mem_Ico.2 ⟨hp.1, by omega⟩), Set.mem_Iio.2 (by omega)⟩
  rw [hset, StdMap.ncard_Ico_add]

/-- What comes before a byte past the first area: the rest of that area, and what the areas
    after it hold. -/
theorem ncard_heldFrom_cons_past {phys q : Nat} (ha : a.dmaType ≠ .free)
    (hafter : ∀ e ∈ es, k + a.size ≤ e.1) (hq : k + a.size ≤ q) :
    (heldFrom phys ((k, a) :: es) ∩ Set.Iio q).ncard =
      (k + a.size - max phys k) + (heldFrom phys es ∩ Set.Iio q).ncard := by
  have hset : heldFrom phys ((k, a) :: es) ∩ Set.Iio q =
      Set.Ico (max phys k) (max phys k + (k + a.size - max phys k)) ∪
        (heldFrom phys es ∩ Set.Iio q) := by
    rw [heldFrom_cons ha, Set.union_inter_distrib_right]
    congr 1
    ext p
    simp only [Set.mem_inter_iff, Set.mem_Ico, Set.mem_Iio]
    omega
  have hdisjoint : Disjoint (Set.Ico (max phys k) (max phys k + (k + a.size - max phys k)))
      (heldFrom phys es ∩ Set.Iio q) := by
    rw [Set.disjoint_left]
    rintro p hp ⟨⟨-, e, he, -, hep, -⟩, -⟩
    have := hafter e he
    rw [Set.mem_Ico] at hp
    omega
  rw [hset, Set.ncard_union_eq hdisjoint (Set.finite_Ico _ _)
    ((finite_heldFrom phys es).inter_of_left _), StdMap.ncard_Ico_add]

/-- The byte is on the list exactly if it is held and fewer than `remaining` held bytes
    come before it. -/
theorem mem_freeList_iff {phys q : Nat} (hs : es.Pairwise fun e e' => e.1 + e.2.size ≤ e'.1)
    (hreach : ∀ e ∈ es, e.2.dmaType ≠ .free → phys ≤ e.1 + e.2.size)
    (hsz : ∀ e ∈ es, e.2.size < 2 ^ 64)
    (hr : freeList phys checked es remaining = some rs) :
    (∃ r ∈ rs, r.1 ≤ q ∧ q < r.1 + r.2) ↔
      q ∈ heldFrom phys es ∧ (heldFrom phys es ∩ Set.Iio q).ncard < remaining := by
  induction es generalizing remaining rs with
  | nil =>
    cases hr
    simp [heldFrom]
  | cons e es ih =>
    obtain ⟨k, a⟩ := e
    rw [pairwise_cons] at hs
    have ih := fun {remaining rs} => @ih remaining rs hs.2
      (fun e he => hreach e (mem_cons_of_mem _ he))
      (fun e he => hsz e (mem_cons_of_mem _ he))
    simp only [freeList] at hr
    split at hr
    · next hzero =>
      cases hr
      simp [hzero]
    split at hr
    · next hfree =>
      rw [heldFrom_cons_free hfree]
      split at hr
      · cases hr
      · exact ih hr
    · next hheld =>
      have hend : phys ≤ k + a.size := hreach (k, a) mem_cons_self hheld
      have hsize : a.size < 2 ^ 64 := hsz (k, a) mem_cons_self
      rw [U64.sub_of_le hsize (by omega)] at hr
      obtain ⟨rest, hrest, rfl⟩ := Option.map_eq_some_iff.1 hr
      have hlater : (∃ r ∈ rest, r.1 ≤ q ∧ q < r.1 + r.2) → k + a.size ≤ q := by
        intro h
        obtain ⟨⟨-, e, he, -, hle, -⟩, -⟩ := (ih hrest).1 h
        exact (hs.1 e he).trans hle
      simp only [mem_cons, exists_eq_or_imp]
      rcases Nat.lt_or_ge q (k + a.size) with hq | hq
      · -- in the first area only what lies before `q` in it comes before
        rw [ncard_heldFrom_cons hheld hs.1 hq.le, heldFrom_cons hheld]
        constructor
        · rintro (⟨hle, hlt⟩ | hmem)
          · exact ⟨.inl (Set.mem_Ico.2 ⟨hle, hq⟩), by omega⟩
          · have := hlater hmem
            omega
        · rintro ⟨hin | ⟨-, e, he, -, hle, -⟩, hcard⟩
          · rw [Set.mem_Ico] at hin
            exact .inl ⟨hin.1, by omega⟩
          · have := hs.1 e he
            simp only at this
            omega
      · rw [ncard_heldFrom_cons_past hheld hs.1 hq, heldFrom_cons hheld]
        constructor
        · rintro (⟨hle, hlt⟩ | hmem)
          · omega
          · obtain ⟨hin, hcard⟩ := (ih hrest).1 hmem
            exact ⟨.inr hin, by omega⟩
        · rintro ⟨hin | hin, hcard⟩
          · rw [Set.mem_Ico] at hin
            omega
          · exact .inr ((ih hrest).2 ⟨hin, by omega⟩)

/-- A checked list: as many held bytes as are asked for come before any free area. -/
theorem remaining_le_of_freeList {phys q : Nat} (hs : es.Pairwise fun e e' => e.1 + e.2.size ≤ e'.1)
    (hreach : ∀ e ∈ es, e.2.dmaType ≠ .free → phys ≤ e.1 + e.2.size)
    (hsz : ∀ e ∈ es, e.2.size < 2 ^ 64)
    (hr : freeList phys true es remaining = some rs) {e : Nat × PhysicalMemoryArea}
    (he : e ∈ es) (hfree : e.2.dmaType = .free) (hq : e.1 ≤ q) :
    remaining ≤ (heldFrom phys es ∩ Set.Iio q).ncard := by
  induction es generalizing remaining rs with
  | nil => cases he
  | cons e' es ih =>
    obtain ⟨k, a⟩ := e'
    rw [pairwise_cons] at hs
    simp only [freeList] at hr
    split at hr
    · next hzero => exact hzero ▸ Nat.zero_le _
    split at hr
    · simp at hr
    rename_i hheld
    have hend : phys ≤ k + a.size := hreach (k, a) mem_cons_self hheld
    have hsize : a.size < 2 ^ 64 := hsz (k, a) mem_cons_self
    rw [U64.sub_of_le hsize (by omega)] at hr
    obtain ⟨rest, hrest, rfl⟩ := Option.map_eq_some_iff.1 hr
    rcases List.mem_cons.1 he with rfl | hmem
    · exact absurd hfree hheld
    · have hafter := hs.1 e hmem
      simp only at hafter
      have hcard := ih hs.2 (fun e he => hreach e (mem_cons_of_mem _ he))
        (fun e he => hsz e (mem_cons_of_mem _ he)) hrest hmem
      rw [ncard_heldFrom_cons_past hheld hs.1 (hafter.trans hq)]
      omega

/-- A list is refused at a free area that fewer held bytes come before than are asked for. -/
theorem freeList_eq_none (hs : es.Pairwise fun e e' => e.1 + e.2.size ≤ e'.1)
    (hreach : ∀ e ∈ es, e.2.dmaType ≠ .free → phys ≤ e.1 + e.2.size)
    (hsz : ∀ e ∈ es, e.2.size < 2 ^ 64) (hr : freeList phys checked es remaining = none) :
    checked ∧ ∃ e ∈ es, e.2.dmaType = .free ∧
      (heldFrom phys es ∩ Set.Iio e.1).ncard < remaining ∧
      ∀ e' ∈ es, e'.1 < e.1 → e'.2.dmaType ≠ .free := by
  induction es generalizing remaining with
  | nil => cases hr
  | cons e es ih =>
    obtain ⟨k, a⟩ := e
    rw [pairwise_cons] at hs
    simp only [freeList] at hr
    split at hr
    · cases hr
    split at hr
    · next hpos hfree =>
      have hbefore : heldFrom phys es ∩ Set.Iio k = ∅ := by
        rw [Set.eq_empty_iff_forall_notMem]
        rintro p ⟨⟨-, e, he, -, hle, -⟩, hp⟩
        have := hs.1 e he
        rw [Set.mem_Iio] at hp
        simp only at this
        omega
      split at hr
      · next hchecked =>
        refine ⟨hchecked, (k, a), mem_cons_self, hfree, ?_, ?_⟩
        · rw [heldFrom_cons_free hfree, hbefore, Set.ncard_empty]
          exact Nat.pos_of_ne_zero hpos
        · rintro e he hlt
          rcases List.mem_cons.1 he with rfl | hmem
          · exact absurd hlt (lt_irrefl _)
          · have := hs.1 e hmem
            simp only at this hlt
            omega
      · next hchecked =>
        exact absurd (ih hs.2 (fun e he => hreach e (mem_cons_of_mem _ he))
          (fun e he => hsz e (mem_cons_of_mem _ he)) hr).1 hchecked
    · next hheld =>
      have hend : phys ≤ k + a.size := hreach (k, a) mem_cons_self hheld
      have hsize : a.size < 2 ^ 64 := hsz (k, a) mem_cons_self
      rw [U64.sub_of_le hsize (by omega), Option.map_eq_none_iff] at hr
      obtain ⟨hchecked, e, he, hfree, hcard, hfirst⟩ := ih hs.2
        (fun e he => hreach e (mem_cons_of_mem _ he))
        (fun e he => hsz e (mem_cons_of_mem _ he)) hr
      refine ⟨hchecked, e, mem_cons_of_mem _ he, hfree, ?_, ?_⟩
      · rw [ncard_heldFrom_cons_past hheld hs.1 (hs.1 e he)]
        omega
      · intro e' he' hlt
        rcases List.mem_cons.1 he' with rfl | hmem
        · exact hheld
        · exact hfirst e' hmem hlt

/-- The bytes from `phys` on that `Free` finds in the map. -/
theorem heldFrom_startingAt (h : s.Valid env) (hfloor : s.dmemMap.floor? phys = some (k, a)) {q : Nat} :
    q ∈ heldFrom phys (s.dmemMap.startingAt k) ↔ phys ≤ q ∧ q ∈ s.view.held := by
  constructor
  · rintro ⟨hle, ⟨j, b⟩, hmem, hheld, hjle, hjlt⟩
    obtain ⟨hj, -⟩ := StdMap.mem_startingAt_iff.1 hmem
    exact ⟨hle, _, StdMap.at?_of_find? h.dmem.separated hj hjle hjlt, hheld⟩
  · rintro ⟨hle, b, hb, hheld⟩
    obtain ⟨⟨j, c⟩, hmem, hjle, hjlt, htype⟩ := exists_startingAt_of_at? h.dmem hfloor hle hb
    obtain ⟨hj, -⟩ := StdMap.mem_startingAt_iff.1 hmem
    have hbase := h.dmem.key j c hj
    simp only at hjle hjlt htype
    exact ⟨hle, (j, c), hmem, htype ▸ hheld, by simp only; omega, by simp only; omega⟩

/-- Releasing a list of ranges. -/
theorem releaseAll_eq_ok {x : PhysMap.Extent} (hx : x.shrinks) {map map' : PhysMap}
    (h : map.WF x) (hrs : ∀ r ∈ rs, r.2 < 2 ^ 64) (hr : rs.foldlM (fun (map : PhysMap) (r : Nat × Nat) =>
      map.retype r.1 r.2 fun area => { area with dmaType := .free, memoryType := 0 }) map =
        .ok map') :
    map'.WF x ∧ (∀ r ∈ rs, ∀ q, r.1 ≤ q → q < r.1 + r.2 → (map.at? q).isSome) ∧
      map'.at? = updateOn {q | ∃ r ∈ rs, r.1 ≤ q ∧ q < r.1 + r.2} (PhysByte.labelled 0 .free)
        map.at? := by
  induction rs generalizing map with
  | nil =>
    rw [List.foldlM_nil, pure_eq_ok] at hr
    subst hr
    simp [h]
  | cons r rs ih =>
    simp only [List.foldlM_cons, bind_eq_ok] at hr
    obtain ⟨map₁, hret, hr⟩ := hr
    obtain ⟨hwf, ⟨a, hc⟩, hat⟩ := h.retype (hrs r mem_cons_self)
      (relabels_labelled 0 .free) (.inr ⟨hx, fun _ => rfl⟩) hret
    obtain ⟨hwf', hin, hat'⟩ := ih hwf (fun r hr => hrs r (mem_cons_of_mem _ hr)) hr
    refine ⟨hwf', ?_, ?_⟩
    · intro e he q hq hq'
      rcases List.mem_cons.1 he with rfl | hmem
      · rw [hc.at? h hq hq']
        rfl
      · have := hin e hmem q hq hq'
        rwa [hat, isSome_updateOn] at this
    · have hidem : ∀ b, PhysByte.labelled 0 .free (PhysByte.labelled 0 .free b) =
          PhysByte.labelled 0 .free b := fun _ => rfl
      rw [hat', hat, updateOn_updateOn hidem]
      congr 1
      ext q
      simp [Set.mem_Ico]

/-- Unmapping a list of ranges that are in use. -/
theorem unmapAll_eq_ok (h : s.Valid env) (hrs : ∀ r ∈ rs, s.InUse r.1 r.2 ∧ r.2 < 2 ^ 64)
    (hr : rs.foldlM (fun s r => s.unmapMemoryImpl r.1 r.2) s = .ok s') :
    Unmaps env {p | ∃ r ∈ rs, r.1 ≤ p ∧ p < r.1 + r.2} s s' := by
  induction rs generalizing s with
  | nil =>
    rw [List.foldlM_nil, pure_eq_ok] at hr
    subst hr
    simpa using Unmaps.refl h
  | cons r rs ih =>
    simp only [List.foldlM_cons, bind_eq_ok] at hr
    obtain ⟨s₁, himpl, hr⟩ := hr
    obtain ⟨huse, hlt⟩ := hrs r mem_cons_self
    obtain ⟨hu, -⟩ := unmapMemoryImpl_eq_ok h huse hlt himpl
    have hrest := ih hu.valid ?_ hr
    · have hboth := hu.trans hrest
      have hset : Set.Ico r.1 (r.1 + r.2) ∪ {p | ∃ e ∈ rs, e.1 ≤ p ∧ p < e.1 + e.2} =
          {p | ∃ e ∈ r :: rs, e.1 ≤ p ∧ p < e.1 + e.2} := by
        ext p
        simp [Set.mem_Ico]
      rwa [hset] at hboth
    · intro e he
      obtain ⟨⟨hbound, hall⟩, hlt⟩ := hrs e (mem_cons_of_mem _ he)
      refine ⟨⟨hbound, fun p hp => ?_⟩, hlt⟩
      rw [hu.isSome_virt]
      exact hall p hp

/-! ## What `Free` unmaps -/

/-- The bytes of the direct pieces that overlap the block: from the first one in
    the block on, at most `size` of each piece. -/
def freeUnmaps (s : MemoryManager) (phys size : Nat) : Set Nat :=
  {p | ∃ k v o e i, s.vmaMap.find? k = some v ∧ v.type = .direct ∧
    v.physAreas.find? o = some e ∧ e.base < phys + size ∧ phys < e.base + e.size ∧ i < e.size ∧
    phys ≤ e.base + i ∧ e.base + i < max e.base phys + size ∧ p = k + o + i}

/-- A range on the list is part of a direct piece. -/
theorem exists_piece_of_mem_removeList (h : s.vmaMap.WF) (hr : r ∈ removeList s.vmaMap phys size) :
    ∃ k v o e, s.vmaMap.find? k = some v ∧ v.type = .direct ∧ v.physAreas.find? o = some e ∧
      e.base < U64.add phys size ∧ phys < e.base + e.size ∧
      r = (k + o + (max e.base phys - e.base), min (e.size - (max e.base phys - e.base)) size) := by
  simp only [removeList, List.mem_flatMap] at hr
  obtain ⟨⟨k, v⟩, hk, hr⟩ := hr
  rw [StdMap.mem_entries_iff] at hk
  split at hr
  · cases hr
  rename_i htype
  simp only [List.mem_filterMap] at hr
  obtain ⟨⟨o, e⟩, he, hr⟩ := hr
  simp only [removeEntry] at hr
  split at hr
  · rename_i hover
    cases hr
    rw [h.key k v hk]
    exact ⟨k, v, o, e, hk, by simpa using htype, StdMap.mem_entries_iff.1 he, hover.1, hover.2, rfl⟩
  · cases hr

theorem mem_removeList (h : s.vmaMap.WF) {phys o : Nat} {v : VirtualMemoryArea}
    {e : PhysicalMemoryArea} (hk : s.vmaMap.find? k = some v) (htype : v.type = .direct)
    (he : v.physAreas.find? o = some e) (hlt : e.base < U64.add phys size)
    (hover : phys < e.base + e.size) :
    (k + o + (max e.base phys - e.base), min (e.size - (max e.base phys - e.base)) size) ∈
      removeList s.vmaMap phys size := by
  simp only [removeList, List.mem_flatMap]
  refine ⟨(k, v), StdMap.mem_entries_iff.2 hk, ?_⟩
  simp only [htype, ne_eq, not_true_eq_false, if_false, List.mem_filterMap]
  refine ⟨(o, e), StdMap.mem_entries_iff.2 he, ?_⟩
  simp [removeEntry, hlt, hover, h.key k v hk]

theorem maps_of_mem_removeList (h : s.vmaMap.WF) {phys p : Nat}
    (hr : r ∈ removeList s.vmaMap phys size) (hle : r.1 ≤ p) (hlt : p < r.1 + r.2) :
    ∃ q, phys ≤ q ∧ s.view.Maps .direct p q := by
  obtain ⟨k, v, o, e, hk, htype, he, -, hover, rfl⟩ := exists_piece_of_mem_removeList h hr
  simp only at hle hlt
  have hread := virt_of_piece h hk (htype ▸ rfl) he (i := p - (k + o)) (by omega)
  rw [Nat.add_sub_cancel' (by omega)] at hread
  refine ⟨_, ?_, _, _, hread, htype, rfl, rfl⟩
  simp only
  omega

theorem inUse_of_mem_removeList (h : s.vmaMap.WF)
    (hr : r ∈ removeList s.vmaMap phys size) : s.InUse r.1 r.2 := by
  refine ⟨?_, fun p hp => ?_⟩
  · obtain ⟨k, v, o, e, hk, htype, he, -, hover, rfl⟩ := exists_piece_of_mem_removeList h hr
    have hle := ((h.entry k v hk).backed (htype ▸ rfl)).le o e he
    have hend := h.end_lt k v hk
    simp only [area_size] at hle ⊢
    omega
  · rw [Set.mem_Ico] at hp
    obtain ⟨q, -, x, b, hx, -⟩ := maps_of_mem_removeList h hr hp.1 hp.2
    simp [hx]

theorem removeList_eq_freeUnmaps (h : s.vmaMap.WF) (hlt : phys + size < 2 ^ 64) :
    {p | ∃ r ∈ removeList s.vmaMap phys size, r.1 ≤ p ∧ p < r.1 + r.2} =
      s.freeUnmaps phys size := by
  have hadd : U64.add phys size = phys + size := U64.add_of_lt hlt
  ext p
  constructor
  · rintro ⟨r, hr, hle, hlt'⟩
    obtain ⟨k, v, o, e, hk, htype, he, hbase, hover, rfl⟩ := exists_piece_of_mem_removeList h hr
    rw [hadd] at hbase
    simp only at hle hlt'
    exact ⟨k, v, o, e, p - (k + o), hk, htype, he, hbase, hover, by omega, by omega, by omega,
      by omega⟩
  · rintro ⟨k, v, o, e, i, hk, htype, he, hbase, hover, hi, hphys, hend, rfl⟩
    refine ⟨_, mem_removeList h hk htype he (by rw [hadd]; exact hbase) hover, ?_, ?_⟩
    · simp only
      omega
    · simp only
      omega

/-! ## `Free` -/

private theorem freeList_size_le
    (hr : freeList phys checked es remaining = some rs) : ∀ r ∈ rs, r.2 ≤ remaining := by
  induction es generalizing remaining rs with
  | nil =>
    cases hr
    simp
  | cons e es ih =>
    obtain ⟨k, a⟩ := e
    simp only [freeList] at hr
    split at hr
    · cases hr
      simp
    split at hr
    · split at hr
      · cases hr
      · exact ih hr
    obtain ⟨rest, hrest, rfl⟩ := Option.map_eq_some_iff.1 hr
    intro r hr
    rcases List.mem_cons.1 hr with rfl | hmem
    · exact Nat.min_le_left _ _
    · exact (ih hrest r hmem).trans (Nat.sub_le _ _)

/-- The search of `Free` does not start in a gap of the map, or else releasing
    would fail. -/
private theorem reach_of_freeList (h : s.Valid env) (hpos : 0 < size) (hphys : phys < 2 ^ 64)
    (hfloor : s.dmemMap.floor? phys = some (k, a))
    (hr : freeList phys checked (s.dmemMap.startingAt k) size = some rs)
    (hin : ∀ r ∈ rs, ∀ q, r.1 ≤ q → q < r.1 + r.2 → (s.dmemMap.at? q).isSome) :
    ∀ e ∈ s.dmemMap.startingAt k, e.2.dmaType ≠ .free → phys ≤ e.1 + e.2.size := by
  obtain ⟨hk, hkle, hmax⟩ := StdMap.floor?_eq_some.1 hfloor
  simp only at hk hkle hmax
  rintro ⟨j, b⟩ hmem hheld
  obtain ⟨hj, hkj⟩ := StdMap.mem_startingAt_iff.1 hmem
  by_contra hgap
  simp only at hheld hgap
  have hjk : j = k := Nat.le_antisymm (hmax j b hj (by omega)) hkj
  subst hjk
  rw [hk] at hj
  cases hj
  have hbounds := h.dmem.bounds j a hk
  have hhi := h.dmem.hi_lt
  rw [StdMap.startingAt_eq_cons hk (Nat.lt_succ_self j) (fun i _ _ hi => hi)] at hr
  simp only [freeList, Nat.ne_of_gt hpos, if_false, if_neg hheld] at hr
  obtain ⟨rest, -, rfl⟩ := Option.map_eq_some_iff.1 hr
  have hsub : 0 < U64.sub a.size (max phys j - j) := by
    rw [Nat.pos_iff_ne_zero]
    intro hzero
    have := U64.eq_of_sub_eq_zero (by omega) (by omega) hzero
    omega
  have hsome := hin _ mem_cons_self phys (by simp only; omega) (by simp only; omega)
  obtain ⟨c, hc⟩ := Option.isSome_iff_exists.1 hsome
  obtain ⟨i, d, hi, hile, hilt, -⟩ := StdMap.exists_of_at? hc
  simp only [area_size] at hilt
  have hij := hmax i d hi hile
  rcases Nat.lt_or_eq_of_le hij with hlt | rfl
  · have := h.dmem.separated i d j a hi hk hlt
    simp only [area_size] at this
    omega
  · rw [hk] at hi
    cases hi
    omega

theorem pairwise_startingAt (h : s.Valid env) :
    (s.dmemMap.startingAt k).Pairwise fun e e' => e.1 + e.2.size ≤ e'.1 := by
  refine StdMap.sorted_startingAt.imp_of_mem ?_
  rintro ⟨i, b⟩ ⟨j, c⟩ hi hj hlt
  exact h.dmem.separated i b j c (StdMap.mem_startingAt_iff.1 hi).1
    (StdMap.mem_startingAt_iff.1 hj).1 hlt

theorem size_lt_of_mem_startingAt (h : s.Valid env) :
    ∀ e ∈ s.dmemMap.startingAt k, e.2.size < 2 ^ 64 := by
  rintro ⟨i, b⟩ hi
  have := h.dmem.bounds i b (StdMap.mem_startingAt_iff.1 hi).1
  have := h.dmem.hi_lt
  simp only
  omega

/-- What comes before `q` among the bytes `Free` finds. -/
theorem heldFrom_startingAt_inter (h : s.Valid env) {phys q : Nat}
    (hfloor : s.dmemMap.floor? phys = some (k, a)) :
    heldFrom phys (s.dmemMap.startingAt k) ∩ Set.Iio q = s.view.held ∩ Set.Ico phys q := by
  ext p
  rw [Set.mem_inter_iff, heldFrom_startingAt h hfloor]
  simp only [Set.mem_Iio, Set.mem_inter_iff, Set.mem_Ico]
  tauto

/-- `Free`: a call out of bounds, a refused list, or the mappings of the block unmapped and
    the bytes on the list released. -/
theorem free_eq_ok {r : Except OrbisError Unit} (h : s.Valid env)
    (hphys : phys < 2 ^ 64) (hsize : size < 2 ^ 64) (hpos : 0 < size)
    (hr : s.free phys size checked = .ok (s', r)) :
    (s' = s ∧ (r = .ok () → ¬checked) ∧
      (s.totalDirectSize < phys ∨ checked ∧ s.totalDirectSize < U64.add phys size)) ∨
    ∃ k a, phys ≤ s.totalDirectSize ∧ (checked → U64.add phys size ≤ s.totalDirectSize) ∧
      s.dmemMap.floor? phys = some (k, a) ∧
      (s' = s ∧ r = .error .ENOENT ∧ freeList phys checked (s.dmemMap.startingAt k) size = none ∨
        r = .ok () ∧ s'.Valid env ∧
          (∃ rs, freeList phys checked (s.dmemMap.startingAt k) size = some rs) ∧ ∃ U,
          s'.view = (s.view.unmap U).relabelDirect (s.view.firstHeld phys size)
            (PhysByte.labelled 0 .free) ∧
          (∀ p ∈ U, ∃ q, phys ≤ q ∧ s.view.Maps .direct p q) ∧
          (phys + size < 2 ^ 64 → U = s.freeUnmaps phys size)) := by
  simp only [free] at hr
  split at hr
  · next hout =>
    cases hr
    refine .inl ⟨rfl, ?_, hout⟩
    cases checked <;> simp
  · next hin =>
    simp only [bind_eq_ok, deref_eq_ok] at hr
    obtain ⟨⟨k, a⟩, hfloor, hr⟩ := hr
    refine .inr ⟨k, a, by omega,
      fun hc => Nat.le_of_not_lt fun hlt => hin (.inr ⟨hc, hlt⟩), hfloor, ?_⟩
    simp only at hr
    split at hr
    · next hlist =>
      cases hr
      exact .inl ⟨rfl, rfl, hlist⟩
    rename_i released hlist
    simp only [bind_eq_ok, pure_eq_ok, Prod.mk.injEq] at hr
    obtain ⟨s₁, hunmap, map, hrelease, rfl, rfl⟩ := hr
    have hu := unmapAll_eq_ok h (fun r hr => ?_) hunmap
    · obtain ⟨hwf, hin, hat⟩ := releaseAll_eq_ok rfl hu.valid.dmem
        (fun r hr => (freeList_size_le hlist r hr).trans_lt hsize) hrelease
      have hin' : ∀ r ∈ released, ∀ q, r.1 ≤ q → q < r.1 + r.2 → (s.dmemMap.at? q).isSome := by
        intro r hr q hq hq'
        have hsome : (s₁.view.dmem q).isSome := hin r hr q hq hq'
        rw [hu.view] at hsome
        exact isSome_updateOn ▸ hsome
      have hset : {q | ∃ r ∈ released, r.1 ≤ q ∧ q < r.1 + r.2} = s.view.firstHeld phys size := by
        ext q
        rw [Set.mem_ofPred_eq, mem_freeList_iff (pairwise_startingAt h)
          (reach_of_freeList h hpos hphys hfloor hlist hin') (size_lt_of_mem_startingAt h) hlist,
          heldFrom_startingAt h hfloor, heldFrom_startingAt_inter h hfloor]
        simp only [Memory.firstHeld, Set.mem_ofPred_eq]
        tauto
      refine .inr ⟨rfl, hu.valid.withDmem hwf hu.valid.budget_lt, ⟨_, hlist⟩, _, ?_, ?_,
        fun hlt => removeList_eq_freeUnmaps h.vma hlt⟩
      · rw [← hset, ← hu.view]
        exact Memory.ext rfl hat rfl rfl rfl
      · rintro p ⟨r, hr, hle, hlt⟩
        exact maps_of_mem_removeList h.vma hr hle hlt
    · refine ⟨inUse_of_mem_removeList h.vma hr, ?_⟩
      obtain ⟨_, _, _, _, -, -, -, -, -, rfl⟩ := exists_piece_of_mem_removeList h.vma hr
      exact (Nat.min_le_right _ _).trans_lt hsize

end MemoryManager

end Core
