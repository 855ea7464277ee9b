-- SUMMARY: What `Free` releases and unmaps compared with the range it was given.
import W7PS4.Memory.DirectState
import W7PS4.Memory.Limits

/-!
# Releasing a range of direct memory

`Free` counts down the size of its range while it skips free areas, so an unchecked call on a
range with a gap goes on past the end of the range until it has released as many bytes. The
list of what to unmap is cut at the size of the range and not at its end, so a mapped piece
that starts after the range does is unmapped past the end of the range. Where neither happens
the call keeps to its range, and only there.
-/

namespace Core

namespace MemoryManager

variable {env : Environment} {s s' : MemoryManager} {phys size k : Nat} {checked : Bool}

/-- A `Free` that keeps to its range: the labels of direct memory and the mappings of memory
    outside the range are as before, and after success the range is free. -/
structure FreeFrame (s s' : MemoryManager) (phys size : Nat) (r : Reply) : Prop where
  dmem : ∀ q, q ∉ Set.Ico phys (phys + size) → s'.view.dmem q = s.view.dmem q
  maps : ∀ t p q, q ∉ Set.Ico phys (phys + size) → s.view.Maps t p q → s'.view.Maps t p q
  freed : r = .ok → ∀ q ∈ Set.Ico phys (phys + size), q ∈ s.view.held → s'.view.dma q = some .free

/-- `Free` does nothing: the range is out of bounds, or a checked call has a free byte in it. -/
def FreeRefused (s : MemoryManager) (phys size : Nat) (checked : Bool) : Prop :=
  s.totalDirectSize < phys ∨ checked ∧ (s.totalDirectSize < U64.add phys size ∨
    ∃ q ∈ Set.Ico phys (phys + size), s.view.dma q = some .free)

/-- A mapped piece of direct memory starts inside the range and ends after it. -/
def PieceLeaves (s : MemoryManager) (phys size : Nat) : Prop :=
  ∃ k v o e, s.vmaMap.find? k = some v ∧ v.type = .direct ∧ v.physAreas.find? o = some e ∧
    phys < e.base ∧ e.base < phys + size ∧ phys + size < e.base + e.size

/-- Where `Free` keeps to its range: it does nothing, or the range has no gap or no held byte
    after it, and no mapped piece leaves it. -/
def FreeFits (s : MemoryManager) (phys size : Nat) (checked : Bool) : Prop :=
  s.FreeRefused phys size checked ∨
    ((∀ q ∈ Set.Ico phys (phys + size), q ∈ s.view.held) ∨ ∀ q ∈ s.view.held, q < phys + size) ∧
      ¬s.PieceLeaves phys size

/-! ## The list of what to release -/

variable {m : Memory} {a : PhysicalMemoryArea}

theorem maps_unique {t t' : VMAType} {p q q' : Nat} (h : m.Maps t p q)
    (h' : m.Maps t' p q') : t = t' ∧ q = q' := by
  obtain ⟨x, b, hx, rfl, hb, rfl⟩ := h
  obtain ⟨x', b', hx', rfl, hb', rfl⟩ := h'
  rw [hx] at hx'
  cases hx'
  rw [hb] at hb'
  cases hb'
  exact ⟨rfl, rfl⟩

theorem held_lt (h : s.Valid env) {q : Nat} (hq : q ∈ s.view.held) : q < 2 ^ 60 := by
  obtain ⟨b, hb, -⟩ := hq
  exact (Valid.dmem_lt h.dmem hb).trans (directExtent_hi_lt env)

theorem mem_firstHeld_of_mem_Ico {q : Nat} (hq : q ∈ Set.Ico phys (phys + size))
    (hheld : q ∈ m.held) : q ∈ m.firstHeld phys size := by
  rw [Set.mem_Ico] at hq
  refine ⟨hheld, hq.1, ?_⟩
  have hcard := Set.ncard_le_ncard (Set.inter_subset_right (s := m.held) (t := Set.Ico phys q))
    (Set.finite_Ico _ _)
  have hsize := StdMap.ncard_Ico_add phys (q - phys)
  rw [Nat.add_sub_cancel' hq.1] at hsize
  omega

/-- The first `size` held bytes are those of the range, unless there is a gap in the range and
    a held byte after it. -/
theorem firstHeld_subset_iff : m.firstHeld phys size ⊆ Set.Ico phys (phys + size) ↔
      (∀ q ∈ Set.Ico phys (phys + size), q ∈ m.held) ∨ ∀ q ∈ m.held, q < phys + size := by
  constructor
  · intro hsub
    by_contra hneither
    rw [not_or] at hneither
    obtain ⟨hgap, hpast⟩ := hneither
    push Not at hgap hpast
    obtain ⟨g, hg, hgheld⟩ := hgap
    classical
    have hex : ∃ q, q ∈ m.held ∧ phys + size ≤ q := hpast
    obtain ⟨hheld, hge⟩ := Nat.find_spec hex
    have hfirst : ∀ q ∈ m.held, q < Nat.find hex → q < phys + size := by
      intro q hq hlt
      by_contra hle
      exact Nat.find_min hex hlt ⟨hq, Nat.le_of_not_lt hle⟩
    generalize Nat.find hex = q at hheld hge hfirst
    have hcard : (m.held ∩ Set.Ico phys q).ncard < size := by
      have hsub : m.held ∩ Set.Ico phys q ⊂ Set.Ico phys (phys + size) := by
        refine ⟨fun p hp => ?_, fun hsub => hgheld (hsub hg).1⟩
        exact Set.mem_Ico.2 ⟨hp.2.1, hfirst p hp.1 hp.2.2⟩
      have := Set.ncard_lt_ncard hsub (Set.finite_Ico _ _)
      rwa [StdMap.ncard_Ico_add] at this
    have hmem := hsub ⟨hheld, by omega, hcard⟩
    rw [Set.mem_Ico] at hmem
    omega
  · rintro (hall | hnone) q ⟨hheld, hle, hcard⟩
    · by_contra hout
      have hge : phys + size ≤ q := by
        rw [Set.mem_Ico] at hout
        omega
      have hsub : Set.Ico phys (phys + size) ⊆ m.held ∩ Set.Ico phys q := by
        intro p hp
        have hp' := Set.mem_Ico.1 hp
        exact ⟨hall p hp, Set.mem_Ico.2 ⟨hp'.1, by omega⟩⟩
      have := Set.ncard_le_ncard hsub ((Set.finite_Ico _ _).inter_of_right _)
      rw [StdMap.ncard_Ico_add] at this
      omega
    · exact Set.mem_Ico.2 ⟨hle, hnone q hheld⟩

/-! ## The list of what to unmap -/

/-- The bytes on the list are backed by the range, unless a piece leaves it. -/
theorem freeUnmaps_backed_iff (h : s.Valid env) (hpos : 0 < size) :
    (∀ p ∈ s.freeUnmaps phys size, ∀ q, s.view.Maps .direct p q → q ∈ Set.Ico phys (phys + size)) ↔
      ¬s.PieceLeaves phys size := by
  constructor
  · rintro hback ⟨k, v, o, e, hk, ht, he, hstart, hin, hend⟩
    have hread := virt_of_piece h.vma hk (ht ▸ rfl) he (i := phys + size - e.base) (by omega)
    have hmem := hback (k + o + (phys + size - e.base))
      ⟨k, v, o, e, phys + size - e.base, hk, ht, he, hin, by omega, by omega, by omega, by omega,
        rfl⟩ _ ⟨_, _, hread, ht, rfl, rfl⟩
    simp only [Set.mem_Ico] at hmem
    omega
  · rintro hno p ⟨k, v, o, e, i, hk, ht, he, hin, hover, hi, hle, hlt, rfl⟩ q ⟨x, b, hx, -, hb, rfl⟩
    have hread := virt_of_piece h.vma hk (ht ▸ rfl) he hi
    rw [hread] at hx
    cases hx
    cases hb
    refine Set.mem_Ico.2 ⟨hle, ?_⟩
    simp only
    by_contra hpast
    exact hno ⟨k, v, o, e, hk, ht, he, by omega, hin, by omega⟩

/-! ## The call -/

/-- A call that releases and unmaps keeps to its range if both lists do. -/
theorem freeFrame_iff_of_view {U : Set Nat} (hU : ∀ p ∈ U, ∃ q, s.view.Maps .direct p q)
    (hview : s'.view = (s.view.unmap U).relabelDirect (s.view.firstHeld phys size)
      (PhysByte.labelled 0 .free)) :
    s.FreeFrame s' phys size .ok ↔ s.view.firstHeld phys size ⊆ Set.Ico phys (phys + size) ∧
      ∀ p ∈ U, ∀ q, s.view.Maps .direct p q → q ∈ Set.Ico phys (phys + size) := by
  constructor
  · intro h
    constructor
    · intro q hq
      by_contra hout
      obtain ⟨b, hb, hheld⟩ := hq.1
      have hsame := h.dmem q hout
      have hfree : s'.view.dma q = some .free := by
        rw [hview, Memory.dma_relabelDirect]
        refine .inl ⟨hq, ?_, rfl⟩
        rw [Memory.dma, Option.isSome_map, Memory.unmap]
        exact isSome_updateOn.trans (by rw [hb]; rfl)
      rw [Memory.dma, hsame, hb] at hfree
      exact hheld (Option.some.inj hfree)
    · intro p hp q hpq
      by_contra hout
      have hafter := h.maps .direct p q hout hpq
      rw [hview] at hafter
      exact ((Memory.maps_unmap (by decide) (by decide)).1 hafter).1 hp
  · rintro ⟨hQ, hback⟩
    refine ⟨fun q hout => ?_, fun t p q hout hpq => ?_, fun _ q hin hheld => ?_⟩
    · have hbehind : q ∉ s.view.behind .direct U := by
        rintro ⟨p, hp, hpq⟩
        exact hout (hback p hp q hpq)
      rw [hview]
      simp only [Memory.relabelDirect, Memory.unmap]
      rw [updateOn_of_notMem (fun hmem => hout (hQ hmem)), updateOn_of_notMem hbehind]
    · have hp : p ∉ U := by
        intro hp
        obtain ⟨q', hpq'⟩ := hU p hp
        obtain ⟨-, rfl⟩ := maps_unique hpq hpq'
        exact hout (hback p hp _ hpq')
      obtain ⟨x, b, hx, ht, hb, hq⟩ := hpq
      refine ⟨x, b, ?_, ht, hb, hq⟩
      rw [hview]
      exact (updateOn_of_notMem hp).trans hx
    · rw [hview, Memory.dma_relabelDirect]
      refine .inl ⟨mem_firstHeld_of_mem_Ico hin hheld, ?_, rfl⟩
      obtain ⟨b, hb, -⟩ := hheld
      rw [Memory.dma, Option.isSome_map, Memory.unmap]
      exact isSome_updateOn.trans (by rw [hb]; rfl)

/-- The bytes of direct memory have a key below them, at most their address away. -/
theorem DirectWhole.reach (hw : s.DirectWhole) (h : s.Valid env)
    (hle : phys ≤ s.totalDirectSize) (hfloor : s.dmemMap.floor? phys = some (k, a)) :
    ∀ e ∈ s.dmemMap.startingAt k, phys ≤ e.1 + e.2.size := by
  obtain ⟨hk, hkle, hmax⟩ := StdMap.floor?_eq_some.1 hfloor
  simp only at hk hkle hmax
  rintro ⟨j, b⟩ hmem
  obtain ⟨hj, hkj⟩ := StdMap.mem_startingAt_iff.1 hmem
  by_contra hgap
  simp only at hgap
  -- the byte after the area is in an area that starts no later than this one
  obtain ⟨c, hc⟩ := Option.isSome_iff_exists.1 ((hw (j + b.size)).2 (by omega))
  obtain ⟨i, d, hi, hile, hilt, -⟩ := StdMap.exists_of_at? hc
  simp only [PhysicalMemoryArea.area_size] at hilt
  have hik := hmax i d hi (by omega)
  rcases Nat.lt_or_eq_of_le (hik.trans hkj) with hlt | rfl
  · have := h.dmem.separated i d j b hi hj hlt
    simp only [PhysicalMemoryArea.area_size] at this
    omega
  · rw [hi] at hj
    cases hj
    omega

/-- The area that holds a byte from `phys` on is on the list, and it is the one at `e` if it
    is the byte at `phys` or at the start of `e`, whichever is later. -/
theorem mem_area_of_max (h : s.Valid env)
    (hfloor : s.dmemMap.floor? phys = some (k, a)) {e : Nat × PhysicalMemoryArea}
    (he : e ∈ s.dmemMap.startingAt k) (hsome : (s.view.dmem (max phys e.1)).isSome) :
    s.view.dma (max phys e.1) = some e.2.dmaType := by
  obtain ⟨hk, hkle, hmax⟩ := StdMap.floor?_eq_some.1 hfloor
  simp only at hk hkle hmax
  obtain ⟨he, hke⟩ := StdMap.mem_startingAt_iff.1 he
  obtain ⟨b, hb⟩ := Option.isSome_iff_exists.1 hsome
  obtain ⟨j, d, hj, hjle, hjlt, -⟩ := StdMap.exists_of_at? hb
  simp only [PhysicalMemoryArea.area_size] at hjlt
  have hje : j = e.1 := by
    rcases Nat.lt_trichotomy j e.1 with hlt | heq | hgt
    · have := h.dmem.separated j d e.1 e.2 hj he hlt
      simp only [PhysicalMemoryArea.area_size] at this
      rcases Nat.le_total phys e.1 with hphys | hphys
      · omega
      · have := hmax e.1 e.2 he hphys
        omega
    · exact heq
    · have := hmax j d hj
      omega
  subst hje
  rw [he] at hj
  cases hj
  exact used_iff_of_area h he (Nat.le_max_right _ _) hjlt

/-- A refused list: a checked call, and a free byte in a range inside direct memory. -/
theorem freeRefused_of_freeList (h : s.Valid env) (hw : s.DirectWhole)
    (hpos : 0 < size) (hend : checked → phys + size ≤ s.totalDirectSize)
    (hle : phys ≤ s.totalDirectSize) (hfloor : s.dmemMap.floor? phys = some (k, a))
    (hlist : freeList phys checked (s.dmemMap.startingAt k) size = none) :
    s.FreeRefused phys size checked := by
  obtain ⟨hchecked, e, he, hfree, hcard, -⟩ := freeList_eq_none (pairwise_startingAt h)
    (fun e he _ => hw.reach h hle hfloor e he) (size_lt_of_mem_startingAt h) hlist
  have hend := hend hchecked
  refine .inr ⟨hchecked, .inr ?_⟩
  by_contra hnone
  push Not at hnone
  have hheld : ∀ q ∈ Set.Ico phys (phys + size), q ∈ s.view.held := by
    intro q hq
    have hlt := (Set.mem_Ico.1 hq).2
    obtain ⟨b, hb⟩ := Option.isSome_iff_exists.1 ((hw q).2 (by omega))
    exact ⟨b, hb, fun hbfree => hnone q hq (Memory.dma_eq_some.2 ⟨b, hb, hbfree⟩)⟩
  rw [heldFrom_startingAt_inter h hfloor] at hcard
  have hbefore : e.1 < phys + size := by
    by_contra hpast
    have hsub : Set.Ico phys (phys + size) ⊆ s.view.held ∩ Set.Ico phys e.1 := by
      intro p hp
      have hp' := Set.mem_Ico.1 hp
      exact ⟨hheld p hp, Set.mem_Ico.2 ⟨hp'.1, by omega⟩⟩
    have := Set.ncard_le_ncard hsub ((Set.finite_Ico _ _).inter_of_right _)
    rw [StdMap.ncard_Ico_add] at this
    omega
  have hin : max phys e.1 ∈ Set.Ico phys (phys + size) := Set.mem_Ico.2 ⟨by omega, by omega⟩
  exact hnone _ hin ((mem_area_of_max h hfloor he ((hw _).2 (by omega))).trans (by rw [hfree]))

/-- A checked call that has a list has no free byte in its range. -/
theorem dma_ne_free_of_freeList (h : s.Valid env) (hw : s.DirectWhole)
    (hle : phys ≤ s.totalDirectSize) (hfloor : s.dmemMap.floor? phys = some (k, a))
    {rs : List (Nat × Nat)} (hlist : freeList phys true (s.dmemMap.startingAt k) size = some rs) :
    ∀ q ∈ Set.Ico phys (phys + size), s.view.dma q ≠ some .free := by
  intro q hq hfree
  rw [Set.mem_Ico] at hq
  obtain ⟨b, hb, hbfree⟩ := Memory.dma_eq_some.1 hfree
  obtain ⟨e, he, hle', hlt, htype⟩ := exists_startingAt_of_at? h.dmem hfloor hq.1 hb
  have hbase := h.dmem.key _ _ (StdMap.mem_startingAt_iff.1 he).1
  have hcard := remaining_le_of_freeList (pairwise_startingAt h)
    (fun e he _ => hw.reach h hle hfloor e he) (size_lt_of_mem_startingAt h) hlist he
    (htype.trans hbfree) (hbase ▸ hle')
  rw [heldFrom_startingAt_inter h hfloor] at hcard
  have hsub := Set.ncard_le_ncard (Set.inter_subset_right (s := s.view.held) (t := Set.Ico phys q))
    (Set.finite_Ico _ _)
  have hsize := StdMap.ncard_Ico_add phys (q - phys)
  rw [Nat.add_sub_cancel' hq.1] at hsize
  omega

/-- A range that wraps around has all of direct memory from its start on in it. -/
theorem freeFits_of_wrap (h : s.Valid env) (hwrap : 2 ^ 64 ≤ phys + size) :
    s.FreeFits phys size checked := by
  refine .inr ⟨.inr fun q hq => ?_, ?_⟩
  · have := held_lt h hq
    omega
  · rintro ⟨k, v, o, e, hk, ht, he, -, -, hend⟩
    have hpiece : 0 < e.size := ((h.vma.entry k v hk).backed (ht ▸ rfl)).pos o e he
    have hread := virt_of_piece h.vma hk (ht ▸ rfl) he (i := e.size - 1) (by omega)
    have := h.sound.refs_lt _ (e.base + (e.size - 1)) (.inl ⟨_, _, hread, ht, rfl, rfl⟩)
    have := directExtent_hi_lt env
    simp only [directExtent] at this
    omega

/-- `Free` keeps to its range when and only when the condition holds. -/
theorem free_frames_iff (h : s.Valid env) (hw : s.DirectWhole) {r : Except OrbisError Unit}
    (hphys : phys < 2 ^ 64) (hsize : size < 2 ^ 64) (hpos : 0 < size)
    (hr : s.free phys size checked = .ok (s', r)) :
    s.FreeFrame s' phys size (.ofUnit r) ↔ s.FreeFits phys size checked := by
  have hsame : (Reply.ofUnit r = .ok → s.totalDirectSize < phys) → s.FreeFrame s phys size (.ofUnit r) := by
    refine fun hout => ⟨fun _ _ => rfl, fun _ _ _ _ hpq => hpq, fun hok q hq hheld => ?_⟩
    obtain ⟨b, hb, -⟩ := hheld
    have hlt := (hw q).1 (Option.isSome_iff_exists.2 ⟨b, hb⟩)
    have := hout hok
    have := (Set.mem_Ico.1 hq).1
    omega
  rcases free_eq_ok h hphys hsize hpos hr with
    ⟨rfl, hok, hout⟩ | ⟨k, a, hle, hcheck, hfloor, ⟨rfl, rfl, hlist⟩ |
      ⟨rfl, hvalid, ⟨rs, hlist⟩, U, hview, hdirect, hunmaps⟩⟩
  · refine iff_of_true (hsame fun hreply => ?_) (.inl (hout.imp_right fun hc => ⟨hc.1, .inl hc.2⟩))
    cases r with
    | ok => exact hout.resolve_right fun hc => hok rfl hc.1
    | error e => cases hreply
  · refine iff_of_true (hsame fun hreply => by cases hreply) ?_
    by_cases hwrap : 2 ^ 64 ≤ phys + size
    · exact freeFits_of_wrap h hwrap
    · refine .inl (freeRefused_of_freeList h hw hpos (fun hc => ?_) hle hfloor hlist)
      rw [← U64.add_of_lt (by omega)]
      exact hcheck hc
  · have hrefused : ¬s.FreeRefused phys size checked := by
      rintro (hout | ⟨hc, hout | ⟨q, hq, hfree⟩⟩)
      · omega
      · have := hcheck hc
        omega
      · rw [hc] at hlist
        exact dma_ne_free_of_freeList h hw hle hfloor hlist q hq hfree
    have hfits : s.FreeFits phys size checked ↔ _ := or_iff_right hrefused
    refine (freeFrame_iff_of_view (fun p hp => ?_) hview).trans ?_
    · obtain ⟨q, -, hmaps⟩ := hdirect p hp
      exact ⟨q, hmaps⟩
    by_cases hwrap : 2 ^ 64 ≤ phys + size
    · refine iff_of_true ⟨?_, fun p hp q hpq => ?_⟩ (freeFits_of_wrap h hwrap)
      · rintro q ⟨hheld, hge, -⟩
        have := held_lt h hheld
        exact Set.mem_Ico.2 ⟨hge, by omega⟩
      · obtain ⟨q', hge, hpq'⟩ := hdirect p hp
        obtain ⟨-, rfl⟩ := maps_unique hpq hpq'
        have := h.sound.refs_lt p q (.inl hpq)
        have := directExtent_hi_lt env
        simp only [directExtent] at this
        exact Set.mem_Ico.2 ⟨hge, by omega⟩
    · rw [hfits, firstHeld_subset_iff, hunmaps (by omega), freeUnmaps_backed_iff h hpos]

theorem freeFrame_iff {physAddr size : UInt64} {checked : Bool} {r : Reply}
    (h : Reachable env (setupFirst env) s) (hop : (Op.free physAddr size checked).Issued)
    (hr : s.step env (.free physAddr size checked) = .ok (s', r)) :
    s.FreeFrame s' physAddr.toNat size.toNat r ↔ s.FreeFits physAddr.toNat size.toNat checked := by
  simp only [step, Outcome.bind_eq_ok, Outcome.pure_eq_ok, Prod.mk.injEq] at hr
  obtain ⟨⟨_, e⟩, hr, rfl, rfl⟩ := hr
  exact free_frames_iff h.valid h.directWhole physAddr.toNat_lt size.toNat_lt hop.2.1 hr

/-- Three blocks of direct memory of which the middle one is released. -/
def gapCalls : List Op :=
  [.allocate 0 0x100000000 0x4000 0 0,
   .allocate 0 0x100000000 0x4000 0 0,
   .allocate 0 0x100000000 0x4000 0 0,
   .free 0x4000 0x4000 false]

theorem reachable_of_gapCalls {s : MemoryManager} (hr : run .retail (init .retail) gapCalls = .ok s) :
    Reachable .retail (setupFirst .retail) s := by
  refine reachable_of_run .refl hr ?_
  intro op hop
  refine ⟨by revert op; decide, fun s => ?_⟩
  simp only [gapCalls, List.mem_cons, List.not_mem_nil, or_false] at hop
  rcases hop with rfl | rfl | rfl | rfl <;> exact trivial

theorem freeFrame_iff_of_run : ∃ s s' r, run .retail (init .retail) gapCalls = .ok s ∧
    s.step .retail (.free 0 0x4000 false) = .ok (s', r) ∧
    (s.FreeFrame s' 0 0x4000 r ↔ s.FreeFits 0 0x4000 false) := by
  have hrun : (match run .retail (init .retail) gapCalls with
      | .ok s => (s.step .retail (.free 0 0x4000 false)).isOk
      | .error _ => false) = true := by with_unfolding_all decide
  split at hrun
  · next s hs =>
    cases hstep : s.step .retail (.free 0 0x4000 false) with
    | error e =>
      rw [hstep] at hrun
      cases hrun
    | ok out =>
      exact ⟨s, out.1, out.2, hs, hstep, freeFrame_iff (reachable_of_gapCalls hs) (by decide) hstep⟩
  · cases hrun

/-- Releasing the first two blocks releases the third one, as the second is free already. -/
theorem not_freeFrame_of_gap : ∃ s s', run .retail (init .retail) gapCalls = .ok s ∧
    Reachable .retail (setupFirst .retail) s ∧
    s.step .retail (.free 0 0x8000 false) = .ok (s', .ok) ∧ ¬s.FreeFrame s' 0 0x8000 .ok := by
  have hrun : (match run .retail (init .retail) gapCalls with
      | .ok s =>
        match s.step .retail (.free 0 0x8000 false) with
        | .ok (s', r) => decide (r = .ok ∧
            ¬(s'.dmemMap.at? 0x8000).map PhysByte.dmaType =
              (s.dmemMap.at? 0x8000).map PhysByte.dmaType)
        | .error _ => false
      | .error _ => false) = true := by with_unfolding_all decide
  split at hrun
  · next s hs =>
    split at hrun
    · next s' r hstep =>
      obtain ⟨rfl, hchanged⟩ := of_decide_eq_true hrun
      refine ⟨s, s', hs, reachable_of_gapCalls hs, hstep, fun hframe => hchanged ?_⟩
      exact congrArg (Option.map PhysByte.dmaType) (hframe.dmem 0x8000 (by decide))
    · cases hrun
  · cases hrun

end MemoryManager

end Core
