-- SUMMARY: When `IsValidMapping` accepts a range of virtual memory: the walk over the areas, and ranges that start in a gap.
import W7PS4.Memory.Manager

/-!
# Validation of ranges

Every operation on a range of virtual memory trusts `IsValidMapping`. It starts
from the area `FindVMA` returns, which is the one in front of a gap when the
range starts in the gap. Nothing is left of that area behind its end, and the
unsigned difference that says how much is left wraps around.
-/

namespace Core

open VirtualMemoryArea (area_size)

namespace VMAMap

/-- Areas that are not empty and lie apart from each other, with gaps or without. -/
structure Regions (map : VMAMap) : Prop where
  key : ∀ k v, map.find? k = some v → v.base = k
  separated : map.Separated
  pos : ∀ k v, map.find? k = some v → 0 < v.size
  end_lt : ∀ k v, map.find? k = some v → k + v.size < 2 ^ 64

/-- Every address of the range lies in an area. -/
def Covers (map : VMAMap) (addr size : Nat) : Prop :=
  ∀ p ∈ Set.Ico addr (addr + size), ∃ k v, map.find? k = some v ∧ k ≤ p ∧ p < k + v.size

/-- The range starts in the gap between two neighbours, past the first byte of the
    gap, and it is no longer than what wrapping around leaves of the lower one. -/
def StartsInGap (map : VMAMap) (addr size : Nat) : Prop :=
  ∃ k v j w, map.find? k = some v ∧ map.next? k = some (j, w) ∧
    k + v.size < addr ∧ addr < j ∧ addr + size ≤ k + v.size + 2 ^ 64

variable {map : VMAMap} {k addr size p : Nat} {v : VirtualMemoryArea}

theorem WF.regions (h : map.WF) : map.Regions :=
  ⟨h.key, h.separated, fun k v hk => (h.entry k v hk).pos, h.end_lt⟩

theorem Regions.isSome_at?_iff (h : map.Regions) :
    (map.at? p).isSome ↔ ∃ k v, map.find? k = some v ∧ k ≤ p ∧ p < k + v.size := by
  constructor
  · intro hp
    obtain ⟨x, hx⟩ := Option.isSome_iff_exists.1 hp
    obtain ⟨k, v, hk, hle, hlt, -⟩ := StdMap.exists_of_at? hx
    exact ⟨k, v, hk, hle, hlt⟩
  · rintro ⟨k, v, hk, hle, hlt⟩
    rw [StdMap.at?_of_find? h.separated hk hle hlt]
    rfl

theorem Regions.covers_iff (h : map.Regions) :
    map.Covers addr size ↔ ∀ p ∈ Set.Ico addr (addr + size), (map.at? p).isSome := by
  simp only [Covers, h.isSome_at?_iff]

theorem Regions.end_lt_of_covers (h : map.Regions) (hc : map.Covers addr size) (hpos : 0 < size) :
    addr + size < 2 ^ 64 := by
  obtain ⟨k, v, hk, hle, hlt⟩ := hc (addr + size - 1) (by rw [Set.mem_Ico]; omega)
  have := h.end_lt k v hk
  omega

/-- The area in front of the gap is the one `FindVMA` returns. -/
theorem StartsInGap.of_floor? (h : map.StartsInGap addr size) (hfloor : map.floor? addr = some (k, v)) :
    k + v.size < addr ∧ addr + size ≤ k + v.size + 2 ^ 64 := by
  obtain ⟨hk, hle, hfar⟩ := StdMap.floor?_eq_some.1 hfloor
  obtain ⟨i, a, l, z, hi, hnext, hlow, hhigh, hsize⟩ := h
  obtain ⟨-, -, hfirst⟩ := StdMap.next?_eq_some.1 hnext
  simp only at hk hle hfar
  have hik : i = k := by
    have := hfar i a hi (by omega)
    by_contra hne
    have := hfirst k v hk (by omega)
    simp only at this
    omega
  subst hik
  rw [hk] at hi
  cases hi
  exact ⟨hlow, hsize⟩

theorem startsInGap_iff {j : Nat} {w : VirtualMemoryArea} (hfloor : map.floor? addr = some (k, v))
    (hnext : map.next? k = some (j, w)) (hhigh : addr < j) :
    map.StartsInGap addr size ↔ k + v.size < addr ∧ addr + size ≤ k + v.size + 2 ^ 64 := by
  refine ⟨fun h => h.of_floor? hfloor, ?_⟩
  rintro ⟨hlow, hsize⟩
  exact ⟨k, v, j, w, (StdMap.floor?_eq_some.1 hfloor).1, hnext, hlow, hhigh, hsize⟩

theorem Regions.offset_eq (h : map.Regions) (hk : map.find? k = some v) (haddr : addr < 2 ^ 64)
    (hle : k ≤ addr) : U64.sub addr v.base = addr - k := by
  rw [h.key k v hk]
  exact U64.sub_of_le haddr hle

end VMAMap

theorem Environment.rangesApart (env : Environment) : RangesApart env.usableRegions :=
  ⟨fun r hr => (env.usable_nonempty r hr).1, env.usable_apart⟩

namespace MemoryManager

open VMAMap

variable {map : VMAMap} {k addr size : Nat} {v : VirtualMemoryArea}

/-! ## The walk -/

/-- A turn in the area that holds the rest of the range is the last one. -/
theorem isValidMappingLoop_last (h : map.Regions) (hk : map.find? k = some v) (hle : k ≤ addr)
    (hlt : addr < k + v.size) (hfit : addr + size ≤ k + v.size) :
    isValidMappingLoop (map.startingAt k) addr size = true := by
  have hend := h.end_lt k v hk
  have hpos := h.pos k v hk
  rw [h.separated.startingAt_eq_cons hk hpos]
  simp only [isValidMappingLoop, h.offset_eq hk (by omega) hle]
  rw [U64.sub_of_le (by omega) (by omega), Nat.min_eq_right (by omega), Nat.sub_self]
  split
  · rfl
  · rw [if_neg (by simp)]
    cases map.startingAt (k + Area.size v) <;> simp [isValidMappingLoop]

/-- A turn in an area that ends inside the range goes on with the next area if that
    is where this one ends. -/
theorem isValidMappingLoop_next (h : map.Regions) (hk : map.find? k = some v) (hle : k ≤ addr)
    (hlt : addr < k + v.size) (hmore : k + v.size < addr + size) :
    isValidMappingLoop (map.startingAt k) addr size =
      ((map.find? (k + v.size)).isSome &&
        isValidMappingLoop (map.startingAt (k + v.size)) (k + v.size)
          (addr + size - (k + v.size))) := by
  have hend := h.end_lt k v hk
  have hpos := h.pos k v hk
  rw [h.separated.startingAt_eq_cons hk hpos]
  simp only [isValidMappingLoop, h.offset_eq hk (by omega) hle, area_size]
  rw [U64.sub_of_le (by omega) (by omega), Nat.min_eq_left (by omega), U64.add_of_lt (by omega),
    if_neg (by omega), show addr + (v.size - (addr - k)) = k + v.size by omega,
    show size - (v.size - (addr - k)) = addr + size - (k + v.size) by omega]
  cases hes : map.startingAt (k + v.size) with
  | nil =>
    have hnone : map.find? (k + v.size) = none := by
      rw [StdMap.find?_eq_none]
      intro w hw
      have := StdMap.mem_startingAt_iff.2 ⟨StdMap.mem_entries_iff.1 hw, le_rfl⟩
      simp [hes] at this
    simp only [List.head?_nil, Option.any_none, Bool.and_false, Bool.false_eq_true, if_false,
      isValidMappingLoop, hnone, Option.isSome_none, Bool.false_and, decide_eq_false_iff_not]
    omega
  | cons e es =>
    obtain ⟨j, w⟩ := e
    have hmem : (j, w) ∈ map.startingAt (k + v.size) := by simp [hes]
    obtain ⟨hj, hjle⟩ := StdMap.mem_startingAt_iff.1 hmem
    simp only [List.head?_cons, Option.any_some, h.key j w hj]
    by_cases htouch : k + v.size = j
    · simp [htouch, hj]
    have hnone : map.find? (k + v.size) = none := by
      rw [StdMap.find?_eq_none]
      intro w' hw'
      have hmem' := StdMap.mem_startingAt_iff.2 ⟨StdMap.mem_entries_iff.1 hw', le_rfl⟩
      have hsorted := StdMap.sorted_startingAt (m := map) (k := k + v.size)
      rw [hes] at hmem' hsorted
      rcases List.mem_cons.1 hmem' with heq | hin
      · cases heq
        exact htouch rfl
      · have := (List.pairwise_cons.1 hsorted).1 _ hin
        simp only at this
        omega
    rw [if_pos (by simp [htouch]; omega), hnone]
    rfl

/-- The walk accepts a range that starts in an area exactly when the areas cover it. -/
theorem isValidMappingLoop_iff (h : map.Regions) (hk : map.find? k = some v) (hle : k ≤ addr)
    (hlt : addr < k + v.size) :
    isValidMappingLoop (map.startingAt k) addr size = true ↔ map.Covers addr size := by
  induction hn : size using Nat.strong_induction_on generalizing k v addr size with
  | h n ih =>
    subst hn
    by_cases hfit : addr + size ≤ k + v.size
    · rw [isValidMappingLoop_last h hk hle hlt hfit]
      simp only [true_iff]
      intro p hp
      rw [Set.mem_Ico] at hp
      exact ⟨k, v, hk, by omega, by omega⟩
    · rw [isValidMappingLoop_next h hk hle hlt (by omega), Bool.and_eq_true]
      constructor
      · rintro ⟨hsome, hrest⟩ p hp
        obtain ⟨w, hw⟩ := Option.isSome_iff_exists.1 hsome
        have hpos := h.pos _ w hw
        have hcovers := (ih _ (by omega) hw le_rfl (by omega) rfl).1 hrest
        rw [Set.mem_Ico] at hp
        by_cases hpk : p < k + v.size
        · exact ⟨k, v, hk, by omega, hpk⟩
        · exact hcovers p (by rw [Set.mem_Ico]; omega)
      · intro hcovers
        -- the area behind this one holds the first byte of the rest, so it starts there
        obtain ⟨j, w, hj, hjle, hjlt⟩ := hcovers (k + v.size) (by rw [Set.mem_Ico]; omega)
        have hjk : j = k + v.size := by
          rcases Nat.lt_trichotomy j k with hjk | rfl | hkj
          · have := h.separated j w k v hj hk hjk
            simp only [area_size] at this
            omega
          · rw [hk] at hj
            cases hj
            omega
          · have := h.separated k v j w hk hj hkj
            simp only [area_size] at this
            omega
        subst hjk
        refine ⟨by simp [hj], (ih _ (by omega) hj le_rfl hjlt rfl).2 fun p hp => ?_⟩
        rw [Set.mem_Ico] at hp
        exact hcovers p (by rw [Set.mem_Ico]; omega)

/-- The walk over a range that starts in a gap. Its first turn is its last one, or
    finds that the next area starts somewhere else. -/
theorem isValidMappingLoop_of_gap {j : Nat} {w : VirtualMemoryArea} (h : map.Regions)
    (hk : map.find? k = some v) (hnext : map.next? k = some (j, w)) (hlow : k + v.size ≤ addr)
    (hhigh : addr < j) (hpos : 0 < size) :
    isValidMappingLoop (map.startingAt k) addr size = true ↔
      k + v.size < addr ∧ addr + size ≤ k + v.size + 2 ^ 64 := by
  obtain ⟨hj, hkj, hfirst⟩ := StdMap.next?_eq_some.1 hnext
  simp only at hj hkj hfirst
  have hend := h.end_lt k v hk
  have hjend := h.end_lt j w hj
  have hstart : map.startingAt k = (k, v) :: map.startingAt j :=
    StdMap.startingAt_eq_cons hk hkj fun i b hib hki => hfirst i b hib hki
  have hrest : map.startingAt j = (j, w) :: map.startingAt (j + Area.size w) :=
    h.separated.startingAt_eq_cons hj (h.pos j w hj)
  have hoff : U64.sub addr v.base = addr - k := h.offset_eq hk (by omega) (by omega)
  rw [hstart]
  simp only [isValidMappingLoop, hoff, Nat.ne_of_gt hpos, if_false]
  -- what the subtraction leaves of the area, and where the range goes on after it
  have hleft : U64.sub v.size (addr - k) =
      if k + v.size = addr then 0 else k + v.size + 2 ^ 64 - addr := by
    unfold U64.sub
    split <;> omega
  by_cases hfit : size ≤ U64.sub v.size (addr - k)
  · rw [Nat.min_eq_right hfit, Nat.sub_self, if_neg (by simp), hrest]
    simp only [isValidMappingLoop, if_true, true_iff]
    rw [hleft] at hfit
    split at hfit <;> omega
  · have hback : U64.add addr (U64.sub v.size (addr - k)) = k + v.size := by
      simp only [U64.add, U64.sub]
      omega
    rw [Nat.min_eq_left (by omega), hback, hrest, if_pos (by
      simp only [List.head?_cons, Option.any_some, h.key j w hj, ne_eq, decide_not,
        Bool.and_eq_true, decide_eq_true_eq, Bool.not_eq_true', decide_eq_false_iff_not]
      omega)]
    refine iff_of_false (by simp) ?_
    rw [hleft] at hfit
    split at hfit <;> omega

/-! ## The whole check -/

/-- The check on a range that starts in an area. -/
theorem isValidMapping_of_find? (h : map.Regions) (hk : map.find? k = some v) (hle : k ≤ addr)
    (hlt : addr < k + v.size) (hpos : 0 < size) :
    isValidMapping map addr size = .ok true ↔ map.Covers addr size := by
  have hmem := StdMap.mem_entries_iff.2 hk
  have hne : map.entries ≠ [] := List.ne_nil_of_mem hmem
  obtain ⟨⟨i, a⟩, hfirst⟩ : ∃ e, map.first? = some e := ⟨_, List.head?_eq_some_head hne⟩
  obtain ⟨⟨j, w⟩, hlast⟩ : ∃ e, map.last? = some e := ⟨_, List.getLast?_eq_some_getLast hne⟩
  obtain ⟨-, hmin⟩ := StdMap.first?_eq_some.1 hfirst
  obtain ⟨hj, hmax⟩ := StdMap.last?_eq_some.1 hlast
  have hik := hmin k v hk
  have hkj := hmax k v hk
  simp only at hik hj hkj
  have hend : addr < j + w.size := by
    rcases Nat.lt_or_eq_of_le hkj with hlt' | rfl
    · have := h.separated k v j w hk hj hlt'
      simp only [area_size] at this
      omega
    · rw [hk] at hj
      cases hj
      exact hlt
  have hfloor := StdMap.floor?_of_mem h.separated hk hle hlt
  rw [← isValidMappingLoop_iff h hk hle hlt]
  simp only [isValidMapping, hlast, hfirst, VMAMap.findVMA, hfloor, deref, Outcome.ok_bind]
  rw [if_neg (by simp; omega), if_neg (by omega)]
  simp [Outcome.pure_eq_ok]

/-- A range that starts in a gap passes when the wrapped difference covers it. -/
theorem isValidMapping_of_gap (h : map.Regions) (hpos : 0 < size)
    (hgap : ¬(map.at? addr).isSome) :
    isValidMapping map addr size = .ok true ↔ map.StartsInGap addr size := by
  have houtside : ∀ k v, map.find? k = some v → k ≤ addr → k + v.size ≤ addr := by
    intro k v hk hle
    by_contra hlt
    exact hgap (h.isSome_at?_iff.2 ⟨k, v, hk, hle, by omega⟩)
  cases hes : map.entries with
  | nil =>
    have hnone : ∀ k, map.find? k = none := fun k => by simp [StdMap.find?, hes]
    refine iff_of_false ?_ ?_
    · simp [isValidMapping, StdMap.last?, hes, deref]
    · rintro ⟨k, v, j, w, hk, -⟩
      rw [hnone] at hk
      cases hk
  | cons e es =>
    have hne : map.entries ≠ [] := by simp [hes]
    obtain ⟨⟨i, a⟩, hfirst⟩ : ∃ e, map.first? = some e := ⟨_, List.head?_eq_some_head hne⟩
    obtain ⟨⟨l, z⟩, hlast⟩ : ∃ e, map.last? = some e := ⟨_, List.getLast?_eq_some_getLast hne⟩
    obtain ⟨hi, hmin⟩ := StdMap.first?_eq_some.1 hfirst
    obtain ⟨hl, hmax⟩ := StdMap.last?_eq_some.1 hlast
    simp only at hi hmin hl hmax
    simp only [isValidMapping, hlast, hfirst, deref, Outcome.ok_bind]
    by_cases hout : addr < i ∨ addr ≥ l + z.size
    · rw [if_pos (by simpa using hout)]
      refine iff_of_false (by simp [Outcome.pure_eq_ok]) ?_
      rintro ⟨k, v, j, w, hk, hnext, hlow, hhigh, -⟩
      have hj := (StdMap.next?_eq_some.1 hnext).1
      have := hmin k v hk
      have := hmax j w hj
      omega
    · have hal : addr < l := by
        by_contra hle
        have := houtside l z hl (by omega)
        omega
      cases hfloor : map.floor? addr with
      | none =>
        have := StdMap.floor?_eq_none.1 hfloor i a hi
        omega
      | some e =>
        obtain ⟨k, v⟩ := e
        obtain ⟨hk, hle, hfar⟩ := StdMap.floor?_eq_some.1 hfloor
        simp only at hk hle hfar
        have hend := houtside k v hk hle
        cases hnext : map.next? k with
        | none =>
          have := StdMap.next?_eq_none.1 hnext l z hl
          omega
        | some e' =>
          obtain ⟨j, w⟩ := e'
          obtain ⟨hj, hkj, hfirstAfter⟩ := StdMap.next?_eq_some.1 hnext
          simp only at hj hkj hfirstAfter
          have hhigh : addr < j := by
            by_contra hja
            have := hfar j w hj (by omega)
            omega
          rw [startsInGap_iff hfloor hnext hhigh, if_neg (by simpa using hout),
            if_neg (by omega), ← isValidMappingLoop_of_gap h hk hnext hend hhigh hpos]
          simp [VMAMap.findVMA, hfloor, deref]

/-! ## The regions of the constructor -/

variable {env : Environment}

theorem find?_init : (init env).vmaMap.find? k = some v ↔
    ∃ r ∈ env.usableRegions, r.1 = k ∧ freeArea r.1 (r.2 - r.1) = v :=
  StdMap.find?_foldl_emplace_eq_some fun _ hi _ hj => env.rangesApart.unique hi hj

theorem regions_init : (init env).vmaMap.Regions where
  key := by
    intro k v hk
    obtain ⟨r, -, rfl, rfl⟩ := find?_init.1 hk
    rfl
  separated := by
    intro j v k w hj hk hlt
    obtain ⟨r, hr, rfl, rfl⟩ := find?_init.1 hj
    obtain ⟨r', hr', rfl, rfl⟩ := find?_init.1 hk
    have := env.usable_nonempty r hr
    have := env.rangesApart.ordered hr hr' hlt
    simp only [area_size, freeArea]
    omega
  pos := by
    intro k v hk
    obtain ⟨r, hr, rfl, rfl⟩ := find?_init.1 hk
    have := env.usable_nonempty r hr
    simp only [freeArea]
    omega
  end_lt := by
    intro k v hk
    obtain ⟨r, hr, rfl, rfl⟩ := find?_init.1 hk
    have := env.usable_nonempty r hr
    simp only [freeArea]
    omega

theorem covers_init : (init env).vmaMap.Covers addr size ↔
    ∀ p ∈ Set.Ico addr (addr + size), ∃ r ∈ env.usableRegions, r.1 ≤ p ∧ p < r.2 := by
  unfold Covers
  constructor
  · intro h p hp
    obtain ⟨k, v, hk, hle, hlt⟩ := h p hp
    obtain ⟨r, hr, rfl, rfl⟩ := find?_init.1 hk
    simp only [freeArea] at hlt
    exact ⟨r, hr, hle, by omega⟩
  · intro h p hp
    obtain ⟨r, hr, hle, hlt⟩ := h p hp
    refine ⟨r.1, _, find?_init.2 ⟨r, hr, rfl, rfl⟩, hle, ?_⟩
    simp only [freeArea]
    omega

/-! ## What the check tells -/

/-- `IsValidMapping` tells whether the areas cover the range, for every range but those that
    start in a gap and are not too long. -/
theorem isValidMapping_iff_covers (h : map.Regions) (addr size : UInt64) (hpos : 0 < size) :
    (isValidMapping map addr.toNat size.toNat = .ok true ↔ map.Covers addr.toNat size.toNat) ↔
      ¬map.StartsInGap addr.toNat size.toNat := by
  have hpos' : 0 < size.toNat := hpos
  by_cases huse : (map.at? addr.toNat).isSome
  · obtain ⟨k, v, hk, hle, hlt⟩ := h.isSome_at?_iff.1 huse
    refine iff_of_true (isValidMapping_of_find? h hk hle hlt hpos') ?_
    rintro ⟨i, a, j, w, hi, hnext, hlow, hhigh, -⟩
    obtain ⟨hj, -, hfirst⟩ := StdMap.next?_eq_some.1 hnext
    -- the address lies in no area between two neighbours
    have hik : i < k := by
      by_contra hki
      rcases Nat.lt_or_eq_of_le (Nat.le_of_not_lt hki) with hlt' | rfl
      · have := h.separated k v i a hk hi hlt'
        simp only [area_size] at this
        omega
      · rw [hk] at hi
        cases hi
        omega
    have := hfirst k v hk hik
    simp only at this
    omega
  · rw [isValidMapping_of_gap h hpos' huse]
    have hcovers : ¬map.Covers addr.toNat size.toNat := by
      rw [h.covers_iff]
      intro hall
      exact huse (hall addr.toNat (by rw [Set.mem_Ico]; omega))
    simp [hcovers]

end MemoryManager

/-- A Windows host on which another allocation lies in the lower region. -/
def Environment.gapped : Environment where
  isLegacyBackend := false
  systemManagedVirtualBase := 0x400000
  systemManagedVirtualBase_lt := systemManagedMin_lt
  userVirtualBase := 0x1000000000
  userVirtualSize := 0x54F000000000
  usableRegions := [(0x400000, 0x800000), (0x1000000, 0x550000000000)]
  usable_nonempty := by decide
  usable_apart := by decide
  extraDmemInMBytes := 0
  extraFmemInMBytes := 0
  extra_lt := noExtra_lt
  isNeo := false
  isDevKit := false
  sdkVersion := 0x5000000

namespace MemoryManager

theorem isValidMapping_iff_covers_gapped :
    (isValidMapping (init .gapped).vmaMap 0x7fc000 0x4000 = .ok true ↔
      (init .gapped).vmaMap.Covers 0x7fc000 0x4000) ↔
      ¬(init .gapped).vmaMap.StartsInGap 0x7fc000 0x4000 :=
  isValidMapping_iff_covers regions_init 0x7fc000 0x4000 (by decide)

/-- A range in the middle of the gap passes, and none of it lies in an area. -/
theorem isValidMapping_of_gap_gapped :
    ¬(isValidMapping (init .gapped).vmaMap 0x900000 0x4000 = .ok true ↔
      (init .gapped).vmaMap.Covers 0x900000 0x4000) := by
  have hvalid : isValidMapping (init .gapped).vmaMap 0x900000 0x4000 = .ok true := by
    with_unfolding_all decide
  intro h
  obtain ⟨r, hr, hle, hlt⟩ := covers_init.1 (h.1 hvalid) 0x900000 (by simp)
  simp only [Environment.gapped, List.mem_cons, List.not_mem_nil, or_false] at hr
  rcases hr with rfl | rfl <;> omega

end MemoryManager

end Core
