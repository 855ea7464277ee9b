-- SUMMARY: `SearchFree` finds aligned room in a free area or says that there is none, unless its alignment or its sums are cut off.
import W7PS4.Memory.Partition
import Mathlib

/-!
# The search for a free address

`MapMemory` asks `SearchFree` for room when no fixed address is given. The search looks at
the area that holds the aligned hint and then at every free area after it. Its alignment
is a `u32`, and `Contains` adds the size to the address in 64 bits; where both fit, what it
finds is right.
-/

/-! ## Aligning -/

section Align

variable {value size a : Nat}

theorem dvd_alignUp (h : value + size < 2 ^ 64) : size ∣ alignUp value size := by
  have hdvd : size ∣ value - value % size := Nat.dvd_sub_mod value
  simp only [alignUp]
  split
  · exact hdvd
  · rw [U64.add_of_lt (by omega)]
    exact Nat.dvd_add_self_right.mpr hdvd

theorem alignUp_lt_add (hpos : 0 < size) (h : value + size < 2 ^ 64) : alignUp value size < value + size := by
  have hmod := Nat.mod_lt value hpos
  have hle := Nat.mod_le value size
  simp only [alignUp]
  split
  · omega
  · rw [U64.add_of_lt (by omega)]
    omega

/-- The multiples from `value` on begin with the aligned one. -/
theorem alignUp_le (hpos : 0 < size) (h : value + size < 2 ^ 64) (hdvd : size ∣ a) (hle : value ≤ a) :
    alignUp value size ≤ a := by
  by_contra hlt
  have hstep : size ≤ alignUp value size - a :=
    Nat.le_of_dvd (by omega) (Nat.dvd_sub (dvd_alignUp h) hdvd)
  have hbound := alignUp_lt_add hpos h
  omega

end Align

namespace Core

open VirtualMemoryArea (area_size isFree)

/-- The search begins with the lowest usable region: the host's `SystemManagedVirtualBase` is its start. -/
structure Environment.StartsAtBase (env : Environment) : Prop where
  lowest : ∃ r ∈ env.usableRegions, r.1 = env.systemManagedVirtualBase
  le : ∀ r ∈ env.usableRegions, env.systemManagedVirtualBase ≤ r.1

/-- Room for `size` bytes at the aligned address `a`, inside a single free area. -/
def VMAMap.Fits (map : VMAMap) (alignment size a : Nat) : Prop :=
  alignment ∣ a ∧ ∃ k v, map.find? k = some v ∧ v.type = .free ∧ k ≤ a ∧ a + size ≤ k + v.size

namespace MemoryManager

/-- Where `SearchFree` stops looking. -/
def maxSearchAddress (env : Environment) : Nat := U64.add env.userVirtualBase env.userVirtualSize

/-- The hint as `SearchFree` has it. -/
def searchHint (env : Environment) (virtualAddr : Nat) : Nat :=
  max (if virtualAddr = 0 then DEFAULT_MAPPING_BASE else virtualAddr) env.systemManagedVirtualBase

/-- The alignment `MapMemory` requests. -/
def searchAlignment (env : Environment) (type : VMAType) (alignment : Nat) : Nat :=
  let alignment := if alignment > 0 then alignment else 0x4000
  if env.isLegacyBackend && type = .direct then max alignment 0x10000 else alignment

theorem searchAlignment_pos (env : Environment) (type : VMAType) (alignment : Nat) :
    0 < searchAlignment env type alignment := by
  simp only [searchAlignment]
  split_ifs <;> omega

/-- Areas lie in the lower half of the address space. -/
theorem Valid.end_lt_half {env : Environment} {s : MemoryManager} (h : s.Valid env) {k : Nat} {v : VirtualMemoryArea}
    (hk : s.vmaMap.find? k = some v) : k + v.size < 2 ^ 63 := by
  have hpos := (h.vma.entry k v hk).pos
  have hlast : (s.view.virt (k + (v.size - 1))).isSome := by
    rw [Option.isSome_iff_exists]
    exact ⟨_, StdMap.at?_of_find? h.vma.separated hk (Nat.le_add_right _ _)
      (by rw [area_size]; omega)⟩
  obtain ⟨r, hr, -, hlt⟩ := (h.sound.usable _).mp hlast
  have hupper := (env.usable_nonempty r hr).2
  omega

/-! ## The loop -/

section Loop

variable {limit size alignment : Nat} {map : VMAMap} {es : List (Nat × VirtualMemoryArea)}
  (hlow : ∀ k v, map.find? k = some v → k + v.size < 2 ^ 63)

include hlow

/-- What the loop finds is room in one of the areas it looks at. -/
theorem searchFreeLoop_sound (h : map.WF) (hpos : 0 < alignment) (halign : alignment < 2 ^ 32)
    (hes : ∀ e ∈ es, map.find? e.1 = some e.2)
    (hfound : searchFreeLoop limit size alignment es ≠ U64.max) :
    map.Fits alignment size (searchFreeLoop limit size alignment es) := by
  induction es with
  | nil => exact absurd rfl hfound
  | cons e es ih =>
    obtain ⟨k, v⟩ := e
    have hk := hes (k, v) List.mem_cons_self
    have hrest := ih fun e he => hes e (List.mem_cons_of_mem _ he)
    have hbase := h.key k v hk
    have hend := hlow k v hk
    simp only [searchFreeLoop] at hfound ⊢
    split_ifs at hfound ⊢ with hfree hpast hlimit hroom
    · exact hrest hfound
    · exact hrest hfound
    · exact absurd rfl hfound
    · have hle : v.base ≤ alignUp v.base alignment := le_alignUp hpos (by omega) (by omega)
      refine ⟨dvd_alignUp (by omega), k, v, hk, ?_, by omega, by omega⟩
      simpa [isFree] using hfree
    · exact hrest hfound

/-- When the loop finds nothing, there is no room below the limit in any of the areas. -/
theorem searchFreeLoop_complete (h : map.WF) (hsize : 0 < size) (hpos : 0 < alignment) (halign : alignment < 2 ^ 32)
    (hes : ∀ e ∈ es, map.find? e.1 = some e.2) (hsorted : es.Pairwise fun e e' => e.1 < e'.1)
    (hnone : searchFreeLoop limit size alignment es = U64.max) {e : Nat × VirtualMemoryArea} (he : e ∈ es)
    (hfree : e.2.type = .free) {a : Nat} (hdvd : alignment ∣ a) (hle : e.1 ≤ a) (hlt : a < limit) :
    e.1 + e.2.size < a + size := by
  induction es with
  | nil => cases he
  | cons e₀ es ih =>
    obtain ⟨k, v⟩ := e₀
    have hk := hes (k, v) List.mem_cons_self
    have hbase := h.key k v hk
    have hend := hlow k v hk
    obtain ⟨hfirst, hsorted⟩ := List.pairwise_cons.mp hsorted
    have hrest := ih (fun e he => hes e (List.mem_cons_of_mem _ he)) hsorted
    have hleast : v.base ≤ a → alignUp v.base alignment ≤ a := alignUp_le hpos (by omega) hdvd
    have hlater : e ∈ es → k + v.size ≤ e.1 := by
      intro he
      exact h.separated k v e.1 e.2 hk (hes e (List.mem_cons_of_mem _ he)) (hfirst e he)
    have hmax : alignUp v.base alignment < U64.max := by
      have hbound : alignUp v.base alignment < v.base + alignment := alignUp_lt_add hpos (by omega)
      have hmax : U64.max = 2 ^ 64 - 1 := rfl
      omega
    simp only [searchFreeLoop] at hnone
    split_ifs at hnone with hisFree hpast hlimit hroom
    · cases he with
      | head =>
        dsimp only at hfree
        simp [isFree, hfree] at hisFree
      | tail _ he => exact hrest hnone he
    · cases he with
      | head =>
        have := hleast (by omega)
        dsimp only
        omega
      | tail _ he => exact hrest hnone he
    · -- What comes later lies past the limit as well.
      cases he with
      | head =>
        have := hleast (by omega)
        omega
      | tail _ he =>
        have := hlater he
        omega
    · omega
    · cases he with
      | head =>
        have := hleast (by omega)
        dsimp only
        omega
      | tail _ he => exact hrest hnone he

end Loop

/-! ## The search -/

section Search

variable {env : Environment} {s : MemoryManager} {v : VirtualMemoryArea}

theorem Valid.base_le (henv : env.StartsAtBase) (h : s.Valid env) {k : Nat}
    (hk : s.vmaMap.find? k = some v) : env.systemManagedVirtualBase ≤ k := by
  have hpos := (h.vma.entry k v hk).pos
  have hread : (s.view.virt k).isSome := by
    rw [Option.isSome_iff_exists]
    exact ⟨_, StdMap.at?_of_find? h.vma.separated hk le_rfl (by rw [area_size]; omega)⟩
  obtain ⟨r, hr, hle, -⟩ := (h.sound.usable _).mp hread
  exact (henv.le r hr).trans hle

theorem Valid.first?_eq (henv : env.StartsAtBase) (h : s.Valid env) :
    ∃ v, s.vmaMap.first? = some (env.systemManagedVirtualBase, v) := by
  obtain ⟨r, hr, hbase⟩ := henv.lowest
  have hread := (h.sound.usable r.1).mpr ⟨r, hr, le_rfl, (env.usable_nonempty r hr).1⟩
  obtain ⟨x, hx⟩ := Option.isSome_iff_exists.mp hread
  obtain ⟨k, v, hk, hle, -, -⟩ := StdMap.exists_of_at? hx
  have hkey : k = env.systemManagedVirtualBase := le_antisymm (hbase ▸ hle) (h.base_le henv hk)
  subst hkey
  exact ⟨v, StdMap.first?_eq_some.mpr ⟨hk, fun i b hi => h.base_le henv hi⟩⟩

/-- No area reaches past the hint. -/
def Beyond (map : VMAMap) (addr : Nat) : Prop := ∀ k v, map.find? k = some v → k + v.size ≤ addr

/-- The address of a hint is valid unless every area ends before it. -/
theorem isValidMapping_hint (henv : env.StartsAtBase) (h : s.Valid env) {addr : Nat}
    (haddr : env.systemManagedVirtualBase ≤ addr) :
    (Beyond s.vmaMap addr ∧ isValidMapping s.vmaMap addr 0 = .ok false) ∨
      (¬Beyond s.vmaMap addr ∧ isValidMapping s.vmaMap addr 0 = .ok true) := by
  obtain ⟨w, hfirst⟩ := h.first?_eq henv
  obtain ⟨⟨k, v⟩, hlast⟩ : ∃ e, s.vmaMap.last? = some e := by
    rw [← Option.isSome_iff_exists, StdMap.last?, List.getLast?_isSome]
    rw [StdMap.first?] at hfirst
    exact List.ne_nil_of_mem (List.mem_of_mem_head? hfirst)
  obtain ⟨hk, hmax⟩ := StdMap.last?_eq_some.mp hlast
  have hbase := h.vma.key k v hk
  have hbeyond : Beyond s.vmaMap addr ↔ k + v.size ≤ addr := by
    refine ⟨fun hbeyond => hbeyond k v hk, fun hle j u hj => ?_⟩
    rcases Nat.lt_or_ge j k with hlt | hge
    · have hsep := h.vma.separated j u k v hj hk hlt
      rw [area_size] at hsep
      omega
    · have heq : j = k := le_antisymm (hmax j u hj) hge
      subst heq
      rw [hj] at hk
      cases hk
      exact hle
  rw [hbeyond]
  simp only [isValidMapping, hlast, hfirst, deref, Outcome.ok_bind]
  by_cases hend : k + v.size ≤ addr
  · refine .inl ⟨hend, ?_⟩
    rw [if_pos (by simpa using .inr hend)]
    rfl
  refine .inr ⟨hend, ?_⟩
  rw [if_neg (by simpa using ⟨haddr, Nat.lt_of_not_le hend⟩)]
  rfl

/-- A search that does not start past the last area looks at the area of the aligned hint first. -/
theorem searchFree_of_floor? (henv : env.StartsAtBase) (h : s.Valid env) {addr size alignment k : Nat}
    (hvalid : ¬Beyond s.vmaMap (max addr env.systemManagedVirtualBase)) (hpos : alignment % 2 ^ 32 ≠ 0)
    (hfloor : s.vmaMap.floor? (alignUp (max addr env.systemManagedVirtualBase) (alignment % 2 ^ 32)) = some (k, v)) :
    searchFree env s.vmaMap addr size alignment =
      .ok (if v.isFree && v.contains (alignUp (max addr env.systemManagedVirtualBase) (alignment % 2 ^ 32)) size then
          alignUp (max addr env.systemManagedVirtualBase) (alignment % 2 ^ 32)
        else searchFreeLoop (maxSearchAddress env) size (alignment % 2 ^ 32) (s.vmaMap.startingAt k).tail) := by
  have hmapping : isValidMapping s.vmaMap (max addr env.systemManagedVirtualBase) 0 = .ok true :=
    ((isValidMapping_hint henv h (le_max_right _ _)).resolve_left fun hb => hvalid hb.1).2
  simp only [searchFree, hmapping, Outcome.ok_bind, if_neg hpos, VMAMap.findVMA, hfloor, deref]
  split_ifs <;> simp_all <;> rfl

theorem searchFree_of_beyond (henv : env.StartsAtBase) (h : s.Valid env) {addr size alignment : Nat}
    (hbeyond : Beyond s.vmaMap (max addr env.systemManagedVirtualBase)) :
    searchFree env s.vmaMap addr size alignment = .ok U64.max := by
  have hmapping : isValidMapping s.vmaMap (max addr env.systemManagedVirtualBase) 0 = .ok false :=
    ((isValidMapping_hint henv h (le_max_right _ _)).resolve_right fun hb => hb.1 hbeyond).2
  simp only [searchFree, hmapping, Outcome.ok_bind]
  rfl

/-- An alignment whose low half is zero is divided by. -/
theorem searchFree_of_low_zero (henv : env.StartsAtBase) (h : s.Valid env) {addr size alignment : Nat}
    (hvalid : ¬Beyond s.vmaMap (max addr env.systemManagedVirtualBase)) (hzero : alignment % 2 ^ 32 = 0) :
    searchFree env s.vmaMap addr size alignment = .error .undefined := by
  have hmapping : isValidMapping s.vmaMap (max addr env.systemManagedVirtualBase) 0 = .ok true :=
    ((isValidMapping_hint henv h (le_max_right _ _)).resolve_left fun hb => hvalid hb.1).2
  simp only [searchFree, hmapping, Outcome.ok_bind, if_pos hzero]
  rfl

/-- The search found aligned room in one free area, or there is none from the hint on and below the limit. -/
def FindsRight (env : Environment) (map : VMAMap) (hint size alignment : Nat) (found : Outcome Nat) : Prop :=
  (∃ a, found = .ok a ∧ a ≠ U64.max ∧ map.Fits alignment size a) ∨
    (found = .ok U64.max ∧ ∀ a, hint ≤ a → a < maxSearchAddress env → ¬map.Fits alignment size a)

/-- If the area of the first candidate is free, the size can be added to the candidate, or at least the sum wraps to an
    address past the area. -/
def NoWrap (map : VMAMap) (candidate size : Nat) : Prop :=
  ∀ k v, map.floor? candidate = some (k, v) → v.type = .free →
    candidate + size < 2 ^ 64 ∨ 2 ^ 64 + (k + v.size) < candidate + size

section Found

variable {hint size alignment k : Nat} {v : VirtualMemoryArea} (h : s.Valid env)

include h

/-- The area that holds the aligned hint. -/
theorem Valid.exists_floor? (henv : env.StartsAtBase) (hle : env.systemManagedVirtualBase ≤ hint) :
    ∃ k v, s.vmaMap.floor? hint = some (k, v) := by
  obtain ⟨w, hfirst⟩ := h.first?_eq henv
  obtain ⟨hk, -⟩ := StdMap.first?_eq_some.mp hfirst
  cases hfloor : s.vmaMap.floor? hint with
  | none =>
    have hlt := StdMap.floor?_eq_none.mp hfloor _ _ hk
    dsimp only at hlt
    omega
  | some e => exact ⟨e.1, e.2, rfl⟩

/-- Room from the hint on lies in the area of the aligned hint or in a later one. -/
theorem Valid.mem_startingAt_of_fits (hpos : 0 < alignment) (hfits : hint + alignment < 2 ^ 64)
    (hfloor : s.vmaMap.floor? (alignUp hint alignment) = some (k, v)) (hsize : 0 < size) {a j : Nat}
    {w : VirtualMemoryArea} (hdvd : alignment ∣ a) (hle : hint ≤ a) (hj : s.vmaMap.find? j = some w)
    (hend : a + size ≤ j + w.size) : (j, w) ∈ s.vmaMap.startingAt k := by
  refine StdMap.mem_startingAt_iff.mpr ⟨hj, ?_⟩
  obtain ⟨hk, hka, -⟩ := StdMap.floor?_eq_some.mp hfloor
  have hleast := alignUp_le hpos hfits hdvd hle
  by_contra hlt
  have hsep := h.vma.separated j w k v hj hk (Nat.lt_of_not_le hlt)
  rw [area_size] at hsep
  dsimp only at hka
  omega

/-- `Contains` as the code computes it for a candidate. -/
theorem Valid.contains_iff (hk : s.vmaMap.find? k = some v) {candidate : Nat} (hle : k ≤ candidate) :
    (v.isFree && v.contains candidate size) = true ↔
      v.type = .free ∧ U64.add candidate size ≤ k + v.size := by
  have hbase := h.vma.key k v hk
  simp only [isFree, VirtualMemoryArea.contains, hbase, Bool.and_eq_true, beq_iff_eq, decide_eq_true_eq]
  exact and_congr_right fun _ => and_iff_right hle

/-- With an alignment of 32 bits and a sum that does not wrap into the area, the search is right. -/
theorem findsRight_of_noWrap (hsize : 0 < size) (hlt : size < 2 ^ 64) (hpos : 0 < alignment) (halign : alignment < 2 ^ 32)
    (hhint : hint < 2 ^ 63) (hfloor : s.vmaMap.floor? (alignUp hint alignment) = some (k, v))
    (hwrap : v.type = .free → alignUp hint alignment + size < 2 ^ 64 ∨
      2 ^ 64 + (k + v.size) < alignUp hint alignment + size) :
    FindsRight env s.vmaMap hint size alignment
      (.ok (if v.isFree && v.contains (alignUp hint alignment) size then alignUp hint alignment
        else searchFreeLoop (maxSearchAddress env) size alignment (s.vmaMap.startingAt k).tail)) := by
  have hfits : hint + alignment < 2 ^ 64 := by omega
  obtain ⟨hk, hka, -⟩ := StdMap.floor?_eq_some.mp hfloor
  dsimp only at hk hka
  have hbound := alignUp_lt_add hpos hfits
  have hmax : U64.max = 2 ^ 64 - 1 := rfl
  have hcontains : (v.isFree && v.contains (alignUp hint alignment) size) = true ↔
      v.type = .free ∧ alignUp hint alignment + size ≤ k + v.size := by
    rw [h.contains_iff hk hka]
    refine and_congr_right fun hfree => ?_
    have hend := h.end_lt_half hk
    rcases hwrap hfree with hadd | hpast
    · rw [U64.add_of_lt hadd]
    · have hsum : U64.add (alignUp hint alignment) size = alignUp hint alignment + size - 2 ^ 64 := by
        unfold U64.add
        omega
      omega
  split
  · next hfirst =>
    obtain ⟨hfree, hroom⟩ := hcontains.mp hfirst
    exact .inl ⟨_, rfl, by omega, dvd_alignUp hfits, k, v, hk, hfree, hka, hroom⟩
  rename_i hfirst
  have hlow : ∀ k v, s.vmaMap.find? k = some v → k + v.size < 2 ^ 63 := fun k v hk => h.end_lt_half hk
  have hcons := h.vma.separated.startingAt_eq_cons hk (h.vma.entry k v hk).pos
  rw [hcons, List.tail_cons]
  have hes : ∀ e ∈ s.vmaMap.startingAt (k + Area.size v), s.vmaMap.find? e.1 = some e.2 := fun e he =>
    (StdMap.mem_startingAt_iff.mp he).1
  by_cases hfound : searchFreeLoop (maxSearchAddress env) size alignment (s.vmaMap.startingAt (k + Area.size v)) = U64.max
  · refine .inr ⟨congrArg Except.ok hfound, fun a hle hlt hroom => ?_⟩
    obtain ⟨hdvd, j, w, hj, hfree, hja, hend⟩ := hroom
    have hmem := h.mem_startingAt_of_fits hpos hfits hfloor hsize hdvd hle hj hend
    rw [hcons] at hmem
    cases hmem with
    | head =>
      have hleast := alignUp_le hpos hfits hdvd hle
      exact hfirst (hcontains.mpr ⟨hfree, by omega⟩)
    | tail _ hmem =>
      have hshort := searchFreeLoop_complete hlow h.vma hsize hpos halign hes StdMap.sorted_startingAt hfound hmem hfree
        hdvd hja hlt
      dsimp only at hshort
      omega
  · exact .inl ⟨_, rfl, hfound, searchFreeLoop_sound hlow h.vma hpos halign hes hfound⟩

end Found

/-- A candidate in a free area is taken when the size added to it wraps into the area, though no area holds its
    range. -/
theorem not_findsRight_of_wrap (h : s.Valid env) {hint size alignment k : Nat}
    (hpos : 0 < alignment) (halign : alignment < 2 ^ 32) (hhint : hint < 2 ^ 63)
    (hfloor : s.vmaMap.floor? (alignUp hint alignment) = some (k, v)) (hfree : v.type = .free)
    (hwrap : 2 ^ 64 ≤ alignUp hint alignment + size)
    (hinto : alignUp hint alignment + size ≤ 2 ^ 64 + (k + v.size)) {found : Nat} :
    ¬FindsRight env s.vmaMap hint size alignment
      (.ok (if v.isFree && v.contains (alignUp hint alignment) size then alignUp hint alignment else found)) := by
  obtain ⟨hk, hka, -⟩ := StdMap.floor?_eq_some.mp hfloor
  have hbound : alignUp hint alignment < hint + alignment := alignUp_lt_add hpos (by omega)
  have hmax : U64.max = 2 ^ 64 - 1 := rfl
  have hsum : U64.add (alignUp hint alignment) size ≤ k + v.size := by
    unfold U64.add
    omega
  rw [if_pos ((h.contains_iff hk hka).mpr ⟨hfree, hsum⟩)]
  rintro (⟨a, ha, -, -, j, w, hj, -, -, hend⟩ | ⟨ha, -⟩)
  · have heq := Except.ok.inj ha
    have hlow := h.end_lt_half hj
    omega
  · have heq := Except.ok.inj ha
    omega

end Search

/-! ## Mapping where the search says -/

/-- A call of `MapMemory` that passes its checks and is not fixed. -/
structure ReachesSearch (env : Environment) (s : MemoryManager) (size : Nat) (flags : MemoryMapFlags) (type : VMAType)
    (validateDmem : Bool) (physAddr : Nat) : Prop where
  notFixed : flags.has .fixed = false
  section_aligned : ¬(env.isLegacyBackend && type = .direct && physAddr ≠ U64.max && physAddr % 0x10000 ≠ 0)
  budget : ¬(type = .flexible && U64.add s.flexibleUsage size > s.totalFlexibleSize)
  physRange : s.checkPhysRange size validateDmem physAddr = .ok none

section Reaches

variable {env : Environment} {s : MemoryManager} {virtualAddr size physAddr alignment : Nat} {prot : MemoryProt}
  {flags : MemoryMapFlags} {type : VMAType} {name : String} {validateDmem : Bool}

theorem chooseAddress_of_not_fixed (h : flags.has .fixed = false) :
    chooseAddress env s virtualAddr size flags alignment =
      searchFree env s.vmaMap (if virtualAddr = 0 then DEFAULT_MAPPING_BASE else virtualAddr) size alignment >>= fun a =>
        if a = U64.max then .ok (.error .ENOMEM) else .ok (.ok a) := by
  simp only [chooseAddress, h, Bool.false_and, Bool.false_eq_true, if_false, Bool.not_false, if_true]
  rfl

/-- `MapMemory` maps at the address that the search finds, and fails with `ENOMEM` when it finds none. -/
theorem mapMemory_of_reachesSearch (h : ReachesSearch env s size flags type validateDmem physAddr) :
    s.mapMemory env virtualAddr size prot flags type name validateDmem physAddr alignment =
      searchFree env s.vmaMap (if virtualAddr = 0 then DEFAULT_MAPPING_BASE else virtualAddr) size
        (searchAlignment env type alignment) >>= fun a =>
          if a = U64.max then .ok (s, .error .ENOMEM)
          else s.mapMemoryAt env a size prot flags type name physAddr >>= fun s' => .ok (s', .ok a) := by
  have hfixed : ¬(env.isLegacyBackend && type = .direct && flags.has .fixed && virtualAddr % 0x10000 ≠ 0) := by
    simp [h.notFixed]
  simp only [mapMemory, mapMemoryChecks]
  rw [if_neg h.section_aligned, if_neg hfixed, if_neg h.budget, h.physRange]
  simp only [Outcome.ok_bind, chooseAddress_of_not_fixed h.notFixed, searchAlignment]
  generalize searchFree _ _ _ _ _ = found
  cases found with
  | error e => rfl
  | ok a =>
    simp only [Outcome.ok_bind]
    by_cases ha : a = U64.max
    · rw [if_pos ha, if_pos ha]
      rfl
    · rw [if_neg ha, if_neg ha]
      rfl

end Reaches

/-- The search of a call as `MapMemory` makes it. -/
def searchOf (env : Environment) (s : MemoryManager) (virtualAddr size : Nat) (type : VMAType) (alignment : Nat) :
    Outcome Nat :=
  searchFree env s.vmaMap (if virtualAddr = 0 then DEFAULT_MAPPING_BASE else virtualAddr) size
    (searchAlignment env type alignment)

/-- The search of a call is right, and the call maps at the address found or fails with `ENOMEM` and changes nothing. -/
def PlacesRight (env : Environment) (s : MemoryManager) (virtualAddr size : Nat) (prot : MemoryProt)
    (flags : MemoryMapFlags) (type : VMAType) (name : String) (validateDmem : Bool) (physAddr alignment : Nat) : Prop :=
  FindsRight env s.vmaMap (searchHint env virtualAddr) size (searchAlignment env type alignment)
      (searchOf env s virtualAddr size type alignment) ∧
    ∀ found, searchOf env s virtualAddr size type alignment = .ok found →
      s.mapMemory env virtualAddr size prot flags type name validateDmem physAddr alignment =
        if found = U64.max then .ok (s, .error .ENOMEM)
        else s.mapMemoryAt env found size prot flags type name physAddr >>= fun s' => .ok (s', .ok found)

/-- The hint lies past the last area, or the alignment has 32 bits and the size does not wrap into the area of the first
    candidate. -/
def SearchFits (env : Environment) (s : MemoryManager) (virtualAddr size : Nat) (type : VMAType) (alignment : Nat) :
    Prop :=
  Beyond s.vmaMap (searchHint env virtualAddr) ∨
    (searchAlignment env type alignment < 2 ^ 32 ∧
      NoWrap s.vmaMap (alignUp (searchHint env virtualAddr) (searchAlignment env type alignment)) size)

section Main

variable {env : Environment} {s : MemoryManager} {virtualAddr size physAddr alignment : Nat} {prot : MemoryProt}
  {flags : MemoryMapFlags} {type : VMAType} {name : String} {validateDmem : Bool}

/-- A call that reaches the search is right when what it finds is right. -/
theorem placesRight_iff (hreach : ReachesSearch env s size flags type validateDmem physAddr) :
    PlacesRight env s virtualAddr size prot flags type name validateDmem physAddr alignment ↔
      FindsRight env s.vmaMap (searchHint env virtualAddr) size (searchAlignment env type alignment)
        (searchOf env s virtualAddr size type alignment) := by
  refine and_iff_left fun found hfound => ?_
  rw [mapMemory_of_reachesSearch hreach]
  unfold searchOf at hfound
  rw [hfound]
  rfl

/-- A hint that is not past the last area lies in the lower half of the address space. -/
theorem lt_of_not_beyond (h : s.Valid env) {hint : Nat} (hvalid : ¬Beyond s.vmaMap hint) : hint < 2 ^ 63 := by
  simp only [Beyond, not_forall] at hvalid
  obtain ⟨k, v, hk, hlt⟩ := hvalid
  have hend := h.end_lt_half hk
  omega

theorem alignUp_ge_base (env : Environment) {alignment : Nat} (hpos : 0 < alignment) (halign : alignment < 2 ^ 32)
    (hhint : searchHint env virtualAddr < 2 ^ 63) :
    env.systemManagedVirtualBase ≤ alignUp (searchHint env virtualAddr) alignment :=
  (le_max_right _ _).trans (le_alignUp hpos (by omega) hhint)

/-- Where the condition holds the search is right; where the alignment has 32 bits or its low half is zero, it is right
    nowhere else. -/
theorem findsRight_iff (henv : env.StartsAtBase) (h : s.Valid env) (hsize : 0 < size) (hlt : size < 2 ^ 64) :
    (SearchFits env s virtualAddr size type alignment →
      FindsRight env s.vmaMap (searchHint env virtualAddr) size (searchAlignment env type alignment)
        (searchOf env s virtualAddr size type alignment)) ∧
    (searchAlignment env type alignment < 2 ^ 32 ∨ searchAlignment env type alignment % 2 ^ 32 = 0 →
      FindsRight env s.vmaMap (searchHint env virtualAddr) size (searchAlignment env type alignment)
        (searchOf env s virtualAddr size type alignment) →
      SearchFits env s virtualAddr size type alignment) := by
  have hpos := searchAlignment_pos env type alignment
  by_cases hbeyond : Beyond s.vmaMap (searchHint env virtualAddr)
  · refine ⟨fun _ => .inr ⟨searchFree_of_beyond henv h hbeyond, ?_⟩, fun _ _ => .inl hbeyond⟩
    rintro a hle - ⟨-, k, v, hk, -, -, hend⟩
    have := hbeyond k v hk
    omega
  have hhint := lt_of_not_beyond h hbeyond
  by_cases halign : searchAlignment env type alignment < 2 ^ 32
  · have hlow : searchAlignment env type alignment % 2 ^ 32 = searchAlignment env type alignment :=
      Nat.mod_eq_of_lt halign
    obtain ⟨k, v, hfloor⟩ := h.exists_floor? henv (alignUp_ge_base env hpos halign hhint)
    have hsearch : searchOf env s virtualAddr size type alignment = _ :=
      searchFree_of_floor? henv h hbeyond (by omega) (hlow.symm ▸ hfloor)
    rw [hlow] at hsearch
    rw [hsearch]
    refine ⟨fun hfits => ?_, fun _ hright => .inr ⟨halign, fun j w hj hfree => ?_⟩⟩
    · obtain ⟨-, hwrap⟩ := hfits.resolve_left hbeyond
      exact findsRight_of_noWrap h hsize hlt hpos halign hhint hfloor (hwrap k v hfloor)
    · rw [hfloor] at hj
      cases hj
      by_contra hwraps
      simp only [not_or, Nat.not_lt] at hwraps
      exact not_findsRight_of_wrap h hpos halign hhint hfloor hfree hwraps.1 hwraps.2 hright
  · refine ⟨fun hfits => absurd (hfits.resolve_left hbeyond).1 halign, fun hzero hright => ?_⟩
    have hfault : searchOf env s virtualAddr size type alignment = .error .undefined :=
      searchFree_of_low_zero henv h hbeyond (hzero.resolve_left halign)
    rw [hfault] at hright
    rcases hright with ⟨a, ha, -⟩ | ⟨ha, -⟩ <;> cases ha

end Main

/-- A mapping that is not fixed gets aligned room in one free area, or `ENOMEM` when there is none, as long as the
    alignment has 32 bits and the size does not wrap into the area of the first candidate. -/
theorem placesRight_of_searchFits {env : Environment} {s : MemoryManager} (henv : env.StartsAtBase)
    (h : Reachable env anyCall s) {virtualAddr size physAddr alignment : UInt64} {prot : MemoryProt}
    {flags : MemoryMapFlags} {type : VMAType} {name : String} {validateDmem : Bool} (hsize : 0 < size.toNat)
    (hreach : ReachesSearch env s size.toNat flags type validateDmem physAddr.toNat) :
    (SearchFits env s virtualAddr.toNat size.toNat type alignment.toNat →
      PlacesRight env s virtualAddr.toNat size.toNat prot flags type name validateDmem physAddr.toNat
        alignment.toNat) ∧
    (searchAlignment env type alignment.toNat < 2 ^ 32 ∨ searchAlignment env type alignment.toNat % 2 ^ 32 = 0 →
      PlacesRight env s virtualAddr.toNat size.toNat prot flags type name validateDmem physAddr.toNat
        alignment.toNat →
      SearchFits env s virtualAddr.toNat size.toNat type alignment.toNat) := by
  rw [placesRight_iff hreach]
  exact findsRight_iff henv h.valid hsize size.toNat_lt

theorem startsAtBase_retail : Environment.retail.StartsAtBase :=
  ⟨⟨(0x400000, 0x550000000000), List.mem_singleton_self _, rfl⟩, by decide⟩

/-- A reservation as `sceKernelReserveVirtualRange` makes it. -/
theorem reachesSearch_reserve (s : MemoryManager) (size : Nat) :
    ReachesSearch .retail s size 0 .reserved false (UInt64.toNat (-1)) :=
  ⟨by decide, by decide, by simp, by
    have hmax : UInt64.toNat (-1) = U64.max := by decide
    rw [hmax]
    rfl⟩

/-- The hint lies in the first of two areas. -/
theorem placesRight_reserve : ∃ s, run .retail (init .retail) mixedCalls = .ok s ∧
    SearchFits .retail s (UInt64.toNat 0x200000000) (UInt64.toNat 0x4000) .reserved (UInt64.toNat 0x4000) ∧
    PlacesRight .retail s (UInt64.toNat 0x200000000) (UInt64.toNat 0x4000) .noAccess 0 .reserved "anon" false
      (UInt64.toNat (-1)) (UInt64.toNat 0x4000) := by
  obtain ⟨s, hs, hreach, -⟩ := exists_reachable .retail mixedCalls (fun _ => true) issued_mixedCalls
    (by with_unfolding_all decide)
  have hfits : SearchFits .retail s (UInt64.toNat 0x200000000) (UInt64.toNat 0x4000) .reserved
      (UInt64.toNat 0x4000) := by
    refine .inr ⟨by decide, fun k v _ _ => .inl ?_⟩
    decide
  exact ⟨s, hs, hfits, (placesRight_of_searchFits startsAtBase_retail hreach (by decide)
    (reachesSearch_reserve _ _)).1 hfits⟩

/-- An alignment of 4 GiB is cut to zero, and the search divides by it. -/
theorem not_placesRight_reserve : ReachesSearch .retail (init .retail) (UInt64.toNat 0x4000) 0 .reserved false
      (UInt64.toNat (-1)) ∧
    ¬PlacesRight .retail (init .retail) (UInt64.toNat 0) (UInt64.toNat 0x4000) .noAccess 0 .reserved "anon" false
      (UInt64.toNat (-1)) (UInt64.toNat 0x100000000) := by
  refine ⟨reachesSearch_reserve _ _, fun hright => ?_⟩
  have hfault : (searchOf .retail (init .retail) (UInt64.toNat 0) (UInt64.toNat 0x4000) .reserved
      (UInt64.toNat 0x100000000)).toOption = none := by decide
  rcases hright.1 with ⟨a, ha, -⟩ | ⟨ha, -⟩ <;>
  · rw [ha] at hfault
    cases hfault

end MemoryManager

end Core
