-- SUMMARY: Reading guest memory for the GPU: `CopySparseMemory` skips what is not mapped, `ClampRangeSize` cuts a range where the mapped areas end.
import W7PS4.Memory.System

/-!
# Mapped parts of a range

The buffer cache reads guest memory in ranges that need not be mapped as a whole.
`CopySparseMemory` walks over the areas of a range and reads those that are mapped.
`ClampRangeSize` adds up the sizes of mapped areas that follow each other in the map. It does
not look whether the next area begins where the last one ends.
-/

namespace Core

open VirtualMemoryArea (area_size)

namespace MemoryManager

/-! ## The calls -/

/-- The loop of `CopySparseMemory`: the stores to the destination, and the guest addresses it
    reads. -/
def copySparseLoop (guest : Nat → UInt8) :
    List (Nat × VirtualMemoryArea) → Nat → Nat → Nat → Outcome (List (Nat × UInt8) × List Nat)
  | [], _, _, size => if size = 0 then return ([], []) else throw .undefined
  | (first, vma) :: rest, virtualAddr, dest, size =>
    if size = 0 then return ([], [])
    else do
      let copySize := min (U64.sub vma.size (U64.sub virtualAddr first)) size
      let bytes := List.range copySize
      let (stores, reads) ← copySparseLoop guest rest (U64.add virtualAddr copySize)
        (dest + copySize) (size - copySize)
      if vma.isMapped then
        return ((bytes.map fun i => (dest + i, guest (virtualAddr + i))) ++ stores,
          (bytes.map fun i => virtualAddr + i) ++ reads)
      else
        return ((bytes.map fun i => (dest + i, 0)) ++ stores, reads)

def copySparseMemory (s : MemoryManager) (guest : Nat → UInt8) (virtualAddr dest size : Nat) :
    Outcome (List (Nat × UInt8) × List Nat) := do
  assertMsg (← isValidMapping s.vmaMap virtualAddr 0) "Attempted to access invalid address"
  let (vma, _) ← s.vmaMap.findVMA virtualAddr
  copySparseLoop guest (s.vmaMap.startingAt vma) virtualAddr dest size

/-- `MinSizeToClamp`. -/
def minSizeToClamp : Nat := 1024 * oneMB

/-- The loop of `ClampRangeSize` over the areas behind the one of the address. -/
def clampLoop (size : Nat) : List (Nat × VirtualMemoryArea) → Nat → Nat
  | [], clampedSize => clampedSize
  | (_, vma) :: rest, clampedSize =>
    if vma.isMapped && clampedSize < size then clampLoop size rest (U64.add clampedSize vma.size)
    else clampedSize

def clampRangeSize (s : MemoryManager) (virtualAddr size : Nat) : Outcome Nat := do
  if size < minSizeToClamp then
    return size
  else
    assertMsg (← isValidMapping s.vmaMap virtualAddr 0) "Attempted to access invalid address"
    let (handle, vma) ← s.vmaMap.findVMA virtualAddr
    let clampedSize := U64.sub (U64.add vma.base vma.size) virtualAddr
    return min (clampLoop size (s.vmaMap.startingAt handle).tail clampedSize) size

/-! ## Mapped addresses -/

/-- The address lies in an area that is mapped. -/
def mappedAt (s : MemoryManager) (p : Nat) : Bool :=
  (s.vmaMap.floor? p).any fun (e : Nat × VirtualMemoryArea) => p < e.1 + e.2.size && e.2.isMapped

end MemoryManager

namespace VMAMap

/-- The range lies in the map: its bytes do, and so does the address of an empty range. -/
def Contains (map : VMAMap) (addr size : Nat) : Prop := map.Covers addr (max size 1)

end VMAMap

namespace MemoryManager

variable {env : Environment} {s : MemoryManager} {k p addr size dest : Nat} {v : VirtualMemoryArea}

theorem mappedAt_of_find? (h : s.vmaMap.Separated) (hk : s.vmaMap.find? k = some v) (hle : k ≤ p)
    (hlt : p < k + v.size) : s.mappedAt p = v.isMapped := by
  rw [mappedAt, StdMap.floor?_of_mem h hk hle hlt]
  simp [hlt]

theorem exists_of_mappedAt (h : s.mappedAt p = true) :
    ∃ k v, s.vmaMap.find? k = some v ∧ k ≤ p ∧ p < k + v.size ∧ v.isMapped = true := by
  obtain ⟨⟨k, v⟩, hfloor, htest⟩ := (Option.any_eq_true _ _).1 h
  obtain ⟨hk, hle, -⟩ := StdMap.floor?_eq_some.1 hfloor
  simp only [Bool.and_eq_true, decide_eq_true_eq] at htest
  exact ⟨k, v, hk, hle, htest.1, htest.2⟩

/-- An address of an area passes the check for a range of no size. -/
theorem isValidMapping_zero {map : VMAMap} (h : map.Regions) (hk : map.find? k = some v)
    (hle : k ≤ addr) (hlt : addr < k + v.size) : isValidMapping map addr 0 = .ok true := by
  have hone := (isValidMapping_of_find? h hk hle hlt Nat.one_pos).2 fun p hp => by
    rw [Set.mem_Ico] at hp
    exact ⟨k, v, hk, by omega, by omega⟩
  simp only [isValidMapping, Outcome.bind_eq_ok, deref_eq_ok] at hone ⊢
  obtain ⟨last, hlast, first, hfirst, hrest⟩ := hone
  refine ⟨last, hlast, first, hfirst, ?_⟩
  split at hrest
  · cases hrest
  · rename_i hin
    rw [if_neg hin]
    rfl

/-! ## Copying -/

/-- What a copy of the range stores. -/
def sparseCopy (s : MemoryManager) (guest : Nat → UInt8) (addr dest size : Nat) :
    List (Nat × UInt8) :=
  (List.range size).map fun i => (dest + i, if s.mappedAt (addr + i) then guest (addr + i) else 0)

/-- The addresses of the range that are mapped. -/
def mappedIn (s : MemoryManager) (addr size : Nat) : List Nat :=
  ((List.range size).map fun i => addr + i).filter s.mappedAt

theorem sparseCopy_add (guest : Nat → UInt8) (m n : Nat) :
    s.sparseCopy guest addr dest m ++ s.sparseCopy guest (addr + m) (dest + m) n =
      s.sparseCopy guest addr dest (m + n) := by
  simp only [sparseCopy, List.range_add, List.map_append, List.map_map, Function.comp_def,
    Nat.add_assoc]

theorem mappedIn_add (m n : Nat) :
    s.mappedIn addr m ++ s.mappedIn (addr + m) n = s.mappedIn addr (m + n) := by
  simp only [mappedIn, List.range_add, List.map_append, List.filter_append, List.map_map,
    Function.comp_def, Nat.add_assoc]

/-- A piece within one area. -/
theorem sparseCopy_of_find? {guest : Nat → UInt8} (h : s.vmaMap.Separated)
    (hk : s.vmaMap.find? k = some v) (hle : k ≤ addr) (hfit : addr + size ≤ k + v.size) :
    s.sparseCopy guest addr dest size =
      (List.range size).map fun i => (dest + i, if v.isMapped then guest (addr + i) else 0) := by
  refine List.map_congr_left fun i hi => ?_
  rw [List.mem_range] at hi
  rw [mappedAt_of_find? h hk (by omega) (by omega)]

theorem mappedIn_of_find? (h : s.vmaMap.Separated) (hk : s.vmaMap.find? k = some v)
    (hle : k ≤ addr) (hfit : addr + size ≤ k + v.size) :
    s.mappedIn addr size =
      if v.isMapped then (List.range size).map fun i => addr + i else [] := by
  have hall : ∀ a ∈ (List.range size).map (fun i => addr + i), s.mappedAt a = v.isMapped := by
    intro a ha
    obtain ⟨i, hi, rfl⟩ := List.mem_map.1 ha
    rw [List.mem_range] at hi
    exact mappedAt_of_find? h hk (by omega) (by omega)
  rw [mappedIn, List.filter_congr hall]
  cases v.isMapped with
  | true => simp
  | false => simp

/-- A turn of the loop stores what the copy of its piece does, and reads what is mapped of it. -/
theorem copySparseLoop_cons {guest : Nat → UInt8} {rest : List (Nat × VirtualMemoryArea)}
    {copySize : Nat} {r : List (Nat × UInt8) × List Nat} (h : s.vmaMap.Separated)
    (hk : s.vmaMap.find? k = some v) (hle : k ≤ addr) (hfit : addr + copySize ≤ k + v.size)
    (hpos : 0 < size)
    (hsize : min (U64.sub v.size (U64.sub addr k)) size = copySize)
    (hrest : copySparseLoop guest rest (U64.add addr copySize) (dest + copySize)
      (size - copySize) = .ok r) :
    copySparseLoop guest ((k, v) :: rest) addr dest size =
      .ok (s.sparseCopy guest addr dest copySize ++ r.1, s.mappedIn addr copySize ++ r.2) := by
  rw [copySparseLoop, if_neg (by omega)]
  simp only [hsize, hrest, Outcome.ok_bind]
  rw [sparseCopy_of_find? h hk hle hfit, mappedIn_of_find? h hk hle hfit]
  cases v.isMapped with
  | true => rfl
  | false => rfl

/-- The loop copies a range of the map, from the area that holds its first byte on. -/
theorem copySparseLoop_eq {guest : Nat → UInt8} (h : s.vmaMap.WF)
    (hk : s.vmaMap.find? k = some v) (hle : k ≤ addr) (hlt : addr < k + v.size)
    (hcovers : s.vmaMap.Covers addr size) :
    copySparseLoop guest (s.vmaMap.startingAt k) addr dest size =
      .ok (s.sparseCopy guest addr dest size, s.mappedIn addr size) := by
  have hend : ∀ {k addr : Nat} {v : VirtualMemoryArea}, s.vmaMap.find? k = some v → k ≤ addr →
      addr < k + v.size → U64.sub v.size (U64.sub addr k) = k + v.size - addr := by
    intro k addr v hk hle hlt
    have := h.end_lt k v hk
    rw [U64.sub_of_le (a := addr) (by omega) hle, U64.sub_of_le (by omega) (by omega)]
    omega
  refine StdMap.Separated.walk_induction
    (P := fun k _ c n => ∀ dest, copySparseLoop guest (s.vmaMap.startingAt k) c dest n =
      .ok (s.sparseCopy guest c dest n, s.mappedIn c n)) h.separated ?_ ?_ hk hle hlt
    (fun p hp hp' => h.regions.isSome_at?_iff.2 (hcovers p (Set.mem_Ico.2 ⟨hp, hp'⟩))) dest
  · intro k v c n hk hle hlt hfit dest
    simp only [area_size] at hlt hfit
    rw [h.separated.startingAt_eq_cons hk (h.entry k v hk).pos]
    rcases Nat.eq_zero_or_pos n with rfl | hpos
    · rw [copySparseLoop, if_pos rfl]
      rfl
    · have hrest : copySparseLoop guest (s.vmaMap.startingAt (k + Area.size v)) (U64.add c n)
          (dest + n) (n - n) = .ok ([], []) := by
        rw [Nat.sub_self]
        cases s.vmaMap.startingAt (k + Area.size v) <;> rfl
      rw [copySparseLoop_cons h.separated hk hle hfit hpos
        (by rw [hend hk hle hlt]; omega) hrest, List.append_nil, List.append_nil]
  · intro k v c n w hk hle hlt hmore hw hwpos ih dest
    simp only [area_size] at hlt hmore hw hwpos ih
    have hbound := h.end_lt k v hk
    rw [h.separated.startingAt_eq_cons hk (h.entry k v hk).pos, area_size]
    obtain ⟨d, hd⟩ : ∃ d, c + d = k + v.size := ⟨k + v.size - c, by omega⟩
    have hrest := ih (dest + d)
    rw [show c + n - (k + v.size) = n - d by omega, ← hd, ← U64.add_of_lt (by omega)] at hrest
    rw [← hd, ← U64.add_of_lt (a := c) (b := d) (by omega)]
    rw [copySparseLoop_cons h.separated hk hle (le_of_eq hd) (by omega)
      (by rw [hend hk hle hlt]; omega) hrest, U64.add_of_lt (by omega), sparseCopy_add,
      mappedIn_add, show d + (n - d) = n by omega]

/-- The copy of a range of the map stores the byte of every mapped address and zero for the
    others, and reads mapped addresses only. -/
theorem copySparseMemory_eq {C : MemoryManager → Op → Prop} (hreach : Reachable env C s)
    (guest : Nat → UInt8) (addr dest size : Nat) (hin : s.vmaMap.Contains addr size) :
    ∃ reads, s.copySparseMemory guest addr dest size =
        .ok ((List.range size).map fun i =>
          (dest + i, if s.mappedAt (addr + i) then guest (addr + i) else 0), reads) ∧
      ∀ a ∈ reads, s.mappedAt a = true := by
  have hwf := hreach.valid.vma
  obtain ⟨k, v, hk, hle, hlt⟩ := hin addr (by rw [Set.mem_Ico]; omega)
  refine ⟨s.mappedIn addr size, ?_, fun a ha => (List.mem_filter.1 ha).2⟩
  have hcovers : s.vmaMap.Covers addr size := fun p hp => by
    rw [Set.mem_Ico] at hp
    exact hin p (by rw [Set.mem_Ico]; omega)
  simp only [copySparseMemory, isValidMapping_zero hwf.regions hk hle hlt, Outcome.ok_bind,
    assertMsg, if_true, VMAMap.findVMA, StdMap.floor?_of_mem hwf.separated hk hle hlt, deref]
  exact copySparseLoop_eq hwf hk hle hlt hcovers

/-- A page of flexible memory, and free memory behind it. -/
theorem copySparseMemory_page : ∃ s, Reachable .retail anyCall s ∧
    ∃ reads, s.copySparseMemory (fun _ => 7) 0x403ffe 0 4 =
        .ok ((List.range 4).map fun i => (0 + i, if s.mappedAt (0x403ffe + i) then 7 else 0),
          reads) ∧
      ∀ a ∈ reads, s.mappedAt a = true := by
  obtain ⟨s, -, hreach, ht⟩ := exists_reachable .retail
    [.mapMemory 0x400000 0x4000 .cpuRead .fixed .flexible "a" false 0xFFFFFFFFFFFFFFFF 0]
    (fun s => (List.range 4).all fun i => (s.vmaMap.floor? (0x403ffe + i)).any
      fun (e : Nat × VirtualMemoryArea) => decide (0x403ffe + i < e.1 + e.2.size))
    (by decide) (by with_unfolding_all decide)
  refine ⟨s, hreach, copySparseMemory_eq hreach (fun _ => 7) 0x403ffe 0 4 fun p hp => ?_⟩
  rw [Set.mem_Ico] at hp
  obtain ⟨i, rfl⟩ := Nat.exists_eq_add_of_le hp.1
  obtain ⟨⟨k, v⟩, hf, hok⟩ := (Option.any_eq_true _ _).1
    (List.all_eq_true.1 ht i (List.mem_range.2 (by omega)))
  obtain ⟨hk, hle, -⟩ := StdMap.floor?_eq_some.1 hf
  exact ⟨k, v, hk, hle, of_decide_eq_true hok⟩

/-! ## Clamping -/

/-- The result is no more than the size, all of the range it cuts off is mapped where the size
    is one that is cut, and a range that is mapped as a whole stays whole. -/
structure Clamps (s : MemoryManager) (addr size r : Nat) : Prop where
  le : r ≤ size
  mapped : minSizeToClamp ≤ size → ∀ p ∈ Set.Ico addr (addr + r), s.mappedAt p = true
  whole : (∀ p ∈ Set.Ico addr (addr + size), s.mappedAt p = true) → r = size

/-- Where the mapped areas from the address on end inside the range, and there is a gap, the
    area behind the gap is not mapped. -/
def StopsAtGaps (s : MemoryManager) (addr size : Nat) : Prop :=
  ∀ k v j w, s.vmaMap.find? k = some v → s.vmaMap.next? k = some (j, w) → addr < k + v.size →
    k + v.size < addr + size → (∀ p ∈ Set.Ico addr (k + v.size), s.mappedAt p = true) →
    k + v.size < j → w.isMapped = false

section

variable {j r : Nat} {w : VirtualMemoryArea}

/-- The byte behind an area is mapped only if the next area begins there and is. -/
theorem mappedAt_end (h : s.vmaMap.WF) (hk : s.vmaMap.find? k = some v)
    (hp : s.mappedAt (k + v.size) = true) :
    ∃ w, s.vmaMap.next? k = some (k + v.size, w) ∧ w.isMapped = true := by
  obtain ⟨i, a, hi, hle, hlt, hmapped⟩ := exists_of_mappedAt hp
  have hx := StdMap.at?_of_find? h.separated hi hle hlt
  obtain ⟨w, hnext, -⟩ := StdMap.next?_of_at? h.separated hk (h.entry k v hk).pos hx
  rw [area_size] at hnext
  have hw := (StdMap.next?_eq_some.1 hnext).1
  have hpos : 0 < w.size := (h.entry _ w hw).pos
  refine ⟨w, hnext, ?_⟩
  rwa [mappedAt_of_find? h.separated hw le_rfl (Nat.lt_add_of_pos_right hpos)] at hp

/-- The sum never falls, and it does not pass the end of the address space. -/
theorem le_clampLoop (h : s.vmaMap.WF) (hk : s.vmaMap.find? k = some v) {c : Nat}
    (hc : c ≤ k + v.size - addr) (hle : addr ≤ k + v.size) :
    c ≤ clampLoop size (s.vmaMap.startingAt k).tail c := by
  refine StdMap.next_induction
    (P := fun k v => ∀ c, c ≤ k + v.size - addr → addr ≤ k + v.size →
      c ≤ clampLoop size (s.vmaMap.startingAt k).tail c) ?_ ?_ hk c hc hle
  · intro k v _ hnext c _ _
    rw [StdMap.tail_startingAt_of_last hnext]
    exact le_rfl
  · intro k v j w hk hnext hj hkj ih c hc hle
    rw [StdMap.tail_startingAt hk hnext, clampLoop]
    split
    · have hbound := h.end_lt j w hj
      have hsep := h.separated k v j w hk hj hkj
      simp only [area_size] at hsep
      rw [U64.add_of_lt (by omega)]
      exact (Nat.le_add_right _ _).trans (ih _ (by omega) (by omega))
    · exact le_rfl

/-- Where no gap is passed, all the loop has counted is mapped, and what comes next is not. -/
theorem clampLoop_spec (h : s.vmaMap.WF) (hstops : s.StopsAtGaps addr size)
    (hk : s.vmaMap.find? k = some v) (hlt : addr < k + v.size)
    (hall : ∀ p ∈ Set.Ico addr (k + v.size), s.mappedAt p = true) :
    (∀ p ∈ Set.Ico addr (addr + clampLoop size (s.vmaMap.startingAt k).tail (k + v.size - addr)),
        s.mappedAt p = true) ∧
      (clampLoop size (s.vmaMap.startingAt k).tail (k + v.size - addr) < size →
        s.mappedAt (addr + clampLoop size (s.vmaMap.startingAt k).tail (k + v.size - addr)) =
          false) := by
  refine StdMap.next_induction
    (P := fun k v => addr < k + v.size → (∀ p ∈ Set.Ico addr (k + v.size), s.mappedAt p = true) →
      (∀ p ∈ Set.Ico addr (addr + clampLoop size (s.vmaMap.startingAt k).tail
          (k + v.size - addr)), s.mappedAt p = true) ∧
        (clampLoop size (s.vmaMap.startingAt k).tail (k + v.size - addr) < size →
          s.mappedAt (addr + clampLoop size (s.vmaMap.startingAt k).tail (k + v.size - addr)) =
            false)) ?_ ?_ hk hlt hall
  · intro k v hk hnext hlt hall
    rw [StdMap.tail_startingAt_of_last hnext, clampLoop, Nat.add_sub_cancel' hlt.le]
    refine ⟨hall, fun _ => Bool.eq_false_iff.2 fun hp => ?_⟩
    obtain ⟨w, hw, -⟩ := mappedAt_end h hk hp
    rw [hnext] at hw
    cases hw
  · intro k v j w hk hnext hj hkj ih hlt hall
    rw [StdMap.tail_startingAt hk hnext, clampLoop]
    have hsep := h.separated k v j w hk hj hkj
    simp only [area_size] at hsep
    split
    · rename_i hgo
      rw [Bool.and_eq_true, decide_eq_true_eq] at hgo
      have hjk : k + v.size = j := by
        by_contra hgap
        have := hstops k v j w hk hnext hlt (by omega) hall (by omega)
        rw [hgo.1] at this
        cases this
      have hbound := h.end_lt j w hj
      have hsum : U64.add (k + v.size - addr) w.size = j + w.size - addr := by
        rw [U64.add_of_lt (by omega)]
        omega
      rw [hsum]
      refine ih (by omega) fun p hp => ?_
      rw [Set.mem_Ico] at hp
      by_cases hpk : p < k + v.size
      · exact hall p (Set.mem_Ico.2 ⟨hp.1, hpk⟩)
      · rw [mappedAt_of_find? h.separated hj (by omega) hp.2, hgo.1]
    · rename_i hstop
      rw [Nat.add_sub_cancel' hlt.le]
      refine ⟨hall, fun hsize => Bool.eq_false_iff.2 fun hp => hstop ?_⟩
      obtain ⟨w', hw', hmapped⟩ := mappedAt_end h hk hp
      rw [hnext] at hw'
      cases hw'
      rw [hmapped, decide_eq_true hsize]
      rfl

/-- As long as all is mapped and less than the size, the loop goes on to the next area. -/
theorem clampLoop_reaches {i : Nat} {a : VirtualMemoryArea} (h : s.vmaMap.WF)
    (hi : s.vmaMap.find? i = some a) (hile : i ≤ addr) (hilt : addr < i + a.size)
    (hk : s.vmaMap.find? k = some v) (hlt : addr < k + v.size) (hend : k + v.size < addr + size)
    (hall : ∀ p ∈ Set.Ico addr (k + v.size), s.mappedAt p = true) :
    clampLoop size (s.vmaMap.startingAt i).tail (i + a.size - addr) =
      clampLoop size (s.vmaMap.startingAt k).tail (k + v.size - addr) := by
  refine StdMap.Separated.walk_induction
    (P := fun i a c n => addr ≤ c → 0 < n → c + n = k + v.size →
      clampLoop size (s.vmaMap.startingAt i).tail (i + a.size - addr) =
        clampLoop size (s.vmaMap.startingAt k).tail (k + v.size - addr)) (c := addr)
    (n := k + v.size - addr) h.separated ?_ ?_ hi hile hilt ?_ le_rfl (by omega) (by omega)
  · intro i a c n hi hile hilt hfit _ hn hcn
    simp only [area_size] at hilt hfit
    have hpos := (h.entry k v hk).pos
    -- both areas hold the last byte of the run
    obtain rfl := h.separated.unique (p := k + v.size - 1) hi hk (by omega)
      (by simp only [area_size]; omega) (by omega)
      (by simp only [area_size]; omega)
    rw [hi] at hk
    cases hk
    rfl
  · intro i a c n b hi hile hilt hmore hb _ ih hc hn hcn
    simp only [area_size] at hilt hmore hb ih
    obtain ⟨w, hnext, hmapped⟩ := mappedAt_end h hi
      (hall (i + a.size) (Set.mem_Ico.2 ⟨by omega, by omega⟩))
    obtain rfl : b = w := Option.some.inj (hb.symm.trans (StdMap.next?_eq_some.1 hnext).1)
    have hbound := h.end_lt _ b hb
    rw [StdMap.tail_startingAt hi hnext, clampLoop, hmapped, Bool.true_and,
      if_pos (decide_eq_true (by omega)), U64.add_of_lt (by omega),
      show i + a.size - addr + b.size = i + a.size + b.size - addr by omega]
    exact ih (by omega) (by omega) (by omega)
  · intro p hp hp'
    obtain ⟨j, w, hj, hjle, hjlt, -⟩ :=
      exists_of_mappedAt (hall p (Set.mem_Ico.2 ⟨hp, by omega⟩))
    exact h.regions.isSome_at?_iff.2 ⟨j, w, hj, hjle, hjlt⟩

theorem clampRangeSize_eq (h : s.vmaMap.WF) (hk : s.vmaMap.find? k = some v) (hle : k ≤ addr)
    (hlt : addr < k + v.size) (hsize : ¬size < minSizeToClamp) :
    s.clampRangeSize addr size =
      .ok (min (clampLoop size (s.vmaMap.startingAt k).tail (k + v.size - addr)) size) := by
  have hend := h.end_lt k v hk
  have hbase : U64.sub (U64.add v.base v.size) addr = k + v.size - addr := by
    rw [h.key k v hk, U64.add_of_lt hend, U64.sub_of_le hend hlt.le]
  simp only [clampRangeSize, if_neg hsize, isValidMapping_zero h.regions hk hle hlt,
    Outcome.ok_bind, assertMsg, if_true, VMAMap.findVMA,
    StdMap.floor?_of_mem h.separated hk hle hlt, deref, hbase]
  rfl

/-- From an address that is mapped, the range is cut as it should be unless the size is one
    that is cut and the mapped areas go on behind a gap. -/
theorem clamps_iff {C : MemoryManager → Op → Prop} (hreach : Reachable env C s) (addr size : Nat)
    (haddr : s.mappedAt addr = true) :
    (∃ r, s.clampRangeSize addr size = .ok r ∧ s.Clamps addr size r) ↔
      size < minSizeToClamp ∨ s.StopsAtGaps addr size := by
  have h := hreach.valid.vma
  obtain ⟨i, a, hi, hile, hilt, hmapped⟩ := exists_of_mappedAt haddr
  by_cases hsize : size < minSizeToClamp
  · refine iff_of_true ⟨size, ?_, le_rfl, fun hge => absurd hsize hge.not_gt, fun _ => rfl⟩
      (.inl hsize)
    rw [clampRangeSize, if_pos hsize]
    rfl
  rw [clampRangeSize_eq h hi hile hilt hsize]
  constructor
  · rintro ⟨r, hr, hclamps⟩
    cases hr
    right
    intro k v j w hk hnext hlt hend hall hgap
    refine Bool.eq_false_iff.2 fun hw => ?_
    obtain ⟨hj, hkj, -⟩ := StdMap.next?_eq_some.1 hnext
    have hbound := h.end_lt j w hj
    have hpos := (h.entry j w hj).pos
    simp only at hj hkj
    -- the loop counts the area behind the gap, so the first byte of the gap would be mapped
    have hsum : k + v.size - addr + w.size ≤ j + w.size - addr := by omega
    have hmore : k + v.size - addr + w.size ≤
        clampLoop size (s.vmaMap.startingAt i).tail (i + a.size - addr) := by
      rw [clampLoop_reaches h hi hile hilt hk hlt hend hall, StdMap.tail_startingAt hk hnext,
        clampLoop, hw, Bool.true_and, if_pos (decide_eq_true (by omega)),
        U64.add_of_lt (by omega)]
      exact le_clampLoop h hj hsum (by omega)
    have hin := hclamps.mapped (by omega) (k + v.size) (Set.mem_Ico.2 ⟨by omega, by omega⟩)
    obtain ⟨w', hnext', -⟩ := mappedAt_end h hk hin
    rw [hnext] at hnext'
    cases hnext'
    omega
  · rintro (hlt | hstops)
    · exact absurd hlt hsize
    obtain ⟨hall, hnot⟩ := clampLoop_spec h hstops hi hilt fun p hp => by
      rw [Set.mem_Ico] at hp
      rw [mappedAt_of_find? h.separated hi (by omega) hp.2, hmapped]
    generalize clampLoop size (s.vmaMap.startingAt i).tail (i + a.size - addr) = c at *
    refine ⟨min c size, rfl, Nat.min_le_right _ _, fun _ p hp => ?_, fun hwhole => ?_⟩
    · rw [Set.mem_Ico] at hp
      exact hall p (Set.mem_Ico.2 ⟨hp.1, by omega⟩)
    · rcases Nat.lt_or_ge c size with hc | hc
      · have hp := hwhole (addr + c) (Set.mem_Ico.2 ⟨by omega, by omega⟩)
        rw [hnot hc] at hp
        cases hp
      · exact Nat.min_eq_right hc

end

/-- The lower region, and a page at the start of the upper one. -/
def mapAroundGap : List Op :=
  [.mapMemory 0x400000 0x400000 .cpuRead .fixed .flexible "a" false 0xFFFFFFFFFFFFFFFF 0,
    .mapMemory 0x1000000 0x4000 .cpuRead .fixed .flexible "b" false 0xFFFFFFFFFFFFFFFF 0]

theorem clamps_iff_upper_page : ∃ s, Reachable .gapped anyCall s ∧
    ((∃ r, s.clampRangeSize 0x1000000 0x40000000 = .ok r ∧ s.Clamps 0x1000000 0x40000000 r) ↔
      0x40000000 < minSizeToClamp ∨ s.StopsAtGaps 0x1000000 0x40000000) := by
  obtain ⟨s, -, hreach, ht⟩ := exists_reachable .gapped mapAroundGap
    (fun s => s.mappedAt 0x1000000) (by decide) (by with_unfolding_all decide)
  exact ⟨s, hreach, clamps_iff hreach 0x1000000 0x40000000 ht⟩

/-- The page behind the gap is counted as if it came right behind the lower region. -/
theorem not_clamps_lower_region : ∃ s, Reachable .gapped anyCall s ∧ s.mappedAt 0x400000 = true ∧
    ¬∃ r, s.clampRangeSize 0x400000 0x40000000 = .ok r ∧ s.Clamps 0x400000 0x40000000 r := by
  obtain ⟨s, -, hreach, ht⟩ := exists_reachable .gapped mapAroundGap
    (fun s => s.mappedAt 0x400000 && !s.mappedAt 0x800000 &&
      decide (s.clampRangeSize 0x400000 0x40000000 = .ok 0x404000)) (by decide) (by decide +kernel)
  simp only [Bool.and_eq_true, Bool.not_eq_true', decide_eq_true_eq] at ht
  obtain ⟨⟨haddr, hgap⟩, hclamp⟩ := ht
  refine ⟨s, hreach, haddr, ?_⟩
  rintro ⟨r, hr, hclamps⟩
  obtain rfl : 0x404000 = r := Except.ok.inj (hclamp.symm.trans hr)
  have hin := hclamps.mapped (by decide) 0x800000 (by rw [Set.mem_Ico]; omega)
  rw [hgap] at hin
  cases hin

end MemoryManager

end Core
