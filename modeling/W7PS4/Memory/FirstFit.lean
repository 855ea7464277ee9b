-- SUMMARY: The search for free direct memory ends at the lowest range that one area has room for: what that makes of `Allocate` and `PoolExpand`.
import W7PS4.Memory.Limits
import Mathlib

/-!
# First fit in direct memory

`Allocate` and `PoolExpand` share a search. It takes the first free area that has
room behind its first aligned address, so a range that two areas share is not
found, and neither is one past which an enormous alignment wraps around. `Allocate`
then compares the end of the range with the end of the window, which `PoolExpand`
does not.
-/

section Align

variable {value size a : Nat}

/-- Below the middle of the address space aligning leads to the next multiple. -/
theorem alignUp_isLeast (hpos : 0 < size) (hsize : size < 2 ^ 64) (h : value < 2 ^ 63) :
    IsLeast {x | size ∣ x ∧ value ≤ x} (alignUp value size) := by
  have hmod := Nat.mod_lt value hpos
  have hle := Nat.mod_le value size
  have hdvd : size ∣ value - value % size := Nat.dvd_sub_mod value
  have hfit : value - value % size + size < 2 ^ 64 := by
    rcases Nat.lt_or_ge value size with hlt | hge
    · rw [Nat.mod_eq_of_lt hlt]
      omega
    · omega
  refine ⟨⟨?_, le_alignUp hpos hsize h⟩, ?_⟩
  · simp only [alignUp]
    split
    · exact hdvd
    · rw [U64.add_of_lt hfit]
      exact Nat.dvd_add_self_right.mpr hdvd
  · rintro x ⟨hx, hvx⟩
    simp only [alignUp]
    split
    · omega
    rename_i hne
    rw [U64.add_of_lt hfit]
    -- no multiple lies strictly between the two
    by_contra hlt
    have hstep : size ≤ x - (value - value % size) :=
      Nat.le_of_dvd (by omega) (Nat.dvd_sub hx hdvd)
    omega

end Align

namespace Core

open PhysicalMemoryArea (area_size getEnd)
open Outcome (bind_eq_ok ok_bind pure_eq_ok)

/-- The range lies in the window and starts at a multiple of the alignment. -/
structure Placed (searchStart searchEnd alignment x n : Nat) : Prop where
  start_le : searchStart ≤ x
  end_le : x + n ≤ searchEnd
  dvd : alignment ∣ x

namespace PhysMap

variable {x : Extent} {map : PhysMap} {searchStart size alignment k n p : Nat}
  {a : PhysicalMemoryArea} {P : PhysMap → Prop}

/-- A free area holds the whole range. -/
def FreeRange (map : PhysMap) (p n : Nat) : Prop :=
  ∃ k a, map.find? k = some a ∧ a.dmaType = .free ∧ k ≤ p ∧ p + n ≤ k + a.size

/-! ## The map starts at zero -/

theorem lasting_isSome_zero : Lasting fun map => (map.find? 0).isSome where
  carve := by
    intro map addr size h r hr
    have hsplit : ∀ {map : PhysMap} {k off : Nat}, (map.find? 0).isSome →
        (split map k off).Ensures fun r => (r.1.find? 0).isSome := by
      intro map k off h r hr
      simp only [split, bind_eq_ok, deref_eq_ok, assertMsg_eq_ok, pure_eq_ok] at hr
      obtain ⟨a, -, -, -, rfl⟩ := hr
      have hins : ((map.insert k { a with size := off }).find? 0).isSome := by
        rw [StdMap.find?_insert]
        split
        · rfl
        · exact h
      simp only [StdMap.emplace]
      split
      · exact hins
      rw [StdMap.find?_insert]
      split
      · rfl
      · exact hins
    simp only [carvePhysArea, bind_eq_ok, deref_eq_ok, assertMsg_eq_ok] at hr
    obtain ⟨⟨k, a⟩, -, -, -, -, -, -, -, m₁, hm₁, hr⟩ := hr
    have h₁ : (m₁.find? 0).isSome := by
      split at hm₁
      · obtain ⟨r₁, hr₁, rfl⟩ := Outcome.map_eq_ok.1 hm₁
        exact hsplit h _ hr₁
      · rw [pure_eq_ok] at hm₁
        exact hm₁ ▸ h
    split at hr
    · exact hsplit h₁ _ hr
    · rw [pure_eq_ok] at hr
      exact hr ▸ h₁
  modify := by
    intro map k f h
    rw [StdMap.find?_modify]
    split
    · rename_i hk
      rw [← hk, Option.isSome_map]
      exact h
    · exact h
  merge := by
    intro map k h
    refine StdMap.mergeAdjacent_induction (P := fun m => (m.find? 0).isSome) h ?_
    rintro m m' hm ⟨i, c, j, d, hi, hj, -, rfl⟩
    -- the entry that goes has one before it
    have hij := (StdMap.next?_eq_some.1 hj).2.1
    rw [StdMap.find?_erase, if_neg (by simp only at hij; omega), StdMap.find?_insert]
    split
    · rfl
    · exact hm

/-! ## The candidates -/

/-- Where the search would place the range in an area. -/
def candidate (searchStart alignment : Nat) (a : PhysicalMemoryArea) : Nat :=
  alignUp (max searchStart a.base) alignment

/-- The area is free and the sum the search computes does not exceed its end. -/
def accepts (searchStart size alignment : Nat) (a : PhysicalMemoryArea) : Bool :=
  a.dmaType = .free && U64.add (candidate searchStart alignment a) size ≤ a.getEnd

/-- The search ends at the first area that it accepts. -/
theorem searchFreeArea_eq_find? {e : Nat × PhysicalMemoryArea}
    {es : List (Nat × PhysicalMemoryArea)} (hes : ∀ e' ∈ es, searchStart ≤ e'.2.base) :
    searchFreeArea size alignment (e :: es) (candidate searchStart alignment e.2) =
      ((e :: es).find? fun e => accepts searchStart size alignment e.2).map
        fun e => (e.1, candidate searchStart alignment e.2) := by
  induction es generalizing e with
  | nil =>
    rw [searchFreeArea]
    by_cases hfree : e.2.dmaType = .free
    · by_cases hend : e.2.getEnd < U64.add (candidate searchStart alignment e.2) size
      · simp [accepts, hfree, hend, searchFreeArea]
      · simp [accepts, hfree, hend, Nat.not_lt.1 hend]
    · simp [accepts, hfree, searchFreeArea]
  | cons e' es ih =>
    have hnext : alignUp e'.2.base alignment = candidate searchStart alignment e'.2 := by
      rw [candidate, Nat.max_eq_right (hes e' (by simp))]
    have hrest := ih (e := e') fun e'' he'' => hes e'' (by simp [he''])
    rw [searchFreeArea]
    by_cases hfree : e.2.dmaType = .free
    · by_cases hend : e.2.getEnd < U64.add (candidate searchStart alignment e.2) size
      · rw [if_pos (by simp [hend]), List.find?_cons_of_neg (by simp [accepts, hend]), ← hrest,
          ← hnext]
        rfl
      · rw [if_neg (by simp [hfree, hend]),
          List.find?_cons_of_pos (by simp [accepts, hfree, Nat.not_lt.1 hend])]
        rfl
    · rw [if_pos (by simp [hfree]), List.find?_cons_of_neg (by simp [accepts, hfree]), ← hrest,
        ← hnext]
      rfl

/-- The search from the area that holds the start of the window. -/
theorem searchFreeArea_startingAt (size alignment : Nat) (h : map.WF x)
    (hf : map.floor? searchStart = some (k, a)) :
    searchFreeArea size alignment (map.startingAt k) (candidate searchStart alignment a) =
      ((map.startingAt k).find? fun e => accepts searchStart size alignment e.2).map
        fun e => (e.1, candidate searchStart alignment e.2) := by
  obtain ⟨hk, -, hfar⟩ := StdMap.floor?_eq_some.1 hf
  simp only at hk hfar
  rw [StdMap.startingAt_eq_cons hk (Nat.lt_succ_self k) fun i _ _ hi => hi]
  refine searchFreeArea_eq_find? (e := (k, a)) fun e he => ?_
  obtain ⟨hj, hkj⟩ := StdMap.mem_startingAt_iff.1 he
  rw [h.key _ _ hj]
  by_contra hlt
  have := hfar e.1 e.2 hj (by omega)
  omega

/-! ## What the search accepts -/

/-- The sum for an area runs past the end of the address space, and what is left of it lies in
    the area. -/
def WrapsAt (map : PhysMap) (searchStart size alignment k : Nat) : Prop :=
  ∃ a, map.find? k = some a ∧ a.dmaType = .free ∧
    2 ^ 64 ≤ candidate searchStart alignment a + size ∧
    candidate searchStart alignment a + size - 2 ^ 64 ≤ a.getEnd

section

variable (h : map.WF x) (hx : x.hi < 2 ^ 63) (hal : 0 < alignment ∧ alignment < 2 ^ 64)

include h hx hal

/-- The candidate is the lowest aligned address in the window and the area. -/
theorem isLeast_candidate (hk : map.find? k = some a) (hstart : searchStart < 2 ^ 63) :
    IsLeast {p | alignment ∣ p ∧ searchStart ≤ p ∧ k ≤ p} (candidate searchStart alignment a) := by
  have hbounds := h.bounds k a hk
  have hleast : IsLeast _ (alignUp (max searchStart k) alignment) :=
    alignUp_isLeast hal.1 hal.2 (by omega)
  rw [candidate, h.key k a hk]
  refine ⟨⟨hleast.1.1, (le_max_left _ _).trans hleast.1.2, (le_max_right _ _).trans hleast.1.2⟩, ?_⟩
  rintro p ⟨hdvd, hsp, hkp⟩
  exact hleast.2 ⟨hdvd, max_le hsp hkp⟩

/-- An area that has room is accepted. -/
theorem accepts_of_room (hk : map.find? k = some a) (hfree : a.dmaType = .free)
    (hdvd : alignment ∣ p) (hstart : searchStart ≤ p) (hkp : k ≤ p) (hend : p + size ≤ k + a.size) :
    candidate searchStart alignment a ≤ p ∧ accepts searchStart size alignment a := by
  have hbounds := h.bounds k a hk
  have hle : candidate searchStart alignment a ≤ p :=
    (isLeast_candidate h hx hal hk (by omega)).2 ⟨hdvd, hstart, hkp⟩
  refine ⟨hle, ?_⟩
  simp only [accepts, hfree, decide_true, Bool.true_and, decide_eq_true_eq,
    getEnd, h.key k a hk]
  rw [U64.add_of_lt (by omega)]
  omega

/-- An area that is accepted has room behind its candidate, or the sum wrapped around. -/
theorem room_of_accepts (hk : map.find? k = some a) (hstart : searchStart < 2 ^ 63)
    (hsize : size < 2 ^ 63) (hacc : accepts searchStart size alignment a) :
    (map.FreeRange (candidate searchStart alignment a) size ∧
        k ≤ candidate searchStart alignment a ∧
        candidate searchStart alignment a + size ≤ k + a.size) ∨
      map.WrapsAt searchStart size alignment k := by
  have hbounds := h.bounds k a hk
  have hbase := h.key k a hk
  have hlt : candidate searchStart alignment a < 2 ^ 64 := alignUp_lt (by omega)
  simp only [accepts, Bool.and_eq_true, decide_eq_true_eq] at hacc
  obtain ⟨hfree, hend⟩ := hacc
  by_cases hfit : candidate searchStart alignment a + size < 2 ^ 64
  · rw [U64.add_of_lt hfit, getEnd, hbase] at hend
    have hkc := (isLeast_candidate h hx hal hk hstart).1.2.2
    exact .inl ⟨⟨k, a, hk, hfree, hkc, hend⟩, hkc, hend⟩
  refine .inr ⟨a, hk, hfree, by omega, ?_⟩
  have hadd : U64.add (candidate searchStart alignment a) size =
      candidate searchStart alignment a + size - 2 ^ 64 := by
    unfold U64.add
    omega
  omega

/-- The search reaches every area that has room in the window. -/
theorem exists_accepts_of_freeRange {k₀ : Nat} {a₀ : PhysicalMemoryArea}
    (hf : map.floor? searchStart = some (k₀, a₀)) (hpos : 0 < size) (hroom : map.FreeRange p size)
    (hdvd : alignment ∣ p) (hstart : searchStart ≤ p) :
    ∃ j b, map.find? j = some b ∧ k₀ ≤ j ∧ j ≤ p ∧ accepts searchStart size alignment b ∧
      candidate searchStart alignment b ≤ p := by
  obtain ⟨hk₀, hle₀, -⟩ := StdMap.floor?_eq_some.1 hf
  obtain ⟨j, b, hj, hfree, hjp, hend⟩ := hroom
  simp only at hk₀ hle₀
  obtain ⟨hcand, hacc⟩ := accepts_of_room h hx hal hj hfree hdvd hstart hjp hend
  refine ⟨j, b, hj, ?_, hjp, hacc, hcand⟩
  by_contra hlt
  have := h.separated j b k₀ a₀ hj hk₀ (by omega)
  simp only [area_size] at this
  omega

/-- Where the search ends, no range lies lower that one area has room for. -/
theorem le_of_find?_accepts {k₀ : Nat} {a₀ : PhysicalMemoryArea}
    (hf : map.floor? searchStart = some (k₀, a₀)) (hpos : 0 < size) {e : Nat × PhysicalMemoryArea}
    (hfind : ((map.startingAt k₀).find? fun e => accepts searchStart size alignment e.2) = some e)
    (hroom : map.FreeRange p size) (hdvd : alignment ∣ p) (hstart : searchStart ≤ p) :
    e.1 ≤ p ∧ (e.1 + e.2.size ≤ p ∨ candidate searchStart alignment e.2 ≤ p) := by
  obtain ⟨j, b, hj, hvisited, hjp, hacc, hcand⟩ :=
    exists_accepts_of_freeRange h hx hal hf hpos hroom hdvd hstart
  obtain ⟨hk, -, -, hmin⟩ := StdMap.find?_startingAt_eq_some.1 hfind
  have hkj := hmin j b hj hvisited hacc
  refine ⟨hkj.trans hjp, ?_⟩
  rcases Nat.eq_or_lt_of_le hkj with heq | hlt
  · rw [← heq, hk] at hj
    cases hj
    exact .inr hcand
  · have := h.separated e.1 e.2 j b hk hj hlt
    simp only [area_size] at this
    omega

end

/-- Carving a range out of an area that has room for it succeeds. -/
theorem WF.exists_carvePhysArea (h : map.WF x) (hk : map.find? k = some a) (hkp : k ≤ p)
    (hend : p + n ≤ k + a.size) (hpos : 0 < n) : ∃ r, map.carvePhysArea p n = .ok r := by
  have hbounds := h.bounds k a hk
  have hhi := h.hi_lt
  have hbase := h.key k a hk
  have hfloor : map.floor? p = some (k, a) :=
    StdMap.floor?_of_mem h.separated hk hkp (by simp only [area_size]; omega)
  have hadd : U64.add (p - a.base) n = p - k + n := by
    rw [hbase, U64.add_of_lt (by omega)]
  have hsplit : ∀ {map : PhysMap} {b : PhysicalMemoryArea} (off : Nat), map.find? k = some b →
      0 < off → off < b.size → ∃ r, map.split k off = .ok r := by
    intro map b off hb hpos hlt
    simp only [PhysMap.split, bind_eq_ok, deref_eq_ok, assertMsg_eq_ok, Bool.and_eq_true,
      decide_eq_true_eq]
    exact ⟨_, b, hb, (), ⟨hlt, hpos⟩, rfl⟩
  simp only [PhysMap.carvePhysArea, bind_eq_ok, deref_eq_ok, assertMsg_eq_ok, decide_eq_true_eq]
  suffices hrest : ∃ r m₁, (if U64.add (p - a.base) n ≠ a.size then
        Prod.fst <$> map.split k (U64.add (p - a.base) n) else pure map : Outcome PhysMap) =
      .ok m₁ ∧ (if p - a.base ≠ 0 then m₁.split k (p - a.base) else pure (m₁, k)) = .ok r by
    obtain ⟨r, m₁, hm₁, hr⟩ := hrest
    exact ⟨r, (k, a), hfloor, (), by simp only [getEnd]; omega, (),
      by simp only; omega, (), by simp only; omega, m₁, hm₁, hr⟩
  -- what follows the range is cut off first; the area then ends where the range does
  obtain ⟨m₁, hm₁, b, hb, hsize⟩ : ∃ m₁, (if U64.add (p - a.base) n ≠ a.size then
        Prod.fst <$> map.split k (U64.add (p - a.base) n) else pure map : Outcome PhysMap) =
      .ok m₁ ∧ ∃ b, m₁.find? k = some b ∧ b.size = p - k + n := by
    by_cases hwhole : p - k + n = a.size
    · exact ⟨map, by rw [if_neg (by omega)]; rfl, a, hk, hwhole.symm⟩
    obtain ⟨r, hr⟩ := hsplit (p - k + n) hk (by omega) (by omega)
    refine ⟨r.1, by rw [hadd, if_pos hwhole, hr]; rfl, ?_⟩
    obtain ⟨c, hc, -, -, rfl⟩ := split_eq_ok h hr
    rw [hk] at hc
    cases hc
    refine ⟨{ a with size := p - k + n }, ?_, rfl⟩
    simp only [StdMap.find?_insert]
    rw [if_neg (by omega), if_pos trivial]
  by_cases hstart : p - a.base = 0
  · exact ⟨_, m₁, hm₁, by rw [if_neg (by simpa using hstart)]; rfl⟩
  · obtain ⟨r, hr⟩ := hsplit (p - a.base) hb (by omega) (by omega)
    exact ⟨r, m₁, hm₁, by rw [if_pos hstart]; exact hr⟩

end PhysMap

namespace MemoryManager

variable {env : Environment} {s s' : MemoryManager} {searchStart searchEnd size alignment p n k : Nat}
  {mt : Int} {a : PhysicalMemoryArea}

/-- All bytes of the range are free, in however many areas. -/
def FreeBytes (s : MemoryManager) (p n : Nat) : Prop :=
  ∀ q ∈ Set.Ico p (p + n), ∃ b, s.view.dmem q = some b ∧ b.dmaType = .free

theorem freeBytes_of_freeRange (h : s.Valid env) (hr : s.dmemMap.FreeRange p n) :
    s.FreeBytes p n := by
  obtain ⟨k, a, hk, hfree, hkp, hend⟩ := hr
  intro q hq
  rw [Set.mem_Ico] at hq
  exact ⟨_, StdMap.at?_of_find? h.dmem.separated hk (by omega)
    (by simp only [area_size]; omega), hfree⟩

/-- What was carved in one piece lay in one area. -/
theorem freeRange_of_carved (h : s.Valid env) (hpos : 0 < n)
    (hc : PhysMap.Carved s.dmemMap p n a) (hfree : s.FreeBytes p n) : s.dmemMap.FreeRange p n := by
  obtain ⟨b, hb, hbt⟩ := hfree p (by rw [Set.mem_Ico]; omega)
  rw [show s.view.dmem p = some ⟨p, a.memoryType, a.dmaType⟩ from
    hc.at? h.dmem (Nat.le_refl p) (by omega)] at hb
  cases hb
  exact ⟨a.base, a, hc.mem, hbt, hc.le, hc.fits⟩

/-! ## `Allocate` -/

/-- The alignment `Allocate` works with. -/
def raisedAlignment (env : Environment) (alignment : Nat) : Nat :=
  let alignment := if alignment > 0 then alignment else 0x4000
  if env.isLegacyBackend then max alignment 0x10000 else alignment

theorem raisedAlignment_bounds (env : Environment) (hlt : alignment < 2 ^ 64) :
    0 < raisedAlignment env alignment ∧ raisedAlignment env alignment < 2 ^ 64 := by
  unfold raisedAlignment
  simp only
  split_ifs <;> omega

section

variable (h : s.dmemMap.WF (directExtent env)) (hf : s.dmemMap.floor? searchStart = some (k, a))

include h hf

theorem allocate_of_none (hfind : ((s.dmemMap.startingAt k).find? fun e =>
    PhysMap.accepts searchStart size (raisedAlignment env alignment) e.2) = none) :
    s.allocate env searchStart searchEnd size alignment mt = .ok (s, U64.max) := by
  have hsearch := PhysMap.searchFreeArea_startingAt size
    (raisedAlignment env alignment) h hf
  rw [hfind] at hsearch
  simp only [PhysMap.candidate, raisedAlignment] at hsearch
  simp only [allocate, hf, deref, ok_bind, hsearch, Option.map_none]
  rfl

theorem allocate_of_some (searchEnd : Nat) (mt : Int) {e : Nat × PhysicalMemoryArea}
    (hfind : ((s.dmemMap.startingAt k).find? fun e =>
      PhysMap.accepts searchStart size (raisedAlignment env alignment) e.2) = some e) :
    s.allocate env searchStart searchEnd size alignment mt =
      if U64.add (PhysMap.candidate searchStart (raisedAlignment env alignment) e.2) size >
          searchEnd then .ok (s, U64.max)
      else s.dmemMap.carvePhysArea
          (PhysMap.candidate searchStart (raisedAlignment env alignment) e.2) size >>= fun r =>
        .ok ({ s with dmemMap := (PhysMap.mergeAdjacent (r.1.modify r.2 fun area =>
            { area with memoryType := mt, dmaType := .allocated }) e.1).1 },
          PhysMap.candidate searchStart (raisedAlignment env alignment) e.2) := by
  have hsearch := PhysMap.searchFreeArea_startingAt size
    (raisedAlignment env alignment) h hf
  rw [hfind] at hsearch
  simp only [PhysMap.candidate, raisedAlignment, Option.map_some] at hsearch ⊢
  simp only [allocate, hf, deref, ok_bind, hsearch]
  rfl

end

/-- In every state an area starts at or below every address. -/
theorem Reachable.exists_floor? {C : MemoryManager → Op → Prop} (h : Reachable env C s) (q : Nat) :
    ∃ k a, s.dmemMap.floor? q = some (k, a) := by
  have hzero : (s.dmemMap.find? 0).isSome :=
    h.dmem_induction PhysMap.lasting_isSome_zero (by rw [find?_dmem_init.2 ⟨rfl, rfl⟩]; rfl)
  cases hf : s.dmemMap.floor? q with
  | none =>
    obtain ⟨a, ha⟩ := Option.isSome_iff_exists.1 hzero
    exact absurd (StdMap.floor?_eq_none.1 hf 0 a ha) (Nat.not_lt_zero q)
  | some e => exact ⟨e.1, e.2, rfl⟩

/-- The call takes the lowest range of free memory in the window and marks it allocated. It
    returns -1 and does nothing when there is none. -/
structure FirstFit (env : Environment) (s : MemoryManager)
    (searchStart searchEnd size alignment : Nat) (mt : Int) : Prop where
  found : ∀ p, IsLeast {x | Placed searchStart searchEnd (raisedAlignment env alignment) x size ∧
      s.FreeBytes x size} p →
    ∃ s', s.allocate env searchStart searchEnd size alignment mt = .ok (s', p) ∧
      s'.view = s.view.relabelDirect (Set.Ico p (p + size)) (PhysByte.labelled mt .allocated)
  none : (∀ x, Placed searchStart searchEnd (raisedAlignment env alignment) x size →
      ¬s.FreeBytes x size) →
    s.allocate env searchStart searchEnd size alignment mt = .ok (s, U64.max)

/-- At or below every range of free memory in the window lies one that a single area has
    room for. -/
def RoomInAreas (s : MemoryManager) (searchStart searchEnd alignment size : Nat) : Prop :=
  ∀ x, Placed searchStart searchEnd alignment x size → s.FreeBytes x size →
    ∃ y ≤ x, Placed searchStart searchEnd alignment y size ∧ s.dmemMap.FreeRange y size

/-- No sum wraps around, or an area below has room. -/
def FitsBeforeWrapping (s : MemoryManager) (searchStart alignment size : Nat) : Prop :=
  ∀ k₀ a₀, s.dmemMap.floor? searchStart = some (k₀, a₀) → ∀ k, k₀ ≤ k →
    s.dmemMap.WrapsAt searchStart size alignment k →
    ∃ y < k, searchStart ≤ y ∧ alignment ∣ y ∧ s.dmemMap.FreeRange y size

theorem lt_of_placed {al x : Nat} (hp : Placed searchStart searchEnd al x size)
    (hend : searchEnd < 2 ^ 63) : x + size < 2 ^ 63 := Nat.lt_of_le_of_lt hp.end_le hend

/-- The call that finds an area with room takes the range behind its candidate. -/
theorem allocate_of_room (h : s.Valid env) {k₀ : Nat} {a₀ : PhysicalMemoryArea}
    (hf : s.dmemMap.floor? searchStart = some (k₀, a₀)) (hstart : searchStart < 2 ^ 63)
    (hend : searchEnd < 2 ^ 63) (hpos : 0 < size) (hal : alignment < 2 ^ 64)
    {e : Nat × PhysicalMemoryArea}
    (hfind : ((s.dmemMap.startingAt k₀).find? fun e =>
      PhysMap.accepts searchStart size (raisedAlignment env alignment) e.2) = some e)
    (hc : PhysMap.candidate searchStart (raisedAlignment env alignment) e.2 = p)
    (hle : e.1 ≤ p) (hfits : p + size ≤ e.1 + e.2.size) (hwindow : p + size ≤ searchEnd) :
    ∃ s', s.allocate env searchStart searchEnd size alignment mt = .ok (s', p) ∧
      s'.view = s.view.relabelDirect (Set.Ico p (p + size)) (PhysByte.labelled mt .allocated) := by
  have hk := (StdMap.find?_startingAt_eq_some.1 hfind).1
  have hcall := allocate_of_some h.dmem hf searchEnd mt hfind
  obtain ⟨r, hr⟩ := h.dmem.exists_carvePhysArea hk hle hfits hpos
  rw [hc, U64.add_of_lt (by omega), if_neg (by omega), hr, ok_bind] at hcall
  refine ⟨_, hcall, ?_⟩
  rcases allocate_eq_ok h hstart (by omega) (by omega) hpos hcall with ⟨hmax, -⟩ | ⟨-, -, hview, -⟩
  · simp only [U64.max] at hmax
    omega
  · exact hview

/-- The candidate that wraps around cannot be carved. -/
theorem allocate_ne_ok_of_wraps (h : s.Valid env) {k₀ : Nat} {a₀ : PhysicalMemoryArea}
    (hf : s.dmemMap.floor? searchStart = some (k₀, a₀)) (hstart : searchStart < 2 ^ 63)
    (hsize : size < 2 ^ 63) (hsizeEnd : size ≤ searchEnd) {e : Nat × PhysicalMemoryArea}
    (hfind : ((s.dmemMap.startingAt k₀).find? fun e =>
      PhysMap.accepts searchStart size (raisedAlignment env alignment) e.2) = some e)
    (hwrap : 2 ^ 64 ≤ PhysMap.candidate searchStart (raisedAlignment env alignment) e.2 + size)
    {r : MemoryManager × Nat} :
    s.allocate env searchStart searchEnd size alignment mt ≠ .ok r := by
  have hk := (StdMap.find?_startingAt_eq_some.1 hfind).1
  have hbounds := h.dmem.bounds _ _ hk
  have hhi := directExtent_hi_lt env
  have hbase := h.dmem.key _ _ hk
  have hcall := allocate_of_some h.dmem hf searchEnd mt hfind
  have hlt : PhysMap.candidate searchStart (raisedAlignment env alignment) e.2 < 2 ^ 64 :=
    alignUp_lt (by omega)
  generalize PhysMap.candidate searchStart (raisedAlignment env alignment) e.2 = c at hwrap hlt hcall
  have hadd : U64.add c size ≤ searchEnd := by
    unfold U64.add
    omega
  rw [hcall, if_neg (Nat.not_lt.2 hadd)]
  intro hr
  obtain ⟨r', hcarve, -⟩ := Outcome.bind_eq_ok.1 hr
  obtain ⟨-, -, -, a, hcarved, -⟩ := h.dmem.carvePhysArea (by omega) hcarve
  have := h.dmem.bounds _ a hcarved.mem
  have := hcarved.fits
  omega

/-- What the caller has checked. -/
structure Request (searchStart searchEnd size alignment : Nat) : Prop where
  end_lt : searchEnd < 2 ^ 63
  start_lt : searchStart < searchEnd
  pos : 0 < size
  size_le : size ≤ searchEnd - searchStart
  alignment_lt : alignment < 2 ^ 64

theorem Request.of_issued {searchStart searchEnd size alignment : UInt64}
    (hop : Op.Issued (.allocate searchStart searchEnd size alignment mt)) :
    Request searchStart.toNat searchEnd.toNat size.toNat alignment.toNat := by
  obtain ⟨hend, hlt, hpos, -, -, hfit, -⟩ := hop
  have hsub : (searchEnd - searchStart).toNat = searchEnd.toNat - searchStart.toNat :=
    UInt64.toNat_sub_of_le _ _ (UInt64.le_of_lt hlt)
  exact ⟨hend, hlt, hpos, hsub ▸ (hfit : size.toNat ≤ (searchEnd - searchStart).toNat),
    alignment.toNat_lt⟩

section

variable {ss se n al₀ k₀ : Nat} {a₀ : PhysicalMemoryArea} (hvalid : s.Valid env)
  (hreq : Request ss se n al₀) (hf : s.dmemMap.floor? ss = some (k₀, a₀))

include hvalid hreq hf

theorem FirstFit.roomInAreas (hfirst : FirstFit env s ss se n al₀ mt) :
    s.RoomInAreas ss se (raisedAlignment env al₀) n := by
  obtain ⟨hend, hlt, hpos, hfit, halignment⟩ := hreq
  intro x hx hbytes
  -- the lowest range is the one that was carved
  classical
  have hex : ∃ y, Placed ss se (raisedAlignment env al₀) y n ∧ s.FreeBytes y n :=
    ⟨x, hx, hbytes⟩
  obtain ⟨hplaced, hfree⟩ := Nat.find_spec hex
  have hle := Nat.find_min' hex ⟨hx, hbytes⟩
  have hleast : IsLeast {y | Placed ss se (raisedAlignment env al₀) y n ∧ s.FreeBytes y n}
      (Nat.find hex) := ⟨Nat.find_spec hex, fun y hy => Nat.find_min' hex hy⟩
  obtain ⟨s', hcall, -⟩ := hfirst.found _ hleast
  generalize Nat.find hex = p at hplaced hfree hle hcall
  refine ⟨p, hle, hplaced, ?_⟩
  have := lt_of_placed hplaced hend
  cases hfind : (s.dmemMap.startingAt k₀).find? fun e =>
      PhysMap.accepts ss n (raisedAlignment env al₀) e.2 with
  | none =>
    rw [allocate_of_none hvalid.dmem hf hfind] at hcall
    simp only [Except.ok.injEq, Prod.mk.injEq, U64.max] at hcall
    omega
  | some e =>
    rw [allocate_of_some hvalid.dmem hf se mt hfind] at hcall
    split at hcall
    · simp only [Except.ok.injEq, Prod.mk.injEq, U64.max] at hcall
      omega
    obtain ⟨r, hcarve, hr⟩ := Outcome.bind_eq_ok.1 hcall
    simp only [Except.ok.injEq, Prod.mk.injEq] at hr
    obtain ⟨-, rfl⟩ := hr
    obtain ⟨-, -, -, a, hcarved, -⟩ := hvalid.dmem.carvePhysArea (by omega) hcarve
    exact freeRange_of_carved hvalid hpos hcarved hfree

theorem FirstFit.fitsBeforeWrapping (hfirst : FirstFit env s ss se n al₀ mt) :
    s.FitsBeforeWrapping ss (raisedAlignment env al₀) n := by
  obtain ⟨hend, hlt, hpos, hfit, halignment⟩ := hreq
  have hal := raisedAlignment_bounds env halignment
  have hhi := directExtent_hi_lt env
  have hx : (directExtent env).hi < 2 ^ 63 := by omega
  have hss : ss < 2 ^ 63 := by omega
  intro k₁ a₁ hf₁ k hk₁ hwrap
  rw [hf] at hf₁
  cases hf₁
  obtain ⟨a, hk, hfree, hsum, hleft⟩ := hwrap
  have hbounds := hvalid.dmem.bounds k a hk
  have hlt : PhysMap.candidate ss (raisedAlignment env al₀) a < 2 ^ 64 :=
    alignUp_lt (by have := hvalid.dmem.key k a hk; omega)
  have hacc : PhysMap.accepts ss n (raisedAlignment env al₀) a := by
    simp only [PhysMap.accepts, hfree, decide_true, Bool.true_and, decide_eq_true_eq, U64.add]
    omega
  cases hfind : (s.dmemMap.startingAt k₀).find? fun e =>
      PhysMap.accepts ss n (raisedAlignment env al₀) e.2 with
  | none => exact absurd hacc (StdMap.find?_startingAt_eq_none.1 hfind k a hk hk₁)
  | some e =>
    obtain ⟨he, hk₀, heacc, hmin⟩ := StdMap.find?_startingAt_eq_some.1 hfind
    rcases PhysMap.room_of_accepts hvalid.dmem hx hal he hss (by omega) heacc with
      ⟨hroom, -, hfits⟩ | ⟨b, hb, -, hbsum, -⟩
    · obtain ⟨hdvd, hstart, -⟩ := (PhysMap.isLeast_candidate hvalid.dmem hx hal he hss).1
      refine ⟨_, ?_, hstart, hdvd, hroom⟩
      rcases Nat.eq_or_lt_of_le (hmin k a hk hk₁ hacc) with heq | hlow
      · rw [heq, hk] at he
        cases he
        omega
      · have := hvalid.dmem.separated e.1 e.2 k a he hk hlow
        simp only [area_size] at this
        omega
    · rw [he] at hb
      cases hb
      -- the call would stop, whether there is a range or not
      have hstops : ∀ r, s.allocate env ss se n al₀ mt ≠ .ok r := fun r =>
        allocate_ne_ok_of_wraps hvalid hf hss (by omega) (by omega) hfind hbsum
      by_cases hex : ∃ y, Placed ss se (raisedAlignment env al₀) y n ∧ s.FreeBytes y n
      · classical
        obtain ⟨s', hcall, -⟩ := hfirst.found _
          ⟨Nat.find_spec hex, fun y hy => Nat.find_min' hex hy⟩
        exact absurd hcall (hstops _)
      · exact absurd (hfirst.none fun y hy hbytes => hex ⟨y, hy, hbytes⟩) (hstops _)

theorem firstFit_of_room (hareas : s.RoomInAreas ss se (raisedAlignment env al₀) n)
    (hwraps : s.FitsBeforeWrapping ss (raisedAlignment env al₀) n) :
    FirstFit env s ss se n al₀ mt := by
  obtain ⟨hend, hlt, hpos, hfit, halignment⟩ := hreq
  have hal := raisedAlignment_bounds env halignment
  have hhi := directExtent_hi_lt env
  have hx : (directExtent env).hi < 2 ^ 63 := by omega
  have hss : ss < 2 ^ 63 := by omega
  -- the area the search ends at has room
  have hstop : ∀ e, ((s.dmemMap.startingAt k₀).find? fun e =>
        PhysMap.accepts ss n (raisedAlignment env al₀) e.2) = some e →
      s.dmemMap.FreeRange (PhysMap.candidate ss (raisedAlignment env al₀) e.2) n ∧
        e.1 ≤ PhysMap.candidate ss (raisedAlignment env al₀) e.2 ∧
        PhysMap.candidate ss (raisedAlignment env al₀) e.2 + n ≤ e.1 + e.2.size := by
    intro e hfind
    obtain ⟨hk, hk₀, hacc, -⟩ := StdMap.find?_startingAt_eq_some.1 hfind
    refine (PhysMap.room_of_accepts hvalid.dmem hx hal hk hss (by omega) hacc).resolve_right
      fun hwrap => ?_
    obtain ⟨y, hlt, hstart, hdvd, hroom⟩ := hwraps k₀ a₀ hf e.1 hk₀ hwrap
    have := (PhysMap.le_of_find?_accepts hvalid.dmem hx hal hf hpos hfind hroom hdvd hstart).1
    omega
  have hplaced : ∀ e, ((s.dmemMap.startingAt k₀).find? fun e =>
        PhysMap.accepts ss n (raisedAlignment env al₀) e.2) = some e →
      PhysMap.candidate ss (raisedAlignment env al₀) e.2 + n ≤ se →
      Placed ss se (raisedAlignment env al₀)
        (PhysMap.candidate ss (raisedAlignment env al₀) e.2) n := by
    intro e hfind hle
    have hk := (StdMap.find?_startingAt_eq_some.1 hfind).1
    obtain ⟨hdvd, hstart, -⟩ := (PhysMap.isLeast_candidate hvalid.dmem hx hal hk hss).1
    exact ⟨hstart, hle, hdvd⟩
  constructor
  · rintro p ⟨⟨hp, hbytes⟩, hlow⟩
    obtain ⟨y, hyp, hy, hroom⟩ := hareas p hp hbytes
    obtain rfl : y = p := le_antisymm hyp (hlow ⟨hy, freeBytes_of_freeRange hvalid hroom⟩)
    cases hfind : (s.dmemMap.startingAt k₀).find? fun e =>
        PhysMap.accepts ss n (raisedAlignment env al₀) e.2 with
    | none =>
      obtain ⟨j, b, hj, hk₀, -, hacc, -⟩ := PhysMap.exists_accepts_of_freeRange hvalid.dmem hx hal
        hf hpos hroom hy.dvd hy.start_le
      exact absurd hacc (StdMap.find?_startingAt_eq_none.1 hfind j b hj hk₀)
    | some e =>
      obtain ⟨hcroom, hle, hfits⟩ := hstop e hfind
      have hcy : PhysMap.candidate ss (raisedAlignment env al₀) e.2 ≤ y := by
        rcases (PhysMap.le_of_find?_accepts hvalid.dmem hx hal hf hpos hfind hroom hy.dvd
          hy.start_le).2 with hpast | hcy
        · omega
        · exact hcy
      have hyend := hy.end_le
      have hc : PhysMap.candidate ss (raisedAlignment env al₀) e.2 = y :=
        le_antisymm hcy (hlow ⟨hplaced e hfind (by omega), freeBytes_of_freeRange hvalid hcroom⟩)
      exact allocate_of_room hvalid hf (by omega) hend hpos halignment hfind hc (hc ▸ hle)
        (hc ▸ hfits) hyend
  · intro hnone
    cases hfind : (s.dmemMap.startingAt k₀).find? fun e =>
        PhysMap.accepts ss n (raisedAlignment env al₀) e.2 with
    | none => exact allocate_of_none hvalid.dmem hf hfind
    | some e =>
      obtain ⟨hcroom, hle, hfits⟩ := hstop e hfind
      have hk := (StdMap.find?_startingAt_eq_some.1 hfind).1
      have hbounds := hvalid.dmem.bounds _ _ hk
      have hout : se < PhysMap.candidate ss (raisedAlignment env al₀) e.2 + n := by
        by_contra hin
        exact hnone _ (hplaced e hfind (by omega)) (freeBytes_of_freeRange hvalid hcroom)
      rw [allocate_of_some hvalid.dmem hf se mt hfind, U64.add_of_lt (by omega), if_pos hout]

end

/-- `Allocate` is first fit exactly when free memory that lies in several areas does not matter, and
    no sum wraps around before the search ends. -/
theorem allocate_firstFit_iff (h : Reachable env anyCall s)
    (searchStart searchEnd size alignment : UInt64) (mt : Int)
    (hop : Op.Issued (.allocate searchStart searchEnd size alignment mt)) :
    FirstFit env s searchStart.toNat searchEnd.toNat size.toNat alignment.toNat mt ↔
      s.RoomInAreas searchStart.toNat searchEnd.toNat (raisedAlignment env alignment.toNat)
        size.toNat ∧
      s.FitsBeforeWrapping searchStart.toNat (raisedAlignment env alignment.toNat) size.toNat := by
  have hreq := Request.of_issued hop
  obtain ⟨k₀, a₀, hf⟩ := h.exists_floor? searchStart.toNat
  exact ⟨fun hfirst => ⟨hfirst.roomInAreas h.valid hreq hf, hfirst.fitsBeforeWrapping h.valid hreq hf⟩,
    fun hok => firstFit_of_room h.valid hreq hf hok.1 hok.2⟩

theorem allocate_firstFit_page : ∃ s, run .retail (init .retail) mixedCalls = .ok s ∧
    (FirstFit .retail s 0x4000 0x100000 0x4000 0 0 ↔
      s.RoomInAreas 0x4000 0x100000 (raisedAlignment .retail 0) 0x4000 ∧
      s.FitsBeforeWrapping 0x4000 (raisedAlignment .retail 0) 0x4000) := by
  obtain ⟨s, hs, hreach, -⟩ := exists_reachable .retail mixedCalls (fun _ => true) issued_mixedCalls
    (by with_unfolding_all decide)
  exact ⟨s, hs, allocate_firstFit_iff hreach 0x4000 0x100000 0x4000 0 0 (by decide)⟩

/-- An alignment next to the end of the address space stops the call. -/
theorem not_firstFit_of_wraps : ¬FirstFit .retail (init .retail) 0x4000 0x100000 0x4000
    0xFFFFFFFFFFFFC000 0 := by
  intro hfirst
  have hstops : ((init .retail).allocate .retail 0x4000 0x100000 0x4000 0xFFFFFFFFFFFFC000
      0).toOption.isNone = true := by with_unfolding_all decide
  rw [hfirst.none] at hstops
  · simp [Except.toOption] at hstops
  · rintro x hx -
    have := hx.start_le
    have := hx.end_le
    have := Nat.le_of_dvd (by omega) hx.dvd
    simp only [raisedAlignment] at this
    simp [Environment.retail] at this
    omega

/-! ## `PoolExpand` -/

/-- The alignment `PoolExpand` works with. -/
def poolAlignment (alignment : Nat) : Nat := if alignment > 0 then alignment else 0x10000

/-- What `PoolExpand` takes is the candidate of the area its search ends at, whatever
    the end of the window. -/
theorem poolExpand_carves (h : s.Valid env) (hsize : size < 2 ^ 64)
    (hr : s.poolExpand searchStart searchEnd size alignment = .ok (s', p)) (hp : p ≠ U64.max) :
    ∃ k₀ a₀ e a, s.dmemMap.floor? searchStart = some (k₀, a₀) ∧
      ((s.dmemMap.startingAt k₀).find? fun e =>
        PhysMap.accepts searchStart size (poolAlignment alignment) e.2) = some e ∧
      PhysMap.candidate searchStart (poolAlignment alignment) e.2 = p ∧
      PhysMap.Carved s.dmemMap p size a := by
  simp only [poolExpand, bind_eq_ok, deref_eq_ok] at hr
  obtain ⟨⟨k₀, a₀⟩, hf, hr⟩ := hr
  have hstart : (if searchStart > a₀.base then alignUp searchStart (poolAlignment alignment)
      else alignUp a₀.base (poolAlignment alignment)) =
      PhysMap.candidate searchStart (poolAlignment alignment) a₀ := by
    unfold PhysMap.candidate
    split
    · rw [Nat.max_eq_left (by omega)]
    · rw [Nat.max_eq_right (by omega)]
  have hsearch := PhysMap.searchFreeArea_startingAt size (poolAlignment alignment) h.dmem hf
  rw [← hstart] at hsearch
  simp only [poolAlignment] at hsearch ⊢
  simp only [hsearch] at hr
  cases hfind : (s.dmemMap.startingAt k₀).find? fun e =>
      PhysMap.accepts searchStart size (if alignment > 0 then alignment else 0x10000) e.2 with
  | none =>
    simp only [hfind, Option.map_none, pure_eq_ok, Prod.mk.injEq] at hr
    exact absurd hr.2.symm hp
  | some e =>
    simp only [hfind, Option.map_some, bind_eq_ok, pure_eq_ok, Prod.mk.injEq] at hr
    obtain ⟨r, hcarve, -, rfl⟩ := hr
    obtain ⟨-, -, -, a, hcarved, -⟩ := h.dmem.carvePhysArea hsize hcarve
    exact ⟨k₀, a₀, e, a, hf, hfind, rfl, hcarved⟩

/-- The call takes free memory inside the window for the pool, and no other memory changes. -/
structure ExpandsInWindow (s s' : MemoryManager) (searchStart searchEnd size alignment p : Nat) :
    Prop where
  placed : Placed searchStart searchEnd alignment p size
  free : s.FreeBytes p size
  pooled : ∀ q ∈ Set.Ico p (p + size), ∃ b, s'.view.dmem q = some b ∧ b.dmaType = .pooled
  others : ∀ q, q ∉ Set.Ico p (p + size) → s'.view.dmem q = s.view.dmem q

/-- `PoolExpand` stays in its window exactly when there is a free area with room in the window. -/
theorem poolExpand_inWindow_iff (h : Reachable env anyCall s)
    (searchStart searchEnd size alignment : UInt64)
    (hop : Op.Issued (.poolExpand searchStart searchEnd size alignment))
    (hr : s.poolExpand searchStart.toNat searchEnd.toNat size.toNat alignment.toNat = .ok (s', p))
    (hp : p ≠ U64.max) :
    s.ExpandsInWindow s' searchStart.toNat searchEnd.toNat size.toNat
        (poolAlignment alignment.toNat) p ↔
      ∃ x, Placed searchStart.toNat searchEnd.toNat (poolAlignment alignment.toNat) x size.toNat ∧
        s.dmemMap.FreeRange x size.toNat := by
  have hvalid := h.valid
  have hhi := directExtent_hi_lt env
  have hpos : 0 < size.toNat := hop.2.1
  have hsize := size.toNat_lt
  have hal : 0 < poolAlignment alignment.toNat ∧ poolAlignment alignment.toNat < 2 ^ 64 := by
    have := alignment.toNat_lt
    unfold poolAlignment
    split <;> omega
  obtain ⟨k₀, a₀, e, a, hf, hfind, hcand, hcarved⟩ := poolExpand_carves hvalid hsize hr hp
  constructor
  · rintro ⟨hplaced, hfree, -⟩
    exact ⟨p, hplaced, freeRange_of_carved hvalid hpos hcarved hfree⟩
  · rintro ⟨x, hx, hroom⟩
    have hk := (StdMap.find?_startingAt_eq_some.1 hfind).1
    have hacc := (StdMap.find?_startingAt_eq_some.1 hfind).2.2.1
    have hxlt : x + size.toNat ≤ (directExtent env).hi := by
      obtain ⟨j, b, hj, -, -, hend⟩ := hroom
      exact hend.trans (hvalid.dmem.bounds j b hj).2
    have hstart := hx.start_le
    have hend := hx.end_le
    have hdir : (directExtent env).hi < 2 ^ 63 := by omega
    have hss : searchStart.toNat < 2 ^ 63 := by omega
    have hpbounds := hvalid.dmem.bounds _ a hcarved.mem
    have hpfits := hcarved.fits
    -- what was carved did not wrap around
    rcases PhysMap.room_of_accepts hvalid.dmem hdir hal hk hss (by omega) hacc with
      ⟨hcroom, -, hfits⟩ | ⟨b, hb, -, hwrap, -⟩
    · obtain ⟨hdvd, hsp, -⟩ := (PhysMap.isLeast_candidate hvalid.dmem hdir hal hk hss).1
      have hlow := (PhysMap.le_of_find?_accepts hvalid.dmem hdir hal hf hpos hfind hroom hx.dvd
        hstart).2
      rw [hcand] at hcroom hfits hdvd hsp hlow
      have hpx : p ≤ x := hlow.elim (fun hpast => by omega) id
      have hfree := freeBytes_of_freeRange hvalid hcroom
      rcases poolExpand_eq_ok hvalid searchStart.toNat_lt alignment.toNat_lt hsize hpos hr with
        ⟨hmax, -⟩ | ⟨-, -, hview, -⟩
      · exact absurd hmax hp
      · refine ⟨⟨hsp, by omega, hdvd⟩, hfree, fun q hq => ?_, fun q hq => ?_⟩
        · obtain ⟨b, hb, -⟩ := hfree q hq
          refine ⟨PhysByte.labelled 3 .pooled b, ?_, rfl⟩
          rw [hview]
          exact (updateOn_of_mem hq).trans (by rw [hb]; rfl)
        · rw [hview]
          exact updateOn_of_notMem hq
    · rw [hk] at hb
      cases hb
      omega

theorem poolExpand_inWindow_block : ∃ s s' p, run .retail (init .retail) mixedCalls = .ok s ∧
    s.poolExpand 0 0x100000 0x10000 0 = .ok (s', p) ∧ p = 0x30000 ∧
    (s.ExpandsInWindow s' 0 0x100000 0x10000 (poolAlignment 0) p ↔
      ∃ x, Placed 0 0x100000 (poolAlignment 0) x 0x10000 ∧ s.dmemMap.FreeRange x 0x10000) := by
  obtain ⟨s, hs, hreach, ht⟩ := exists_reachable .retail mixedCalls
    (fun s => (s.poolExpand 0 0x100000 0x10000 0).toOption.any
      fun (r : MemoryManager × Nat) => decide (r.2 = 0x30000))
    issued_mixedCalls (by with_unfolding_all decide)
  obtain ⟨⟨s', p⟩, hr, hp⟩ := exists_of_any ht
  obtain rfl : p = 0x30000 := of_decide_eq_true hp
  exact ⟨s, s', _, hs, hr, rfl, poolExpand_inWindow_iff hreach 0 0x100000 0x10000 0 (by decide) hr
    (by decide)⟩

/-- With the window in use the call takes memory behind it. -/
theorem not_expandsInWindow_full : ∃ s s' p, Reachable .retail anyCall s ∧
    Op.Issued (.poolExpand 0 0x10000 0x10000 0) ∧
    s.poolExpand 0 0x10000 0x10000 0 = .ok (s', p) ∧ p ≠ U64.max ∧
    ¬s.ExpandsInWindow s' 0 0x10000 0x10000 (poolAlignment 0) p := by
  obtain ⟨s, -, hreach, ht⟩ := exists_reachable .retail [.poolExpand 0 0x10000 0x10000 0]
    (fun s => (s.poolExpand 0 0x10000 0x10000 0).toOption.any
      fun (r : MemoryManager × Nat) => decide (r.2 = 0x10000))
    (by decide) (by with_unfolding_all decide)
  obtain ⟨⟨s', p⟩, hr, hp⟩ := exists_of_any ht
  obtain rfl : p = 0x10000 := of_decide_eq_true hp
  exact ⟨s, s', _, hreach, by decide, hr, by decide, fun hin => absurd hin.placed.end_le (by decide)⟩

end MemoryManager

end Core
