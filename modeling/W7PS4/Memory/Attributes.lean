-- SUMMARY: Protection, names and memory types: none of them moves the memory behind a byte.
import W7PS4.Memory.Pool

/-!
# Attributes of mapped memory

`Protect` and `NameVirtualRange` change what an area says about itself.
`SetDirectMemoryType` changes the memory type of direct and pooled memory, in the
areas and in `dmem_map`. All three carve and coalesce areas on the way.
-/

namespace Core

open Outcome (bind_eq_ok pure_eq_ok)
open VirtualMemoryArea (area_byte area_size isFree)

theorem Memory.Sound.sameBacking {env : Environment} {m m' : Memory} (h : m.Sound env)
    (hs : m.SameBacking m') : m'.Sound env := by
  refine h.of_flexible ?_ ?_ ?_ hs.fmem hs.usage
  · intro p
    simpa using congrArg Option.isSome (hs.virt p)
  · rintro p q (hpq | hpq)
    · exact .inl (hs.maps_iff.1 hpq)
    · exact .inr (.inl (hs.maps_iff.1 hpq))
  · intro p q hpq
    exact hs.maps_iff.1 hpq

theorem Memory.Sound.setType {env : Environment} {m : Memory} {mt : Int} {U : Set Nat}
    (h : m.Sound env) : (m.setType U mt).Sound env := by
  refine h.of_flexible (fun p => isSome_updateOn) ?_ ?_ rfl rfl
  · rintro p q (hpq | hpq)
    · exact .inl (maps_setType.1 hpq)
    · exact .inr (.inl (maps_setType.1 hpq))
  · intro p q hpq
    exact maps_setType.1 hpq

namespace MemoryManager

variable {env : Environment} {s s' : MemoryManager} {addr size n k : Nat} {v : VirtualMemoryArea}

/-! ## Protection -/

/-- Nothing has changed but protection, names and merge flags. -/
structure Retouches (env : Environment) (s s' : MemoryManager) : Prop where
  valid : s'.Valid env
  same : s.view.SameBacking s'.view

theorem Retouches.refl (h : s.Valid env) : Retouches env s s := ⟨h, .refl _⟩

theorem Retouches.trans {s₁ s₂ s₃ : MemoryManager} (h : Retouches env s₁ s₂)
    (h' : Retouches env s₂ s₃) : Retouches env s₁ s₃ :=
  ⟨h'.valid, h.same.trans h'.same⟩

/-- Coalescing alone. -/
theorem Retouches.mergeAdjacent (h : s.Valid env) (k : Nat) :
    Retouches env s { s with vmaMap := (VMAMap.mergeAdjacent s.vmaMap k).1 } := by
  obtain ⟨hwf, hat⟩ := h.vma.mergeAdjacent (k := k)
  have hview : MemoryManager.view { s with vmaMap := (VMAMap.mergeAdjacent s.vmaMap k).1 } =
      s.view := Memory.ext (funext hat) rfl rfl rfl rfl
  refine ⟨⟨h.dmem, h.fmem, hwf, h.coalesced.of_at?_eq hat fun _ => VMAMap.keys_mergeAdjacent, ?_,
    h.usage_le, h.budget_lt⟩, ?_⟩
  · rw [hview]
    exact h.sound
  · rw [hview]
    exact .refl _

/-- `f` changes neither the place of an area nor the memory behind it. -/
structure Retouch (f : VirtualMemoryArea → VirtualMemoryArea) : Prop where
  base : ∀ w, (f w).base = w.base
  size : ∀ w, (f w).size = w.size
  type : ∀ w, (f w).type = w.type
  physAreas : ∀ w, (f w).physAreas = w.physAreas

variable {f : VirtualMemoryArea → VirtualMemoryArea} {prot : MemoryProt}
  {body : MemoryManager → Nat → VirtualMemoryArea → Nat → Nat → Outcome (MemoryManager × Nat)} {fuel : Nat}

theorem Retouch.wf (hf : Retouch f) (hv : v.WF) (htype : v.type ≠ .free) : (f v).WF where
  pos := by
    rw [hf.size]
    exact hv.pos
  backed := by
    rw [hf.type, hf.physAreas, hf.size]
    exact hv.backed
  unbacked := by
    rw [hf.type, hf.physAreas]
    exact hv.unbacked
  free := by
    rw [hf.type]
    exact fun hfree => absurd hfree htype

/-- `map` is the map of `s` with an entry for `[addr, addr + size)` that has the same
    memory behind it. -/
structure Retouched (s : MemoryManager) (map : VMAMap) (addr size : Nat) (w : VirtualMemoryArea) :
    Prop where
  replaced : s.vmaMap.Replaced map addr size w
  read : ∀ o, o < size → ∃ x, s.view.virt (addr + o) = some x ∧ x.type = w.type ∧
    x.backing = w.physAreas.at? o

/-- The entry coalesced. -/
theorem Retouched.mergeAdjacent {map : VMAMap} {w : VirtualMemoryArea} (h : s.Valid env)
    (hrep : s.Retouched map addr size w) :
    Retouches env s { s with vmaMap := (VMAMap.mergeAdjacent map addr).1 } := by
  obtain ⟨hwf, hat⟩ := hrep.replaced.mergeAdjacent
  have hsame : s.view.SameBacking
      (MemoryManager.view { s with vmaMap := (VMAMap.mergeAdjacent map addr).1 }) := by
    refine ⟨fun p => ?_, rfl, rfl, rfl, rfl⟩
    change ((VMAMap.mergeAdjacent map addr).1.at? p).map _ = _
    rw [hat]
    split
    · rename_i hp
      obtain ⟨x, hx, ht, hb⟩ := hrep.read (p - addr) (by omega)
      rw [Nat.add_sub_cancel' hp.1] at hx
      simp [hx, VirtByte.mapping, ht, hb]
    · rfl
  exact ⟨⟨h.dmem, h.fmem, hwf, hrep.replaced.coalesced_mergeAdjacent h.coalesced,
    h.sound.sameBacking hsame, h.usage_le, h.budget_lt⟩, hsame⟩

/-- Carving part of an area that is not free and changing its attributes. -/
theorem retouched_of_carve (h : s.Valid env) (hf : Retouch f) (haddr : addr < 2 ^ 64) (hsize : size < 2 ^ 64)
    (hfloor : s.vmaMap.floor? addr = some (k, v)) (htype : v.type ≠ .free) {map : VMAMap}
    {new : Nat} (hcarve : s.vmaMap.carveVMA addr size = .ok (map, new)) :
    new = addr ∧ ∃ w, s.Retouched (map.modify addr f) addr size w := by
  obtain ⟨hhandle, v₁, w, hc, -, hw, hbase, hsz, hwt, hread, hrep⟩ :=
    h.vma.carve_modify haddr hsize hcarve
  have hv₁ : v₁ = v := by
    have := StdMap.floor?_of_mem h.vma.separated hc.mem hc.le (p := addr)
      (by have := hc.pos; have := hc.fits; simp only [area_size]; omega)
    rw [hfloor] at this
    cases this
    rfl
  subst hv₁
  refine ⟨hhandle, f w, hrep f (hf.wf hw (hwt ▸ htype)) ((hf.base w).trans hbase)
    ((hf.size w).trans hsz), fun o ho => ⟨_, hread o ho, ?_, ?_⟩⟩
  · simp [hf.type]
  · simp [hf.physAreas]

/-- Changing the attributes of a whole area that is not free. -/
theorem retouched_of_modify (h : s.Valid env)
    (hf : Retouch f) (hk : s.vmaMap.find? k = some v) (htype : v.type ≠ .free) :
    s.Retouched (s.vmaMap.modify k f) k v.size (f v) := by
  refine ⟨h.vma.modify_replaced hk (hf.wf (h.vma.entry k v hk) htype)
    ((hf.base v).trans (h.vma.key k v hk)) (hf.size v), fun o ho => ⟨Area.byte v o, ?_, ?_, ?_⟩⟩
  · refine (StdMap.at?_of_find? h.vma.separated hk (Nat.le_add_right _ _)
      (by simp only [area_size]; omega)).trans ?_
    rw [Nat.add_sub_cancel_left]
  · simp [hf.type]
  · simp [hf.physAreas]

theorem protectBytes_eq_ok (h : s.Valid env) (haddr : addr < 2 ^ 64)
    (hsize : size < 2 ^ 64) (hfloor : s.vmaMap.floor? addr = some (k, v))
    (hr : s.protectBytes addr k v size prot = .ok (s', n)) : Retouches env s s' := by
  simp only [protectBytes] at hr
  split at hr
  · simp only [pure_eq_ok, Prod.mk.injEq] at hr
    exact hr.1 ▸ .refl h
  rename_i hactive
  simp only [not_or] at hactive
  simp only [bind_eq_ok, pure_eq_ok, Prod.mk.injEq] at hr
  obtain ⟨⟨map, new⟩, hcarve, _, -, rfl, -⟩ := hr
  have hf : ∀ prot, Retouch fun vma => { vma with prot } :=
    fun _ => ⟨fun _ => rfl, fun _ => rfl, fun _ => rfl, fun _ => rfl⟩
  obtain ⟨rfl, w, hw⟩ := retouched_of_carve h (hf _) haddr
    ((Nat.min_le_right _ _).trans_lt hsize) hfloor hactive.1 hcarve
  exact hw.mergeAdjacent h

theorem protectLoop_eq_ok {fuel protectedBytes : Nat} (h : s.Valid env)
    (hr : protectLoop prot fuel s addr size protectedBytes = .ok s') : Retouches env s s' := by
  induction fuel generalizing s protectedBytes with
  | zero => cases hr
  | succ fuel ih =>
    simp only [protectLoop] at hr
    split at hr
    · simp only [VMAMap.findVMA, bind_eq_ok, deref_eq_ok] at hr
      obtain ⟨⟨k, v⟩, hfloor, ⟨s₁, n⟩, hbytes, hr⟩ := hr
      obtain ⟨hk, hle, -⟩ := StdMap.floor?_eq_some.1 hfloor
      simp only at hk hle hbytes hr
      have hbase := h.vma.key k v hk
      have hnogap : ¬v.base > U64.add addr protectedBytes := by omega
      simp only [if_neg hnogap] at hbytes hr
      have hstep := protectBytes_eq_ok h (U64.add_lt _ _) (U64.sub_lt _ _) hfloor hbytes
      split at hr
      · rw [pure_eq_ok] at hr
        exact hr ▸ hstep
      · exact hstep.trans (ih hstep.valid hr)
    · rw [pure_eq_ok] at hr
      exact hr ▸ .refl h

theorem protect_eq_ok (h : s.Valid env) (hr : s.protect addr size prot = .ok s') : Retouches env s s' := by
  simp only [protect] at hr
  split at hr
  · rw [pure_eq_ok] at hr
    exact hr ▸ .refl h
  simp only [bind_eq_ok] at hr
  obtain ⟨_, -, _, -, hr⟩ := hr
  exact protectLoop_eq_ok h hr

/-! ## The walk over the areas of a range -/

/-- What a walk over a range does, put together from what it does to its areas. -/
structure WalkEffect (env : Environment) (R : Set Nat → MemoryManager → MemoryManager → Prop) :
    Prop where
  refl : ∀ {s : MemoryManager}, s.Valid env → R ∅ s s
  trans : ∀ {U W s₁ s₂ s₃}, R U s₁ s₂ → R W s₂ s₃ → R (U ∪ W) s₁ s₃
  valid : ∀ {U} {s s' : MemoryManager}, R U s s' → s'.Valid env
  isSome : ∀ {U} {s s' : MemoryManager}, R U s s' →
    ∀ p, (s'.view.virt p).isSome = (s.view.virt p).isSome

/-- What the body of a walk does to `[addr, addr + n)` in the area `v`. The entry it
    returns holds that range. -/
def BodyEffect (env : Environment) (R : Set Nat → MemoryManager → MemoryManager → Prop)
    (body : MemoryManager → Nat → VirtualMemoryArea → Nat → Nat → Outcome (MemoryManager × Nat)) :
    Prop :=
  ∀ {s s' : MemoryManager} {k : Nat} {v : VirtualMemoryArea} {addr n k' : Nat}, s.Valid env →
    s.vmaMap.find? k = some v → k ≤ addr → addr + n ≤ k + v.size → 0 < n →
    body s k v addr n = .ok (s', k') →
    R (Set.Ico addr (addr + n)) s
        { s' with vmaMap := (VMAMap.mergeAdjacent s'.vmaMap k').1 } ∧
      s'.vmaMap.WF ∧ ∃ w, s'.vmaMap.find? k' = some w ∧ k' ≤ addr ∧ addr + n ≤ k' + w.size

/-- The entry a walk goes on with: the one at its address, unless it is done. -/
def AtAddress (s : MemoryManager) (handle : Option Nat) (addr remaining : Nat) : Prop :=
  remaining = 0 ∨ ∃ k v, handle = some k ∧ s.vmaMap.find? k = some v ∧ k ≤ addr ∧
    addr < k + v.size

/-- After a step the walk goes on with the entry at the next address. -/
theorem atAddress_next (h : s.vmaMap.WF) {remaining : Nat} (huse : s.InUse addr remaining)
    (hk : s.vmaMap.find? k = some v) (hle : k ≤ addr) (hend : addr ≤ k + v.size) :
    s.AtAddress (if v.base + v.size ≤ addr then (s.vmaMap.next? k).map Prod.fst else some k)
      addr remaining := by
  have hbase := h.key k v hk
  by_cases hzero : remaining = 0
  · exact .inl hzero
  right
  split
  · obtain ⟨x, hx⟩ := Option.isSome_iff_exists.1
      (huse.2 addr (Set.mem_Ico.2 ⟨Nat.le_refl _, by omega⟩))
    obtain ⟨j, w, hj, hjle, hjlt, -⟩ := StdMap.exists_of_at? hx
    have hpos := (h.entry k v hk).pos
    simp only [area_size] at hjlt
    have hkj : k < j := by
      rcases Nat.lt_trichotomy j k with hlt | heq | hgt
      · have := h.separated j w k v hj hk hlt
        simp only [area_size] at this
        omega
      · subst heq
        rw [hk] at hj
        cases hj
        omega
      · exact hgt
    have hnext : s.vmaMap.next? k = some (j, w) := by
      refine StdMap.next?_eq_some.2 ⟨hj, hkj, fun i b hi hki => ?_⟩
      have := h.separated k v i b hk hi hki
      simp only [area_size] at this
      simp only
      omega
    exact ⟨j, w, by simp [hnext], hj, hjle, hjlt⟩
  · exact ⟨k, v, rfl, hk, hle, by omega⟩

/-- A walk over a range that is in use does to the range what its body does to the
    parts. -/
theorem walkAreas_eq_ok {R : Set Nat → MemoryManager → MemoryManager → Prop}
    (hR : WalkEffect env R) (hbody : BodyEffect env R body) {handle : Option Nat}
    (h : s.Valid env) (huse : s.InUse addr size) (hat : s.AtAddress handle addr size)
    (hr : walkAreas body fuel s handle addr size = .ok s') :
    R (Set.Ico addr (addr + size)) s s' := by
  induction fuel generalizing s handle addr size with
  | zero => cases hr
  | succ fuel ih =>
    have hdone : size = 0 → s' = s → R (Set.Ico addr (addr + size)) s s' := by
      rintro rfl rfl
      simpa using hR.refl h
    cases handle with
    | none =>
      simp only [walkAreas, pure_eq_ok] at hr
      refine hdone (hat.resolve_right ?_) hr.symm
      rintro ⟨_, _, habs, -⟩
      cases habs
    | some k =>
      simp only [walkAreas] at hr
      split at hr
      · rename_i hzero
        rw [pure_eq_ok] at hr
        exact hdone hzero hr.symm
      rename_i hne
      obtain ⟨_, v, heq, hk, hle, hlt⟩ := hat.resolve_left hne
      cases heq
      have hbase := h.vma.key k v hk
      have hend := h.vma.end_lt k v hk
      simp only [bind_eq_ok, deref_eq_ok] at hr
      obtain ⟨_, hv, ⟨s₁, k₁⟩, hstep, w, hw, hr⟩ := hr
      rw [hk] at hv
      cases hv
      have hstart : U64.sub addr v.base = addr - k := by
        rw [hbase]
        exact U64.sub_of_le (by omega) hle
      rw [hstart, U64.sub_of_le (by omega) (by omega)] at hstep hr
      generalize hn : min size (v.size - (addr - k)) = n at hstep hr
      have hnext : U64.add addr n = addr + n := U64.add_of_lt (by omega)
      rw [hnext] at hr
      obtain ⟨hfirst, hwf₁, w₁, hw₁, hk₁, hend₁⟩ :=
        hbody h hk hle (by omega) (by omega) hstep
      obtain ⟨w₂, hw₂, hle₂, hend₂⟩ := hwf₁.find?_mergeAdjacent hw₁
      have hsame : w₂ = w := by
        simp only at hw
        rw [hw] at hw₂
        cases hw₂
        rfl
      subst hsame
      have huse₁ : MemoryManager.InUse
          { s₁ with vmaMap := (VMAMap.mergeAdjacent s₁.vmaMap k₁).1 } (addr + n) (size - n) := by
        refine ⟨by have := huse.1; omega, fun p hp => ?_⟩
        rw [hR.isSome hfirst]
        refine huse.2 p ?_
        simp only [Set.mem_Ico] at hp ⊢
        omega
      have hrest := ih (hR.valid hfirst) huse₁
        (atAddress_next (hR.valid hfirst).vma huse₁ hw₂ (by omega) (by omega)) hr
      have hboth := hR.trans hfirst hrest
      rw [Set.Ico_union_Ico_eq_Ico (by omega) (by omega)] at hboth
      have hsum : addr + n + (size - n) = addr + size := by omega
      exact hsum ▸ hboth

/-! ## Walks that start between the regions -/

/-- Between the regions a range is valid only if the size that is left of the area
    before, which wraps around, covers it. -/
theorem size_le_of_gap (h : s.vmaMap.WF) (haddr : addr < 2 ^ 64) (hpos : 0 < size)
    (hgap : s.view.virt addr = none) (hfloor : s.vmaMap.floor? addr = some (k, v))
    (hr : isValidMapping s.vmaMap addr size = .ok true) :
    size ≤ U64.sub v.size (U64.sub addr v.base) := by
  obtain ⟨hk, hle, -⟩ := StdMap.floor?_eq_some.1 hfloor
  have hnone : ¬(s.vmaMap.at? addr).isSome := by
    rw [Option.not_isSome_iff_eq_none]
    exact hgap
  have hend := h.end_lt k v hk
  obtain ⟨hlow, hfit⟩ :=
    ((isValidMapping_of_gap h.regions hpos hnone).1 hr).of_floor? hfloor
  rw [h.regions.offset_eq hk haddr hle]
  unfold U64.sub
  omega

theorem walkAreas_zero {handle : Option Nat} (hr : walkAreas body fuel s handle addr 0 = .ok s') :
    s' = s := by
  cases fuel with
  | zero => cases hr
  | succ fuel =>
    cases handle with
    | none =>
      simp only [walkAreas, pure_eq_ok] at hr
      exact hr.symm
    | some k =>
      simp only [walkAreas, if_true, pure_eq_ok] at hr
      exact hr.symm

/-- A walk from between the regions is over after one step. -/
theorem walkAreas_of_gap (hpos : 0 < size) (hk : s.vmaMap.find? k = some v)
    (hall : size ≤ U64.sub v.size (U64.sub addr v.base))
    (hr : walkAreas body fuel s (some k) addr size = .ok s') :
    ∃ s₁ k₁, body s k v addr size = .ok (s₁, k₁) ∧
      s' = { s₁ with vmaMap := (VMAMap.mergeAdjacent s₁.vmaMap k₁).1 } := by
  cases fuel with
  | zero => cases hr
  | succ fuel =>
    simp only [walkAreas, Nat.ne_of_gt hpos, if_false, hk, bind_eq_ok, deref_eq_ok,
      Option.some.injEq] at hr
    obtain ⟨_, rfl, ⟨s₁, k₁⟩, hbody, _, -, hr⟩ := hr
    rw [Nat.min_eq_left hall] at hbody hr
    rw [Nat.sub_self] at hr
    exact ⟨s₁, k₁, hbody, walkAreas_zero hr⟩

/-- Nothing can be carved between the regions. -/
theorem carveVMA_ne_ok_of_gap (h : s.Valid env) (haddr : addr < 2 ^ 64) (hsize : size < 2 ^ 64)
    (hgap : s.view.virt addr = none) {r : VMAMap × Nat} :
    s.vmaMap.carveVMA addr size ≠ .ok r := by
  intro hcarve
  obtain ⟨-, v, -, hc, -⟩ := h.vma.carve_modify haddr hsize hcarve
  have hx := virt_of_carved h.vma hc 0 hc.pos
  rw [Nat.add_zero, hgap] at hx
  cases hx

/-- What the body of a walk does between the regions, where it is given the area
    before. -/
def GapEffect (env : Environment) (R : Set Nat → MemoryManager → MemoryManager → Prop)
    (body : MemoryManager → Nat → VirtualMemoryArea → Nat → Nat → Outcome (MemoryManager × Nat)) :
    Prop :=
  ∀ {s s' : MemoryManager} {k : Nat} {v : VirtualMemoryArea} {addr n k' : Nat}, s.Valid env →
    addr < 2 ^ 64 → n < 2 ^ 64 → s.view.virt addr = none → s.vmaMap.find? k = some v →
    body s k v addr n = .ok (s', k') →
    R ∅ s { s' with vmaMap := (VMAMap.mergeAdjacent s'.vmaMap k').1 }

/-- A walk over a range that passed the check is over a range in use, or changes
    nothing. -/
theorem walkAreas_of_valid {R : Set Nat → MemoryManager → MemoryManager → Prop}
    (hR : WalkEffect env R) (hbody : BodyEffect env R body) (hgap : GapEffect env R body)
    (h : s.Valid env) (haddr : addr < 2 ^ 64) (hsize : size < 2 ^ 64)
    (hvalid : isValidMapping s.vmaMap addr size = .ok true)
    (hfloor : s.vmaMap.floor? addr = some (k, v))
    (hr : walkAreas body fuel s (some k) addr size = .ok s') :
    (s.InUse addr size ∧ R (Set.Ico addr (addr + size)) s s') ∨ R ∅ s s' := by
  obtain ⟨hk, hle, -⟩ := StdMap.floor?_eq_some.1 hfloor
  simp only at hk hle
  cases hx : s.view.virt addr with
  | some x =>
    have huse := isValidMapping_eq_true h.vma (by simp [hx]) haddr hvalid
    obtain ⟨j, w, hj, hjle, hjlt, -⟩ := StdMap.exists_of_at? hx
    rw [StdMap.floor?_of_mem h.vma.separated hj hjle hjlt] at hfloor
    cases hfloor
    exact .inl ⟨huse, walkAreas_eq_ok hR hbody h huse (.inr ⟨k, v, rfl, hk, hle, hjlt⟩) hr⟩
  | none =>
    right
    by_cases hpos : 0 < size
    · obtain ⟨s₁, k₁, hstep, rfl⟩ :=
        walkAreas_of_gap hpos hk (size_le_of_gap h.vma haddr hpos hx hfloor hvalid) hr
      exact hgap h haddr hsize hx hk hstep
    have hzero : size = 0 := by omega
    subst hzero
    obtain rfl := walkAreas_zero hr
    exact hR.refl h

/-! ## Names -/

theorem retouch_name (name : String) : Retouch fun vma => { vma with name } :=
  ⟨fun _ => rfl, fun _ => rfl, fun _ => rfl, fun _ => rfl⟩

theorem walkEffect_retouches : WalkEffect env fun _ => Retouches env where
  refl := Retouches.refl
  trans := Retouches.trans
  valid h := h.valid
  isSome h p := by simpa using congrArg Option.isSome (h.same.virt p)

theorem nameArea_bodyEffect (name : String) :
    BodyEffect env (fun _ => Retouches env) (nameArea name) := by
  intro s s' k v addr n k' h hk hle hend hpos hr
  have hlt := h.vma.end_lt k v hk
  simp only [nameArea] at hr
  split at hr
  · cases hr
    exact ⟨.mergeAdjacent h _, h.vma, v, hk, hle, hend⟩
  rename_i hfree
  have htype : v.type ≠ .free := by simpa [isFree] using hfree
  simp only [bind_eq_ok, pure_eq_ok, Prod.mk.injEq] at hr
  obtain ⟨⟨map, new⟩, hcarve, rfl, rfl⟩ := hr
  simp only at hcarve ⊢
  split at hcarve
  · obtain ⟨rfl, w, hw⟩ := retouched_of_carve h (retouch_name name) (by omega) (by omega)
      (StdMap.floor?_of_mem h.vma.separated hk hle
        (by simp only [area_size]; omega)) htype hcarve
    exact ⟨hw.mergeAdjacent h, hw.replaced.wf, w, hw.replaced.find, Nat.le_refl _,
      by rw [hw.replaced.size_eq]⟩
  · cases hcarve
    have hw := retouched_of_modify h (retouch_name name) hk htype
    exact ⟨hw.mergeAdjacent h, hw.replaced.wf, _, hw.replaced.find, hle, hend⟩

theorem nameArea_gapEffect (name : String) :
    GapEffect env (fun _ => Retouches env) (nameArea name) := by
  intro s s' k v addr n k' h haddr hn hgap hk hr
  simp only [nameArea] at hr
  split at hr
  · cases hr
    exact .mergeAdjacent h _
  rename_i hfree
  have htype : v.type ≠ .free := by simpa [isFree] using hfree
  simp only [bind_eq_ok, pure_eq_ok, Prod.mk.injEq] at hr
  obtain ⟨⟨map, new⟩, hcarve, rfl, rfl⟩ := hr
  simp only at hcarve ⊢
  split at hcarve
  · exact absurd hcarve (carveVMA_ne_ok_of_gap h haddr hn hgap)
  cases hcarve
  exact (retouched_of_modify h (retouch_name name) hk htype).mergeAdjacent h

theorem nameVirtualRange_eq_ok {name : String} (h : s.Valid env) (haddr : addr < 2 ^ 64)
    (hsize : size < 2 ^ 64) (hr : s.nameVirtualRange addr size name = .ok s') :
    Retouches env s s' := by
  simp only [nameVirtualRange, VMAMap.findVMA, bind_eq_ok, deref_eq_ok,
    assertMsg_eq_ok] at hr
  obtain ⟨_, hvalid, -, rfl, ⟨k, v⟩, hfloor, hr⟩ := hr
  rcases walkAreas_of_valid walkEffect_retouches (nameArea_bodyEffect name)
    (nameArea_gapEffect name) h (alignDown_lt haddr) (alignUp_lt hsize) hvalid hfloor hr with
    ⟨-, hw⟩ | hw
  · exact hw
  · exact hw

/-! ## Memory types -/

/-- Going from `s` to `s'` sets the memory type of the bytes of `U`. -/
structure SetsType (env : Environment) (mt : Int) (U : Set Nat) (s s' : MemoryManager) : Prop where
  valid : s'.Valid env
  view : s'.view = s.view.setType U mt

theorem walkEffect_setsType (mt : Int) : WalkEffect env (SetsType env mt) where
  refl h := ⟨h, Memory.setType_empty.symm⟩
  trans h h' := ⟨h'.valid, by rw [h'.view, h.view, Memory.setType_setType]⟩
  valid h := h.valid
  isSome h p := by
    rw [h.view]
    exact isSome_updateOn

theorem relabels_withMemoryType (mt : Int) :
    PhysMap.Relabels (fun area => { area with memoryType := mt })
      (PhysByte.withMemoryType mt) where
  base _ := rfl
  size _ := rfl
  byte _ _ := rfl

/-- Setting the type of a list of pieces in the map of direct memory. -/
theorem retypePieces_eq_ok {mt : Int} {x : PhysMap.Extent} {map map' : PhysMap}
    {es : List (Nat × PhysicalMemoryArea)} (h : map.WF x)
    (hes : ∀ e ∈ es, 0 < e.2.size ∧ e.2.size < 2 ^ 64)
    (hr : es.foldlM (fun (map : PhysMap) (e : Nat × PhysicalMemoryArea) => do
      let (map, handle) ← map.carvePhysArea e.2.base e.2.size
      return map.modify handle fun area => { area with memoryType := mt }) map = .ok map') :
    map'.WF x ∧ map'.at? = updateOn {q | ∃ e ∈ es, e.2.base ≤ q ∧ q < e.2.base + e.2.size}
      (PhysByte.withMemoryType mt) map.at? := by
  induction es generalizing map with
  | nil =>
    rw [List.foldlM_nil, pure_eq_ok] at hr
    subst hr
    simp [h]
  | cons e es ih =>
    simp only [List.foldlM_cons, bind_eq_ok, pure_eq_ok] at hr
    obtain ⟨map₁, ⟨r, hcarve, rfl⟩, hr⟩ := hr
    obtain ⟨hpos, hlt⟩ := hes e List.mem_cons_self
    obtain ⟨hwf, -, -, hat⟩ :=
      h.carve_modify hlt (relabels_withMemoryType mt) (.inl hpos) hcarve
    obtain ⟨hwf', hat'⟩ := ih hwf (fun e he => hes e (List.mem_cons_of_mem _ he)) hr
    refine ⟨hwf', ?_⟩
    rw [hat', hat, updateOn_updateOn (PhysByte.withMemoryType_withMemoryType mt)]
    congr 1
    ext q
    simp [Set.mem_Ico]

/-- The addresses behind a whole area are those of its pieces. -/
theorem addrs_eq_pieces {areas : PhysMap} (h : areas.Backs n) :
    areas.addrs (Set.Ico 0 (0 + n)) =
      {q | ∃ e ∈ areas.entries, e.2.base ≤ q ∧ q < e.2.base + e.2.size} := by
  ext q
  constructor
  · rintro ⟨o, -, b, hb, rfl⟩
    obtain ⟨k, a, hk, hle, hlt, rfl⟩ := StdMap.exists_of_at? hb
    simp only [PhysicalMemoryArea.area_size] at hlt
    simp only [PhysicalMemoryArea.area_byte]
    exact ⟨(k, a), StdMap.mem_entries_iff.2 hk, Nat.le_add_right _ _, by simp only; omega⟩
  · rintro ⟨⟨k, a⟩, hmem, hle, hlt⟩
    have hk := StdMap.mem_entries_iff.1 hmem
    have hend := h.le k a hk
    simp only [PhysicalMemoryArea.area_size] at hend hle hlt
    refine ⟨k + (q - a.base), Set.mem_Ico.2 ⟨Nat.zero_le _, by omega⟩, _,
      StdMap.at?_of_find? h.separated hk (Nat.le_add_right _ _)
        (by simp only [PhysicalMemoryArea.area_size]; omega), ?_⟩
    simp only [PhysicalMemoryArea.area_byte]
    omega

/-- Memory without a memory type is left alone. -/
theorem setType_of_reads {mt : Int} {j : Nat} (h : s.Reads addr n v j) (hd : v.type ≠ .direct)
    (hp : v.type ≠ .pooled) : s.view.setType (Set.Ico addr (addr + n)) mt = s.view := by
  have hbehind : s.view.behind .direct (Set.Ico addr (addr + n)) ∪
      s.view.behind .pooled (Set.Ico addr (addr + n)) = ∅ := by
    rw [behind_of_reads h, behind_of_reads h, if_neg hd, if_neg hp, Set.union_empty]
  have hvirt : updateOn (Set.Ico addr (addr + n)) (VirtByte.withMemoryType mt) s.view.virt =
      updateOn ∅ (VirtByte.withMemoryType mt) s.view.virt := by
    refine updateOn_congr fun p x hx => ?_
    by_cases hpin : p ∈ Set.Ico addr (addr + n)
    · rw [Set.mem_Ico] at hpin
      have hread := h (p - addr) (by omega)
      rw [Nat.add_sub_cancel' hpin.1, hx] at hread
      cases hread
      exact .inr (if_neg (by simp [hd, hp]))
    · exact .inl (by simp [hpin])
  simp only [Memory.setType, hbehind, hvirt, updateOn_empty]

theorem setTypeOfArea_bodyEffect (mt : Int) :
    BodyEffect env (SetsType env mt) (setTypeOfArea mt) := by
  intro s s' k v addr n k' h hk hle hend hpos hr
  have hlt := h.vma.end_lt k v hk
  have hbase := h.vma.key k v hk
  simp only [setTypeOfArea] at hr
  split at hr
  · rename_i htype
    simp only [bind_eq_ok, deref_eq_ok, pure_eq_ok, Prod.mk.injEq] at hr
    obtain ⟨⟨map, new⟩, hcarve, w, hw, dmem, hfold, rfl, rfl⟩ := hr
    obtain ⟨hhandle, v₁, w', hc, hfind, hwwf, hwbase, hwsize, hwtype, hread, hrep⟩ :=
      h.vma.carve_modify (by omega) (by omega) hcarve
    simp only at hhandle hfind hw
    subst hhandle
    rw [hfind] at hw
    cases hw
    have hv₁ : v₁ = v := by
      have := hc.floor? h.vma
      rw [StdMap.floor?_of_mem h.vma.separated hk hle
        (by simp only [area_size]; omega)] at this
      cases this
      rfl
    subst hv₁
    rw [← hwtype] at htype
    have hbacked : w.type.hasPhysicalBacking := by
      rcases htype with ht | ht <;> rw [ht] <;> rfl
    have hback : w.physAreas.Backs n := hwsize ▸ hwwf.backed hbacked
    obtain ⟨hback', hat'⟩ := hback.mapVal (relabels_withMemoryType mt)
    have hreads : s.Reads new n w 0 := fun o ho => by rw [Nat.zero_add]; exact hread o ho
    obtain ⟨hdwf, hdat⟩ := retypePieces_eq_ok h.dmem (fun e he => by
      have hmem := StdMap.mem_entries_iff.1 (show (e.1, e.2) ∈ w.physAreas.entries from he)
      have := hback.pos _ _ hmem
      have := hback.phys_lt _ _ hmem
      simp only [PhysicalMemoryArea.area_size] at *
      omega) hfold
    have hrep := hrep (setPieceTypes mt)
      ⟨hwwf.pos, fun _ => hwsize.symm ▸ hback', by simp [setPieceTypes, hbacked], hwwf.free⟩
      hwbase hwsize
    obtain ⟨hwf, hat⟩ := hrep.mergeAdjacent
    have hview : MemoryManager.view { s with
        dmemMap := dmem,
        vmaMap := (VMAMap.mergeAdjacent (map.modify new (setPieceTypes mt)) new).1 } =
        s.view.setType (Set.Ico new (new + n)) mt := by
      refine Memory.ext (funext fun p => (hat p).trans ?_) (hdat.trans ?_) rfl rfl rfl
      · split
        · rename_i hp
          have hx := hread (p - new) (by omega)
          rw [Nat.add_sub_cancel' hp.1] at hx
          refine ((updateOn_of_mem (Set.mem_Ico.2 hp)).trans ?_).symm
          change (s.vmaMap.at? p).map _ = _
          rw [hx, Option.map_some, VirtByte.withMemoryType, area_byte,
            if_pos htype]
          simp [setPieceTypes, hat']
        · rename_i hp
          exact (updateOn_of_notMem fun hin => hp (Set.mem_Ico.1 hin)).symm
      · refine congrArg (updateOn · _ s.view.dmem) ?_
        rw [behind_of_reads hreads, behind_of_reads hreads, ← addrs_eq_pieces hback]
        rcases htype with ht | ht <;> simp [ht]
    refine ⟨⟨⟨hdwf, h.fmem, hwf, hrep.coalesced_mergeAdjacent h.coalesced, ?_, h.usage_le,
      h.budget_lt⟩, hview⟩, hrep.wf, _, hrep.find, Nat.le_refl _, by rw [hrep.size_eq]⟩
    rw [hview]
    exact h.sound.setType
  · rename_i htype
    simp only [not_or] at htype
    cases hr
    have hreads : s.Reads addr n v (addr - v.base) :=
      virt_of_carved h.vma ⟨by rw [hbase]; exact hk, by omega, by omega, hpos⟩
    have hmerge := Retouches.mergeAdjacent h k
    refine ⟨⟨hmerge.valid, ?_⟩, h.vma, v, hk, hle, hend⟩
    rw [setType_of_reads hreads htype.1 htype.2]
    exact Memory.ext (funext h.vma.mergeAdjacent.2) rfl rfl rfl rfl

theorem setTypeOfArea_gapEffect (mt : Int) :
    GapEffect env (SetsType env mt) (setTypeOfArea mt) := by
  intro s s' k v addr n k' h haddr hn hgap hk hr
  simp only [setTypeOfArea] at hr
  split at hr
  · simp only [bind_eq_ok] at hr
    obtain ⟨r, hcarve, -⟩ := hr
    exact absurd hcarve (carveVMA_ne_ok_of_gap h haddr hn hgap)
  cases hr
  refine ⟨(Retouches.mergeAdjacent h _).valid, ?_⟩
  rw [Memory.setType_empty]
  exact Memory.ext (funext h.vma.mergeAdjacent.2) rfl rfl rfl rfl

/-- `SetDirectMemoryType` sets the type of its range, or changes no byte. -/
theorem setDirectMemoryType_eq_ok {mt : Int} (h : s.Valid env) (haddr : addr < 2 ^ 64)
    (hsize : size < 2 ^ 64) (hr : s.setDirectMemoryType addr size mt = .ok s') :
    s'.Valid env ∧
      (s'.view = s.view.setType (Set.Ico addr (addr + size)) mt ∨ s'.view = s.view) := by
  simp only [setDirectMemoryType, VMAMap.findVMA, bind_eq_ok, deref_eq_ok,
    assertMsg_eq_ok] at hr
  obtain ⟨_, hvalid, -, rfl, ⟨k, v⟩, hfloor, hr⟩ := hr
  rcases walkAreas_of_valid (walkEffect_setsType mt) (setTypeOfArea_bodyEffect mt)
    (setTypeOfArea_gapEffect mt) h haddr hsize hvalid hfloor hr with ⟨-, hw⟩ | hw
  · exact ⟨hw.valid, .inl hw.view⟩
  · exact ⟨hw.valid, .inr (hw.view.trans Memory.setType_empty)⟩

end MemoryManager

end Core
