-- SUMMARY: The loops that gather physical memory for a new area: what they take, in which order, and that they find what is there.
import W7PS4.Memory.Unmapping

/-!
# Physical memory for new areas

`takeBacking` walks over a map of physical memory and takes the areas of one
type, lowest address first. `takeDirect` takes a given range. Both enter what
they take, in order, into the physical areas of the new virtual area.
-/

namespace Core

open PhysicalMemoryArea (area_byte area_size canMergeWith)
open Outcome (bind_eq_ok pure_eq_ok)

namespace PhysMap

variable {x : Extent} {n addr size : Nat} {map map' areas areas' : PhysMap}
  {f : PhysicalMemoryArea → PhysicalMemoryArea} {g : PhysByte → PhysByte}

/-- One piece: the bytes of the range are relabelled, and they come next in the
    backing. -/
theorem takePiece_eq_ok (hwf : map.WF x) (hback : areas.Backs n) (hpos : 0 < size)
    (hsize : size < 2 ^ 64) (hf : Relabels f g) {handle : Nat}
    (hr : takePiece f map areas addr size n = .ok (map', areas', handle)) :
    map'.WF x ∧ areas'.Backs (n + size) ∧
      map'.at? = updateOn (Set.Ico addr (addr + size)) g map.at? ∧
      (∃ a, Carved map addr size a) ∧
      (∀ o, areas'.at? o = if n ≤ o ∧ o < n + size then (map.at? (addr + (o - n))).map g
        else areas.at? o) ∧
      ∃ e, map'.floor? addr = some (handle, e) := by
  simp only [takePiece, bind_eq_ok, deref_eq_ok, pure_eq_ok, Prod.mk.injEq] at hr
  obtain ⟨⟨map₁, h₁⟩, hcarve, area, harea, rfl, rfl, rfl⟩ := hr
  obtain ⟨hwf', hhandle, ⟨a, hc, hfind⟩, hat⟩ := hwf.carve_modify hsize hf (.inl hpos) hcarve
  simp only at hhandle hfind hat harea
  subst hhandle
  rw [hfind] at harea
  cases harea
  have hbase : (f { a with base := h₁, size := size }).base = h₁ := hf.base _
  have hsz : (f { a with base := h₁, size := size }).size = size := hf.size _
  have hbounds := hwf.bounds _ a hc.mem
  have hfits := hc.fits
  have hhi := hwf.hi_lt
  obtain ⟨hback', hat'⟩ := hback.append (a := f { a with base := h₁, size := size })
    (by omega) (by omega)
  rw [hsz] at hback' hat'
  refine ⟨hwf'.mergeAdjacent, hback', (funext fun _ => at?_mergeAdjacent hwf').trans hat,
    ⟨a, hc⟩, fun o => ?_, StdMap.floor?_mergeAdjacent _ _ hfind⟩
  rw [hat' o]
  split
  · rename_i ho
    rw [hc.at? hwf (by omega) (by omega), Option.map_some, hbase]
    have hbyte := hf.byte { a with base := h₁, size := size } (o - n)
    simp only [area_byte, hbase] at hbyte
    rw [hbyte]
  · rfl

/-- The entry that `floor?` finds holds the byte. -/
theorem WF.byte_of_floor? (hwf : map.WF x) {k : Nat} {e : PhysicalMemoryArea} {b : PhysByte}
    (hfloor : map.floor? addr = some (k, e)) (hb : map.at? addr = some b) :
    k ≤ addr ∧ addr < k + e.size ∧ b = ⟨addr, e.memoryType, e.dmaType⟩ := by
  obtain ⟨hk, hle, -⟩ := StdMap.floor?_eq_some.1 hfloor
  have hbase := hwf.key k e hk
  simp only [StdMap.at?, hfloor, area_size] at hb
  simp only at hle
  split at hb
  · rename_i hlt
    cases hb
    refine ⟨hle, hlt, ?_⟩
    simp only [area_byte, PhysByte.mk.injEq, and_self, and_true]
    omega
  · cases hb

/-! ## The walk -/

/-- Nothing wanted lies below the handle. -/
def Cleared (wanted : PhysicalMemoryType) (map : PhysMap) (handle : Option Nat) : Prop :=
  ∀ q b, map.at? q = some b → (∀ k, handle = some k → q < k) → b.dmaType ≠ wanted

/-- Moving on from an entry that is not wanted. -/
theorem Cleared.next (hwf : map.WF x) {wanted : PhysicalMemoryType} {k : Nat}
    {e : PhysicalMemoryArea} (h : Cleared wanted map (some k)) (hk : map.find? k = some e)
    (he : e.dmaType ≠ wanted) : Cleared wanted map ((map.next? k).map Prod.fst) := by
  intro q b hb hq
  obtain ⟨j, a, hj, hjle, hjlt, rfl⟩ := StdMap.exists_of_at? hb
  rcases Nat.lt_trichotomy j k with hlt | rfl | hgt
  · have hsep := hwf.separated j a k e hj hk hlt
    refine h q _ hb ?_
    rintro k' hk'
    cases hk'
    omega
  · rw [hk] at hj
    cases hj
    exact he
  · exfalso
    cases hnext : map.next? k with
    | none =>
      have := StdMap.next?_eq_none.1 hnext j a hj
      omega
    | some e' =>
      have hmin := (StdMap.next?_eq_some.1 hnext).2.2 j a hj hgt
      have := hq e'.1 (by simp [hnext])
      omega

/-- What the walk has taken for the offsets `[offset, offset + n)`, and from where. -/
structure Takes (wanted : PhysicalMemoryType) (g : PhysByte → PhysByte) (map map' areas' : PhysMap)
    (offset n : Nat) : Prop where
  backs : areas'.Backs (offset + n)
  taken : ∀ o, offset ≤ o → o < offset + n → ∃ b, map.at? b.addr = some b ∧
    b.dmaType = wanted ∧ areas'.at? o = some (g b)
  inj : ∀ o o' b b', offset ≤ o → o < offset + n → offset ≤ o' → o' < offset + n →
    areas'.at? o = some b → areas'.at? o' = some b' → b.addr = b'.addr → o = o'
  bytes : map'.at? = updateOn (areas'.addrs (Set.Ico offset (offset + n))) g map.at?
  /-- What was taken was the lowest there was. -/
  lowest : ∀ o b, offset ≤ o → o < offset + n → areas'.at? o = some b →
    ∀ q c, q < b.addr → map'.at? q = some c → c.dmaType ≠ wanted

variable {wanted : PhysicalMemoryType}

theorem Takes.nil {offset : Nat} (h : areas.Backs offset) : Takes wanted g map map areas offset 0 where
  backs := h
  taken := by omega
  inj := by omega
  bytes := by simp [addrs]
  lowest := by omega

/-- How a walk for `wanted` memory relabels what it takes. -/
structure Claims (wanted : PhysicalMemoryType) (f : PhysicalMemoryArea → PhysicalMemoryArea)
    (g : PhysByte → PhysByte) : Prop extends Relabels f g where
  idem : ∀ b, g (g b) = g b
  addr : ∀ b, (g b).addr = b.addr
  ne : ∀ b, (g b).dmaType ≠ wanted

theorem WF.addr_of_at? (hwf : map.WF x) {q : Nat} {b : PhysByte} (hb : map.at? q = some b) :
    b.addr = q := by
  obtain ⟨k, a, hk, hle, hlt, rfl⟩ := StdMap.exists_of_at? hb
  have := hwf.key k a hk
  simp only [area_byte]
  omega

/-- A piece and what is taken after it. -/
theorem Takes.cons {wanted : PhysicalMemoryType} {map₁ areas₁ : PhysMap} {offset : Nat}
    (hwf : map.WF x) (hg : Claims wanted f g) (hclear : Cleared wanted map (some addr))
    (hpiece : ∀ q ∈ Set.Ico addr (addr + size), ∃ b, map.at? q = some b ∧ b.dmaType = wanted)
    (hbytes : map₁.at? = updateOn (Set.Ico addr (addr + size)) g map.at?)
    (hareas : ∀ o, offset ≤ o → o < offset + size →
      areas₁.at? o = (map.at? (addr + (o - offset))).map g)
    (hframe : ∀ o, o < offset + size → areas'.at? o = areas₁.at? o)
    (h : Takes wanted g map₁ map' areas' (offset + size) n) :
    Takes wanted g map map' areas' offset (size + n) := by
  have hfirst : ∀ o, offset ≤ o → o < offset + size → ∃ b, map.at? (addr + (o - offset)) = some b ∧
      b.addr = addr + (o - offset) ∧ b.dmaType = wanted ∧ areas'.at? o = some (g b) := by
    intro o ho ho'
    obtain ⟨b, hb, hbt⟩ := hpiece (addr + (o - offset)) (by rw [Set.mem_Ico]; omega)
    exact ⟨b, hb, hwf.addr_of_at? hb, hbt, by rw [hframe o ho', hareas o ho ho', hb]; rfl⟩
  -- what is taken later is not in the piece, whose bytes are no longer wanted
  have hlater : ∀ o, offset + size ≤ o → o < offset + size + n → ∃ b, map.at? b.addr = some b ∧
      b.addr ∉ Set.Ico addr (addr + size) ∧ b.dmaType = wanted ∧ areas'.at? o = some (g b) := by
    intro o ho ho'
    obtain ⟨b, hb, hbt, hob⟩ := h.taken o ho ho'
    rw [hbytes] at hb
    obtain ⟨c, hc, ⟨-, rfl⟩ | ⟨hnot, rfl⟩⟩ := updateOn_eq_some.1 hb
    · exact absurd hbt (hg.ne c)
    · exact ⟨c, hc, hnot, hbt, hob⟩
  have hlabel : ∀ q c, map'.at? q = some c → c.dmaType = wanted → map.at? q = some c := by
    intro q c hq hc
    rw [h.bytes, hbytes, updateOn_updateOn hg.idem] at hq
    obtain ⟨d, hd, ⟨-, rfl⟩ | ⟨-, rfl⟩⟩ := updateOn_eq_some.1 hq
    · exact absurd hc (hg.ne d)
    · exact hd
  refine ⟨Nat.add_assoc offset size n ▸ h.backs, ?_, ?_, ?_, ?_⟩
  · intro o ho ho'
    by_cases hos : o < offset + size
    · obtain ⟨b, hb, hba, hbt, hob⟩ := hfirst o ho hos
      exact ⟨b, hba ▸ hb, hbt, hob⟩
    · obtain ⟨b, hb, -, hbt, hob⟩ := hlater o (by omega) (by omega)
      exact ⟨b, hb, hbt, hob⟩
  · intro o o' b b' ho hon ho' hon' hb hb' heq
    by_cases hos : o < offset + size <;> by_cases hos' : o' < offset + size
    · obtain ⟨c, -, hca, -, hoc⟩ := hfirst o ho hos
      obtain ⟨c', -, hca', -, hoc'⟩ := hfirst o' ho' hos'
      rw [hb] at hoc
      rw [hb'] at hoc'
      cases hoc
      cases hoc'
      rw [hg.addr, hg.addr] at heq
      omega
    · obtain ⟨c, -, hca, -, hoc⟩ := hfirst o ho hos
      obtain ⟨c', -, hnot, -, hoc'⟩ := hlater o' (by omega) (by omega)
      rw [hb] at hoc
      rw [hb'] at hoc'
      cases hoc
      cases hoc'
      rw [hg.addr, hg.addr] at heq
      rw [Set.mem_Ico] at hnot
      omega
    · obtain ⟨c, -, hnot, -, hoc⟩ := hlater o (by omega) (by omega)
      obtain ⟨c', -, hca', -, hoc'⟩ := hfirst o' ho' hos'
      rw [hb] at hoc
      rw [hb'] at hoc'
      cases hoc
      cases hoc'
      rw [hg.addr, hg.addr] at heq
      rw [Set.mem_Ico] at hnot
      omega
    · exact h.inj o o' b b' (by omega) (by omega) (by omega) (by omega) hb hb' heq
  · have hset : areas'.addrs (Set.Ico offset (offset + size)) = Set.Ico addr (addr + size) := by
      ext q
      simp only [Set.mem_Ico]
      constructor
      · rintro ⟨o, ho, b, hob, rfl⟩
        rw [Set.mem_Ico] at ho
        obtain ⟨c, -, hca, -, hoc⟩ := hfirst o ho.1 ho.2
        rw [hob] at hoc
        cases hoc
        rw [hg.addr]
        omega
      · rintro ⟨hle, hlt⟩
        obtain ⟨c, -, hca, -, hoc⟩ := hfirst (offset + (q - addr)) (by omega) (by omega)
        exact ⟨_, Set.mem_Ico.2 ⟨by omega, by omega⟩, _, hoc, by rw [hg.addr]; omega⟩
    rw [h.bytes, hbytes, updateOn_updateOn hg.idem, ← hset, addrs_union,
      Set.Ico_union_Ico_eq_Ico (by omega) (by omega), Nat.add_assoc]
  · intro o b ho ho' hob q c hq hc
    by_cases hos : o < offset + size
    · intro hct
      obtain ⟨d, -, hda, -, hod⟩ := hfirst o ho hos
      rw [hob] at hod
      cases hod
      rw [hg.addr] at hq
      by_cases hqa : q < addr
      · exact hclear q c (hlabel q c hc hct) (fun k hk => by cases hk; exact hqa) hct
      rw [h.bytes, hbytes, updateOn_updateOn hg.idem,
        updateOn_of_mem (.inl (Set.mem_Ico.2 ⟨by omega, by omega⟩)),
        Option.map_eq_some_iff] at hc
      obtain ⟨e, -, rfl⟩ := hc
      exact hg.ne e hct
    · exact h.lowest o b (by omega) (by omega) hob q c hq hc

/-- The walk from `handle` on. The induction is on the fuel; `Cleared` says that the
    walk has left nothing behind. -/
theorem takeBackingLoop_eq_ok {fuel offset remaining left : Nat}
    {handle : Option Nat} (hwf : map.WF x) (hback : areas.Backs offset)
    (hclear : Cleared wanted map handle) (hg : Claims wanted f g)
    (hw : wanted ≠ .free ∨ x.shrinks = false)
    (hrem : remaining < 2 ^ 64)
    (hr : takeBackingLoop wanted f fuel map handle areas offset remaining =
      .ok (map', areas', left)) :
    map'.WF x ∧ left ≤ remaining ∧
      Takes wanted g map map' areas' offset (remaining - left) ∧
      (∀ o, o < offset → areas'.at? o = areas.at? o) ∧
      (left = 0 ∨ ∀ q b, map'.at? q = some b → b.dmaType ≠ wanted) := by
  induction fuel generalizing map handle areas offset remaining with
  | zero => cases hr
  | succ fuel ih =>
    cases handle with
    | none =>
      simp only [takeBackingLoop, pure_eq_ok, Prod.mk.injEq] at hr
      obtain ⟨rfl, rfl, rfl⟩ := hr
      rw [Nat.sub_self]
      exact ⟨hwf, Nat.le_refl _, .nil hback, fun _ _ => rfl,
        .inr fun q b hb => hclear q b hb (by simp)⟩
    | some k =>
      simp only [takeBackingLoop] at hr
      split at hr
      · rename_i hzero
        simp only [pure_eq_ok, Prod.mk.injEq] at hr
        obtain ⟨rfl, rfl, rfl⟩ := hr
        rw [Nat.sub_self]
        exact ⟨hwf, Nat.le_refl _, .nil hback, fun _ _ => rfl, .inl hzero⟩
      · rename_i hrest
        simp only [bind_eq_ok, deref_eq_ok] at hr
        obtain ⟨area, harea, hr⟩ := hr
        have hbase := hwf.key k area harea
        have hbounds := hwf.bounds k area harea
        have hhi := hwf.hi_lt
        split at hr
        · rename_i hne
          exact ih hwf hback (hclear.next hwf harea hne) hrem hr
        rename_i heq
        simp only [ne_eq, Decidable.not_not] at heq
        have hpos := hwf.pos k area harea (hw.imp (heq ▸ ·) id)
        simp only [bind_eq_ok] at hr
        obtain ⟨⟨map₁, areas₁, h₁⟩, htake, hr⟩ := hr
        rw [hbase] at htake
        obtain ⟨hwf₁, hback₁, hbytes, -, hareas, e, hfloor⟩ :=
          takePiece_eq_ok hwf hback (by omega) (by omega) hg.toRelabels htake
        have hpiece : ∀ q ∈ Set.Ico k (k + min remaining area.size),
            ∃ b, map.at? q = some b ∧ b.dmaType = wanted := by
          intro q hq
          rw [Set.mem_Ico] at hq
          exact ⟨_, StdMap.at?_of_find? hwf.separated harea hq.1
            (by simp only [area_size]; omega), heq⟩
        -- the entry the walk moves on from holds the piece
        have hclear₁ : Cleared wanted map₁ ((map₁.next? h₁).map Prod.fst) := by
          obtain ⟨b, hb, -⟩ := hpiece k (by rw [Set.mem_Ico]; omega)
          have hb₁ : map₁.at? k = some (g b) := by
            rw [hbytes, updateOn_of_mem (Set.mem_Ico.2 ⟨by omega, by omega⟩), hb, Option.map_some]
          obtain ⟨hle, -, hbe⟩ := hwf₁.byte_of_floor? hfloor hb₁
          have hne : e.dmaType ≠ wanted := by
            have := hg.ne b
            rwa [hbe] at this
          refine Cleared.next hwf₁ (k := h₁) ?_ (StdMap.floor?_eq_some.1 hfloor).1 hne
          intro q c hc hq
          rw [hbytes] at hc
          obtain ⟨d, hd, ⟨-, rfl⟩ | ⟨-, rfl⟩⟩ := updateOn_eq_some.1 hc
          · exact hg.ne d
          · refine hclear q d hd fun j hj => ?_
            cases hj
            have := hq h₁ rfl
            omega
        obtain ⟨hwf', hleft, htakes, hframe, hdone⟩ := ih hwf₁ hback₁ hclear₁ (by omega) hr
        have hcons := Takes.cons hwf hg hclear hpiece hbytes
          (fun o ho ho' => by rw [hareas, if_pos ⟨ho, ho'⟩]) (fun o ho => hframe o ho) htakes
        have hsum : min remaining area.size + (remaining - min remaining area.size - left) =
            remaining - left := by omega
        refine ⟨hwf', by omega, hsum ▸ hcons, fun o ho => ?_, hdone⟩
        rw [hframe o (by omega), hareas, if_neg (by omega)]

/-- The walk over a whole map. -/
theorem takeBacking_eq_ok {left : Nat} (hwf : map.WF x)
    (hg : Claims wanted f g) (hw : wanted ≠ .free ∨ x.shrinks = false) (hsize : size < 2 ^ 64)
    (hr : takeBacking wanted f map size = .ok (map', areas, left)) :
    map'.WF x ∧ left ≤ size ∧ Takes wanted g map map' areas 0 (size - left) ∧
      (left = 0 ∨ ∀ q b, map'.at? q = some b → b.dmaType ≠ wanted) := by
  have hclear : Cleared wanted map (map.first?.map Prod.fst) := by
    intro q b hb hq
    exfalso
    obtain ⟨k, a, hk, hle, -⟩ := StdMap.exists_of_at? hb
    cases hfirst : map.first? with
    | none =>
      have hmem := StdMap.mem_entries_iff.2 hk
      rw [List.head?_eq_none_iff.1 hfirst] at hmem
      cases hmem
    | some e =>
      have := (StdMap.first?_eq_some.1 hfirst).2 k a hk
      have := hq e.1 (by simp [hfirst])
      omega
  obtain ⟨hwf', hleft, htakes, -, hdone⟩ :=
    takeBackingLoop_eq_ok hwf backs_empty hclear hg hw hsize hr
  exact ⟨hwf', hleft, htakes, hdone⟩

/-! ## A given range -/

/-- The area before the address ends at it. -/
structure Stuck (map : PhysMap) (addr : Nat) : Prop where
  key : ∀ k a, map.find? k = some a → a.base = k
  ends : ∃ k a, map.floor? addr = some (k, a) ∧ k + a.size = addr

/-- Carving nothing at the end of an area succeeds for an empty area only, and that
    area is still at the end after it is changed and coalesced. -/
theorem Stuck.takePiece (h : Stuck map addr) (haddr : addr < 2 ^ 64)
    (hf : ∀ a, (f a).base = a.base ∧ (f a).size = a.size) {handle : Nat}
    (hr : PhysMap.takePiece f map areas addr 0 n = .ok (map', areas', handle)) :
    Stuck map' addr := by
  obtain ⟨k, a, hfloor, hend⟩ := h.ends
  have hk := (StdMap.floor?_eq_some.1 hfloor).1
  simp only at hk
  have hbase := h.key k a hk
  simp only [PhysMap.takePiece, bind_eq_ok, deref_eq_ok, pure_eq_ok,
    Prod.mk.injEq] at hr
  obtain ⟨⟨map₁, h₁⟩, hcarve, area, -, rfl, -, -⟩ := hr
  simp only [carvePhysArea, hfloor, bind_eq_ok, deref_eq_ok, Option.some.injEq,
    assertMsg_eq_ok, decide_eq_true_eq] at hcarve
  obtain ⟨_, rfl, -, -, -, -, -, -, map₂, hmap₂, hcarve⟩ := hcarve
  have hstart : addr - a.base = a.size := by omega
  have hsum : U64.add a.size 0 = a.size := U64.add_of_lt (by omega)
  rw [hstart, hsum, if_neg (by simp), pure_eq_ok] at hmap₂
  subst hmap₂
  rw [hstart] at hcarve
  split at hcarve
  · simp only [split, hk, bind_eq_ok, deref_eq_ok, Option.some.injEq, assertMsg_eq_ok] at hcarve
    obtain ⟨_, rfl, -, hlt, -⟩ := hcarve
    simp at hlt
  rename_i hzero
  simp only [ne_eq, Decidable.not_not] at hzero
  have hka : k = addr := by omega
  subst hka
  cases hcarve
  rw [StdMap.modify_of_find?_eq_some hk]
  have hkey : ∀ j b, (map.insert k (f a)).find? j = some b → b.base = j := by
    intro j b hj
    simp only [StdMap.find?_insert] at hj
    split at hj
    · rename_i hjk
      cases hj
      rw [(hf a).1, hbase, hjk]
    · exact h.key j b hj
  have hfind : (map.insert k (f a)).find? k = some (f a) := by simp
  generalize map.insert k (f a) = m at hkey hfind
  have hnext : StdMap.mergeNext canMergeWith PhysicalMemoryArea.join m k = m := by
    unfold StdMap.mergeNext
    split
    · rename_i a' j b ha' hj
      obtain ⟨hj, hkj, -⟩ := StdMap.next?_eq_some.1 hj
      rw [hfind] at ha'
      cases ha'
      have hjbase := hkey j b hj
      simp only at hkj
      rw [if_neg]
      simp only [canMergeWith, Bool.and_eq_true, beq_iff_eq, hf]
      omega
    · rfl
  rw [PhysMap.mergeAdjacent, StdMap.mergeAdjacent, hnext]
  unfold StdMap.mergePrev
  split
  · rename_i j b c hp hc
    rw [hfind] at hc
    cases hc
    obtain ⟨hj, hjk, hmax⟩ := StdMap.prev?_eq_some.1 hp
    simp only at hj hjk hmax
    have hjbase := hkey j b hj
    split
    · rename_i hcan
      simp only [canMergeWith, Bool.and_eq_true, beq_iff_eq, hf] at hcan
      refine ⟨?_, j, b.join (f a), StdMap.floor?_eq_some.2 ⟨?_, Nat.le_of_lt hjk, ?_⟩, ?_⟩
      · intro i d hi
        simp only [StdMap.find?_erase, StdMap.find?_insert] at hi
        split at hi
        · cases hi
        split at hi
        · cases hi
          simp only [PhysicalMemoryArea.join]
          omega
        · exact hkey i d hi
      · simp [Nat.ne_of_lt hjk]
      · intro i d hi hik
        simp only [StdMap.find?_erase, StdMap.find?_insert] at hi
        split at hi
        · cases hi
        split at hi
        · rename_i hij
          exact Nat.le_of_eq hij
        · exact hmax i d hi (by omega)
      · simp only [PhysicalMemoryArea.join, hf]
        omega
    · exact ⟨hkey, k, f a, StdMap.floor?_eq_some.2 ⟨hfind, Nat.le_refl k, fun i d _ hi => hi⟩,
        by rw [(hf a).2]; omega⟩
  · exact ⟨hkey, k, f a, StdMap.floor?_eq_some.2 ⟨hfind, Nat.le_refl k, fun i d _ hi => hi⟩,
      by rw [(hf a).2]; omega⟩

/-- From the end of an area the loop over a range gets nowhere. -/
theorem Stuck.takeDirectLoop_ne_ok {fuel physAddr remaining : Nat} {r : PhysMap × PhysMap}
    (h : Stuck map addr) (haddr : addr < 2 ^ 64) (hrem : 0 < remaining) :
    takeDirectLoop physAddr fuel map areas addr remaining ≠ .ok r := by
  induction fuel generalizing map areas with
  | zero => simp [takeDirectLoop, throw, throwThe, MonadExceptOf.throw]
  | succ fuel ih =>
    intro hr
    obtain ⟨k, a, hfloor, hend⟩ := h.ends
    obtain ⟨hk, hle, -⟩ := StdMap.floor?_eq_some.1 hfloor
    simp only at hk hle
    have hbase := h.key k a hk
    simp only [takeDirectLoop, hfloor] at hr
    rw [if_neg (by omega)] at hr
    simp only [bind_eq_ok, deref_eq_ok, Option.some.injEq] at hr
    obtain ⟨_, rfl, ⟨map₁, areas₁, h₁⟩, htake, hr⟩ := hr
    have hstart : max addr a.base = addr := by omega
    have hoff : U64.sub a.size (addr - a.base) = 0 := by
      simp only [U64.sub]
      omega
    simp only [hstart, hoff, Nat.zero_min] at htake hr
    have hcur : U64.add addr 0 = addr := U64.add_of_lt (by omega)
    rw [hcur] at hr
    have hsame : ∀ a : PhysicalMemoryArea, { a with dmaType := .mapped }.base = a.base ∧
        { a with dmaType := .mapped }.size = a.size := fun _ => ⟨rfl, rfl⟩
    exact ih (h.takePiece haddr hsame htake) hr

theorem relabels_mapped :
    Relabels (fun area => { area with dmaType := .mapped }) (PhysByte.withDmaType .mapped) :=
  MemoryManager.relabels_withDmaType _

theorem takeDirectLoop_eq_ok {fuel physAddr cur remaining : Nat} (hwf : map.WF x)
    (hle : physAddr ≤ cur) (hback : areas.Backs (cur - physAddr)) (hcur : cur < 2 ^ 64)
    (hrem : remaining < 2 ^ 64)
    (hr : takeDirectLoop physAddr fuel map areas cur remaining = .ok (map', areas')) :
    map'.WF x ∧ areas'.Backs (cur - physAddr + remaining) ∧
      map'.at? = updateOn (Set.Ico cur (cur + remaining)) (PhysByte.withDmaType .mapped) map.at? ∧
      (∀ o, areas'.at? o = if cur - physAddr ≤ o ∧ o < cur - physAddr + remaining then
        (map.at? (physAddr + o)).map (PhysByte.withDmaType .mapped) else areas.at? o) ∧
      ∀ q ∈ Set.Ico cur (cur + remaining), (map.at? q).isSome := by
  induction fuel generalizing map areas cur remaining with
  | zero => cases hr
  | succ fuel ih =>
    have hrun := hr
    simp only [takeDirectLoop] at hr
    split at hr
    · rename_i hzero
      subst hzero
      cases hr
      exact ⟨hwf, hback, by simp, fun o => by rw [if_neg (by omega)], by simp⟩
    · rename_i hrest
      simp only [bind_eq_ok, deref_eq_ok] at hr
      obtain ⟨⟨k, a⟩, hfloor, ⟨map₁, areas₁, h₁⟩, htake, hr⟩ := hr
      obtain ⟨hk, hkle, -⟩ := StdMap.floor?_eq_some.1 hfloor
      simp only at hk hkle htake hr
      have hbase := hwf.key k a hk
      have hbounds := hwf.bounds k a hk
      have hhi := hwf.hi_lt
      have hstart : max cur a.base = cur := by omega
      rw [hstart, U64.sub_of_le hcur hle] at htake
      rw [hstart] at hr
      generalize hsz : min (U64.sub a.size (cur - a.base)) remaining = sz at htake hr
      have hpos : 0 < sz := by
        by_contra hzero
        have hsub : U64.sub a.size (cur - a.base) = 0 :=
          (Nat.min_eq_zero_iff.1 (hsz.trans (Nat.eq_zero_of_not_pos hzero))).resolve_right hrest
        have hends := U64.eq_of_sub_eq_zero (by omega) (by omega) hsub
        have hstuck : Stuck map cur := ⟨hwf.key, k, a, hfloor, by omega⟩
        exact hstuck.takeDirectLoop_ne_ok hcur (Nat.pos_of_ne_zero hrest) hrun
      obtain ⟨hwf₁, hback₁, hbytes, ⟨b, hc⟩, hareas, -⟩ :=
        takePiece_eq_ok hwf hback hpos (by omega) relabels_mapped htake
      have hcfits := hc.fits
      have hcle := hc.le
      have hcbounds := hwf.bounds _ b hc.mem
      have hnext : U64.add cur sz = cur + sz := U64.add_of_lt (by omega)
      rw [hnext] at hr
      obtain ⟨hwf', hback', hbytes', hareas', hsome⟩ := ih hwf₁ (by omega)
        (by rwa [Nat.sub_add_comm hle]) (by omega) (by omega) hr
      have hszle : sz ≤ remaining := by omega
      refine ⟨hwf', ?_, ?_, ?_, ?_⟩
      · have : cur + sz - physAddr + (remaining - sz) = cur - physAddr + remaining := by omega
        exact this ▸ hback'
      · rw [hbytes', hbytes, updateOn_updateOn (PhysByte.withDmaType_withDmaType _),
          Set.Ico_union_Ico_eq_Ico (by omega) (by omega)]
        congr 2
        omega
      · intro o
        rw [hareas', hareas, hbytes]
        by_cases ho : cur - physAddr ≤ o ∧ o < cur - physAddr + remaining
        · rw [if_pos ho]
          by_cases hos : o < cur - physAddr + sz
          · rw [if_neg (by omega), if_pos ⟨ho.1, hos⟩]
            congr 2
            omega
          · rw [if_pos (by omega), updateOn_of_notMem (by rw [Set.mem_Ico]; omega)]
        · rw [if_neg ho, if_neg (by omega), if_neg (by omega)]
      · intro q hq
        rw [Set.mem_Ico] at hq
        by_cases hqs : q < cur + sz
        · rw [hc.at? hwf hq.1 hqs]
          rfl
        · have := hsome q (by rw [Set.mem_Ico]; omega)
          rwa [hbytes, isSome_updateOn] at this

/-- Taking a range of direct memory. -/
theorem takeDirect_eq_ok {physAddr : Nat} (hwf : map.WF x) (hphys : physAddr < 2 ^ 64)
    (hsize : size < 2 ^ 64) (hr : takeDirect map physAddr size = .ok (map', areas)) :
    map'.WF x ∧ areas.Backs size ∧
      map'.at? =
        updateOn (Set.Ico physAddr (physAddr + size)) (PhysByte.withDmaType .mapped) map.at? ∧
      (∀ o, o < size →
        areas.at? o = (map.at? (physAddr + o)).map (PhysByte.withDmaType .mapped)) ∧
      ∀ q ∈ Set.Ico physAddr (physAddr + size), (map.at? q).isSome := by
  have hback : (∅ : PhysMap).Backs (physAddr - physAddr) := Nat.sub_self physAddr ▸ backs_empty
  obtain ⟨hwf', hback', hbytes, hareas, hsome⟩ :=
    takeDirectLoop_eq_ok hwf (Nat.le_refl _) hback hphys hsize hr
  rw [Nat.sub_self, Nat.zero_add] at hback'
  refine ⟨hwf', hback', hbytes, fun o ho => ?_, hsome⟩
  rw [hareas, if_pos (by omega)]

end PhysMap

end Core
