-- SUMMARY: When a commit of pooled memory does what it says: the range that is checked, the one that is recorded and the one the host maps.
import W7PS4.Memory.AddressSearch
import W7PS4.Memory.Capacity
import W7PS4.Memory.FirstFit
import W7PS4.Memory.PoolAccount

/-!
# Committing pooled memory

`PoolCommit` takes the pooled memory piece by piece, lowest address first, and has
the host map each piece. What it checks and what the host maps begins at the aligned
address; the area it records begins at the given one. The budget is compared with
`<=`, so the whole of it can never be committed.
-/

section Align

variable {value size : Nat}

theorem alignUp_of_dvd (h : size ∣ value) : alignUp value size = value := by
  simp only [alignUp]
  rw [if_pos (Nat.mod_eq_zero_of_dvd h), Nat.mod_eq_zero_of_dvd h]
  omega

end Align

namespace Core

/-- A call `impl.Map(virtual_addr, size, phys_addr)`. -/
structure HostMapping where
  virtualAddr : Nat
  size : Nat
  physAddr : Nat
deriving DecidableEq, Repr

/-- The addresses that are mapped. -/
def HostMapping.range (call : HostMapping) : Set Nat :=
  Set.Ico call.virtualAddr (call.virtualAddr + call.size)

/-! ## The loop and its calls -/

namespace PhysMap

/-- The loop of `PoolCommit`, with the calls it makes of the host. `f` is the change
    to each piece. -/
def poolCommitLoop (f : PhysicalMemoryArea → PhysicalMemoryArea) (mappedAddr : Nat) :
    Nat → PhysMap → Option Nat → PhysMap → Nat → Nat →
      Outcome ((PhysMap × PhysMap × Nat) × List HostMapping)
  | 0, _, _, _, _, _ => throw .diverges
  | _ + 1, map, none, areas, _, remainingSize => return ((map, areas, remainingSize), [])
  | fuel + 1, map, some handle, areas, offset, remainingSize => do
    if remainingSize = 0 then
      return ((map, areas, remainingSize), [])
    let area ← deref (map.find? handle)
    if area.dmaType ≠ .pooled then
      poolCommitLoop f mappedAddr fuel map ((map.next? handle).map Prod.fst) areas offset
        remainingSize
    else
      let sizeToMap := min remainingSize area.size
      let (map, areas, handle) ← takePiece f map areas area.base sizeToMap offset
      let (result, calls) ← poolCommitLoop f mappedAddr fuel map ((map.next? handle).map Prod.fst)
        areas (offset + sizeToMap) (remainingSize - sizeToMap)
      return (result, ⟨U64.add mappedAddr offset, sizeToMap, area.base⟩ :: calls)

variable {x : Extent} {map map' areas areas' : PhysMap} {mappedAddr hi lo o : Nat}
  {calls : List HostMapping} {call : HostMapping}
  {f : PhysicalMemoryArea → PhysicalMemoryArea} {g : PhysByte → PhysByte}

/-- Apart from the calls, it is the loop that takes pooled memory. -/
theorem fst_poolCommitLoop (mappedAddr : Nat) {fuel : Nat} {handle : Option Nat} {offset remaining : Nat} :
    Prod.fst <$> poolCommitLoop f mappedAddr fuel map handle areas offset remaining =
      takeBackingLoop .pooled f fuel map handle areas offset remaining := by
  induction fuel generalizing map handle areas offset remaining with
  | zero => rfl
  | succ fuel ih =>
    cases handle with
    | none => rfl
    | some k =>
      simp only [poolCommitLoop, takeBackingLoop]
      split
      · rfl
      rw [map_bind]
      congr 1
      funext area
      split
      · exact ih
      rw [map_bind]
      congr 1
      funext r
      rw [map_bind, ← ih]
      rfl

/-- The calls map the offsets `[lo, hi)` of a backing one after the other, each to the
    physical bytes the backing has there. -/
inductive Lays (mappedAddr : Nat) (areas : PhysMap) (hi : Nat) : Nat → List HostMapping → Prop
    where
  | nil : Lays mappedAddr areas hi hi []
  | cons {lo : Nat} {call : HostMapping} {calls : List HostMapping}
      (start : call.virtualAddr = U64.add mappedAddr lo)
      (backs : ∀ i, i < call.size → ∃ b, areas.at? (lo + i) = some b ∧ b.addr = call.physAddr + i)
      (rest : Lays mappedAddr areas hi (lo + call.size) calls) :
      Lays mappedAddr areas hi lo (call :: calls)

theorem Lays.le (h : Lays mappedAddr areas hi lo calls) : lo ≤ hi := by
  induction h with
  | nil => exact le_rfl
  | cons _ _ _ ih => omega

/-- Where a call lies. -/
theorem Lays.of_mem (h : Lays mappedAddr areas hi lo calls) (hmem : call ∈ calls) :
    ∃ j, lo ≤ j ∧ j + call.size ≤ hi ∧ call.virtualAddr = U64.add mappedAddr j ∧
      ∀ i, i < call.size → ∃ b, areas.at? (j + i) = some b ∧ b.addr = call.physAddr + i := by
  induction h with
  | nil => cases hmem
  | @cons lo c calls start backs rest ih =>
    rcases List.mem_cons.1 hmem with rfl | hmem
    · exact ⟨lo, le_rfl, rest.le, start, backs⟩
    · obtain ⟨j, hj, hcall⟩ := ih hmem
      exact ⟨j, by omega, hcall⟩

/-- Every offset is mapped. -/
theorem Lays.exists_call (h : Lays mappedAddr areas hi lo calls) (hlo : lo ≤ o) (hhi : o < hi) :
    ∃ call ∈ calls, ∃ j, lo ≤ j ∧ j ≤ o ∧ o < j + call.size ∧
      call.virtualAddr = U64.add mappedAddr j := by
  induction h with
  | nil => omega
  | @cons lo c calls start _ rest ih =>
    by_cases hlt : o < lo + c.size
    · exact ⟨c, List.mem_cons_self, lo, le_rfl, hlo, hlt, start⟩
    · obtain ⟨call, hmem, j, hj, hcall⟩ := ih (by omega)
      exact ⟨call, List.mem_cons_of_mem _ hmem, j, by omega, hcall⟩

/-- The loop leaves what is already in the backing and has the host map what it adds.
    The induction is on the fuel. -/
theorem poolCommitLoop_eq_ok {fuel offset remaining left : Nat} {handle : Option Nat}
    (hwf : map.WF x) (hback : areas.Backs offset) (hg : Claims .pooled f g)
    (hrem : remaining < 2 ^ 64)
    (hr : poolCommitLoop f mappedAddr fuel map handle areas offset remaining =
      .ok ((map', areas', left), calls)) :
    left ≤ remaining ∧ (∀ o, o < offset → areas'.at? o = areas.at? o) ∧
      Lays mappedAddr areas' (offset + (remaining - left)) offset calls := by
  induction fuel generalizing map handle areas offset remaining calls with
  | zero => cases hr
  | succ fuel ih =>
    have hstop : poolCommitLoop f mappedAddr (fuel + 1) map handle areas offset remaining =
        .ok ((map, areas, remaining), []) → left ≤ remaining ∧
          (∀ o, o < offset → areas'.at? o = areas.at? o) ∧
          Lays mappedAddr areas' (offset + (remaining - left)) offset calls := by
      intro hend
      rw [hend] at hr
      cases hr
      refine ⟨le_rfl, fun _ _ => rfl, ?_⟩
      rw [Nat.sub_self, Nat.add_zero]
      exact .nil
    cases handle with
    | none => exact hstop rfl
    | some k =>
      by_cases hzero : remaining = 0
      · refine hstop ?_
        simp only [poolCommitLoop]
        rw [if_pos hzero]
        rfl
      · simp only [poolCommitLoop] at hr
        rw [if_neg hzero] at hr
        simp only [Outcome.bind_eq_ok, deref_eq_ok] at hr
        obtain ⟨a, hk, hr⟩ := hr
        split at hr
        · exact ih hwf hback hrem hr
        rename_i hpooled
        simp only [ne_eq, Decidable.not_not] at hpooled
        simp only [Outcome.bind_eq_ok, Outcome.pure_eq_ok, Prod.mk.injEq] at hr
        obtain ⟨⟨map₁, areas₁, h₁⟩, htake, ⟨result, rest⟩, hrest, rfl, rfl⟩ := hr
        simp only at hrest
        have hpos := hwf.pos k a hk (.inl (by rw [hpooled]; decide))
        generalize hn : min remaining a.size = n at htake hrest
        obtain ⟨hwf₁, hback₁, -, ⟨b, hc⟩, hareas, -⟩ :=
          takePiece_eq_ok hwf hback (by omega) (by omega) hg.toRelabels htake
        obtain ⟨hleft, hframe, hlays⟩ := ih hwf₁ hback₁ (by omega) hrest
        refine ⟨by omega, fun o ho => ?_, .cons rfl ?_ ?_⟩
        · rw [hframe o (by omega), hareas o, if_neg (by omega)]
        · intro i hi
          simp only at hi
          rw [hframe (offset + i) (by omega), hareas (offset + i), if_pos (by omega),
            Nat.add_sub_cancel_left, hc.at? hwf (by omega) (by omega)]
          exact ⟨_, rfl, hg.addr _⟩
        · have hsum : offset + n + (remaining - n - left) = offset + (remaining - left) := by omega
          exact hsum ▸ hlays

/-- A walk over a map that has enough memory of the type it is for finds all it needs. -/
theorem takeBacking_of_le_ncard {wanted : PhysicalMemoryType} {n : Nat} (hwf : map.WF x)
    (hg : Claims wanted f g) (hw : wanted ≠ .free ∨ x.shrinks = false) (hn : n < 2 ^ 64)
    (hle : n ≤ {q | ∃ b, map.at? q = some b ∧ b.dmaType = wanted}.ncard) :
    ∃ map' areas, takeBacking wanted f map n = .ok (map', areas, 0) := by
  obtain ⟨⟨map', areas, left⟩, htake⟩ := takeBacking_total hwf hg.toRelabels hw hn
  obtain ⟨-, hleft, ht, hdone⟩ := takeBacking_eq_ok hwf hg hw hn htake
  obtain ⟨y, -, -, hinj, hbytes⟩ := MemoryManager.exists_bytes_of_takes ht hg.addr
  have hfin : {q | ∃ o < n - left, (y o).addr = q}.Finite :=
    (Set.finite_Iio (n - left)).image (fun o => (y o).addr)
  have hzero : left = 0 := by
    rcases hdone with hzero | hnone
    · exact hzero
    · -- the walk ended because nothing was left, so it took all there was
      have hsub : {q | ∃ b, map.at? q = some b ∧ b.dmaType = wanted} ⊆
          {q | ∃ o < n - left, (y o).addr = q} := by
        rintro q ⟨b, hb, hbt⟩
        by_contra hno
        exact hnone q b (by rw [hbytes, updateOn_of_notMem hno]; exact hb) hbt
      have hcard := Set.ncard_le_ncard hsub hfin
      rw [StdMap.ncard_values hinj] at hcard
      omega
  exact ⟨map', areas, hzero ▸ htake⟩

end PhysMap

namespace MemoryManager

variable {env : Environment} {s s' : MemoryManager} {addr size : Nat} {prot : MemoryProt}
  {mt : Int} {calls : List HostMapping} {x : VirtByte} {y : Nat → PhysByte} {areas : PhysMap}

/-! ## What a commit should do -/

/-- The calls `PoolCommit` makes of the host once its checks are passed. -/
def poolCommitCalls (s : MemoryManager) (virtualAddr size : Nat) (mtype : Int) :
    Outcome (List HostMapping) :=
  Prod.snd <$> PhysMap.poolCommitLoop
    (fun area => { area with dmaType := .committed, memoryType := mtype })
    (alignUp virtualAddr 0x10000) (s.dmemMap.entries.length + 2) s.dmemMap
    (s.dmemMap.first?.map Prod.fst) ∅ 0 size

/-- The range from the next multiple of 64 KiB on lies in one area reserved for a pool. -/
def CommitTarget (s : MemoryManager) (virtualAddr size : Nat) : Prop :=
  ∃ a k v, IsLeast {a | 0x10000 ∣ a ∧ virtualAddr ≤ a} a ∧ s.vmaMap.find? k = some v ∧
    v.type = .poolReserved ∧ k ≤ a ∧ a + size ≤ k + v.size

/-- The byte at `p` is pooled in `s'` and was not in `s`. -/
def NewlyPooled (s s' : MemoryManager) (p : Nat) : Prop :=
  (∃ x, s'.view.virt p = some x ∧ x.type = .pooled) ∧
    ¬∃ x, s.view.virt p = some x ∧ x.type = .pooled

/-- The bytes that became pooled are those the calls map. Each is backed by the physical byte
    the call maps it to, which was pooled and is committed, and no two share one. -/
structure CommitsExactly (s s' : MemoryManager) (calls : List HostMapping) : Prop where
  pooled : ∀ p, s.NewlyPooled s' p ↔ ∃ call ∈ calls, p ∈ call.range
  backed : ∀ call ∈ calls, ∀ i, i < call.size →
    s'.view.Maps .pooled (call.virtualAddr + i) (call.physAddr + i) ∧
      s.view.dma (call.physAddr + i) = some .pooled ∧
      s'.view.dma (call.physAddr + i) = some .committed
  distinct : ∀ call ∈ calls, ∀ call' ∈ calls, ∀ i i', i < call.size → i' < call'.size →
    call.physAddr + i = call'.physAddr + i' → call.virtualAddr + i = call'.virtualAddr + i'

/-- The commit succeeds when its target is reserved for a pool and within the budget, and
    otherwise not, and then records what it maps. -/
def CommitConsistent (s : MemoryManager) (virtualAddr size : Nat) (prot : MemoryProt)
    (mtype : Int) : Prop :=
  ((∃ s', s.poolCommit virtualAddr size prot mtype = .ok (s', .ok ())) ↔
      s.CommitTarget virtualAddr size ∧ size ≤ s.poolBudget) ∧
    ∀ s', s.poolCommit virtualAddr size prot mtype = .ok (s', .ok ()) →
      ∃ calls, s.poolCommitCalls virtualAddr size mtype = .ok calls ∧ s.CommitsExactly s' calls

/-! ## The calls of a commit -/

theorem poolCommitCalls_eq_ok (addr : Nat) (h : s.Valid env) (hsize : size < 2 ^ 64) {dmem : PhysMap}
    (htake : PhysMap.takeBacking .pooled
      (fun area => { area with dmaType := .committed, memoryType := mt }) s.dmemMap size =
        .ok (dmem, areas, 0)) :
    ∃ calls, s.poolCommitCalls addr size mt = .ok calls ∧
      PhysMap.Lays (alignUp addr 0x10000) areas size 0 calls := by
  rw [PhysMap.takeBacking, ← PhysMap.fst_poolCommitLoop (alignUp addr 0x10000),
    Outcome.map_eq_ok] at htake
  obtain ⟨⟨result, calls⟩, hloop, hresult⟩ := htake
  simp only at hresult
  subst hresult
  obtain ⟨-, -, hlays⟩ :=
    PhysMap.poolCommitLoop_eq_ok h.dmem PhysMap.backs_empty (claims_committed mt) hsize hloop
  rw [Nat.zero_add, Nat.sub_zero] at hlays
  exact ⟨calls, by rw [poolCommitCalls, hloop]; rfl, hlays⟩

/-- A commit to an aligned address records what it has the host map. -/
theorem Commits.exactly (h : Commits env addr size x y mt s s') (hend : addr + size < 2 ^ 64)
    (hread : ∀ o, o < size → areas.at? o = some (y o))
    (hlays : PhysMap.Lays addr areas size 0 calls) : s.CommitsExactly s' calls := by
  have hvirt : ∀ p, s'.view.virt p = if addr ≤ p ∧ p < addr + size then
      some { x with backing := some (y (p - addr)) } else s.view.virt p := by
    intro p
    rw [h.view, Memory.virt_commit, Memory.virt_place]
  -- where a call lies, and what is behind it
  have hcall : ∀ call ∈ calls, ∃ j, j + call.size ≤ size ∧ call.virtualAddr = addr + j ∧
      ∀ i, i < call.size → (y (j + i)).addr = call.physAddr + i := by
    intro call hmem
    obtain ⟨j, -, hj, hstart, hbacks⟩ := hlays.of_mem hmem
    refine ⟨j, hj, by rw [hstart, U64.add_of_lt (by omega)], fun i hi => ?_⟩
    obtain ⟨b, hb, hba⟩ := hbacks i hi
    rw [hread (j + i) (by omega)] at hb
    cases hb
    exact hba
  have hpooled : ∀ p, s.NewlyPooled s' p ↔ addr ≤ p ∧ p < addr + size := by
    intro p
    by_cases hp : addr ≤ p ∧ p < addr + size
    · refine iff_of_true ⟨⟨_, (hvirt p).trans (if_pos hp), h.type⟩, ?_⟩ hp
      rintro ⟨z, hz, hzt⟩
      obtain ⟨z', hz', hzt'⟩ := h.reserved p (Set.mem_Ico.2 hp)
      rw [hz] at hz'
      cases hz'
      rw [hzt] at hzt'
      cases hzt'
    · refine iff_of_false ?_ hp
      rintro ⟨⟨z, hz, hzt⟩, hold⟩
      rw [hvirt p, if_neg hp] at hz
      exact hold ⟨z, hz, hzt⟩
  refine ⟨fun p => (hpooled p).trans ⟨fun hp => ?_, ?_⟩, ?_, ?_⟩
  · obtain ⟨call, hmem, j, -, hj, hlt, hstart⟩ :=
      hlays.exists_call (o := p - addr) (Nat.zero_le _) (by omega)
    rw [U64.add_of_lt (by omega)] at hstart
    exact ⟨call, hmem, Set.mem_Ico.2 (by omega)⟩
  · rintro ⟨call, hmem, hp⟩
    obtain ⟨j, hj, hstart, -⟩ := hcall call hmem
    rw [HostMapping.range, Set.mem_Ico] at hp
    omega
  · intro call hmem i hi
    obtain ⟨j, hj, hstart, hbacks⟩ := hcall call hmem
    obtain ⟨b, hb, hbt, -⟩ := h.taken (j + i) (by omega)
    rw [hbacks i hi] at hb
    have hpool : s.view.dma (call.physAddr + i) = some .pooled := Memory.dma_eq_some.2 ⟨b, hb, hbt⟩
    refine ⟨?_, hpool, ?_⟩
    · rw [h.view, Memory.maps_commit]
      have hoff : call.virtualAddr + i - addr = j + i := by omega
      exact .inl ⟨by omega, h.type, by rw [hoff]; exact hbacks i hi⟩
    · rw [h.view, Memory.dma_commit]
      exact .inl ⟨⟨j + i, by omega, hbacks i hi⟩, by rw [hpool]; rfl, rfl⟩
  · intro call hmem call' hmem' i i' hi hi' heq
    obtain ⟨j, hj, hstart, hbacks⟩ := hcall call hmem
    obtain ⟨j', hj', hstart', hbacks'⟩ := hcall call' hmem'
    have := h.inj (j + i) (j' + i') (by omega) (by omega)
      (by rw [hbacks i hi, hbacks' i' hi', heq])
    omega

/-! ## When a commit succeeds -/

/-- The checks a commit has passed. -/
theorem poolCommit_checks (hr : s.poolCommit addr size prot mt = .ok (s', .ok ())) :
    ∃ k v, s.vmaMap.floor? (alignUp addr 0x10000) = some (k, v) ∧ v.type = .poolReserved ∧
      v.contains (alignUp addr 0x10000) size := by
  simp only [poolCommit, VMAMap.findVMA, Outcome.bind_eq_ok, deref_eq_ok] at hr
  obtain ⟨_, -, -, -, ⟨k, v⟩, hfloor, hr⟩ := hr
  simp only at hr
  split at hr
  · cases hr
  rename_i htype
  split at hr
  · cases hr
  · rename_i hcontains
    exact ⟨k, v, hfloor, by simpa using htype, by simpa using hcontains⟩

/-- What the target of a commit says about addresses: nothing wraps, and the target begins
    where the code aligns the address to. -/
theorem CommitTarget.bounds (h : s.Valid env) (ht : s.CommitTarget addr size) :
    addr ≤ alignUp addr 0x10000 ∧ 0x10000 ∣ alignUp addr 0x10000 ∧
      ∃ k v, s.vmaMap.find? k = some v ∧ v.type = .poolReserved ∧ k ≤ alignUp addr 0x10000 ∧
        alignUp addr 0x10000 + size ≤ k + v.size ∧ k + v.size < 2 ^ 63 := by
  obtain ⟨a, k, v, hleast, hk, hvt, hle, hfits⟩ := ht
  have hend := h.end_lt_half hk
  have hup : IsLeast {x | 0x10000 ∣ x ∧ addr ≤ x} (alignUp addr 0x10000) :=
    alignUp_isLeast (by decide) (by decide) (by have := hleast.1.2; omega)
  rw [hleast.unique hup] at hle hfits
  exact ⟨hup.1.2, hup.1.1, k, v, hk, hvt, hle, hfits, hend⟩

/-- A commit that succeeds has its target in a reserved area, less than the budget to take,
    and as many pooled bytes as it needs. -/
theorem target_of_poolCommit (h : s.Valid env) (hpos : 0 < size)
    (hcommits : Commits env addr size x y mt s s')
    (hr : s.poolCommit addr size prot mt = .ok (s', .ok ())) :
    s.CommitTarget addr size ∧ size < s.poolBudget ∧ size ≤ (s.view.labelled .pooled).ncard := by
  obtain ⟨k, v, hfloor, hvt, hcontains⟩ := poolCommit_checks hr
  obtain ⟨z, hz, -⟩ := hcommits.reserved addr (Set.mem_Ico.2 ⟨le_rfl, by omega⟩)
  obtain ⟨j, w, hj, hjle, hjlt, -⟩ := StdMap.exists_of_at? hz
  have hjend := h.end_lt_half hj
  simp only [VirtualMemoryArea.area_size] at hjlt
  obtain ⟨hk, hkle, -⟩ := StdMap.floor?_eq_some.1 hfloor
  have hend := h.end_lt_half hk
  have hbase := h.vma.key k v hk
  have hup : IsLeast {x | 0x10000 ∣ x ∧ addr ≤ x} (alignUp addr 0x10000) :=
    alignUp_isLeast (by decide) (by decide) (by omega)
  have hsize : size < 2 ^ 63 := by
    obtain ⟨z, hz, -⟩ := hcommits.reserved (addr + (size - 1)) (Set.mem_Ico.2 ⟨by omega, by omega⟩)
    obtain ⟨i, b, hi, -, hilt, -⟩ := StdMap.exists_of_at? hz
    have := h.end_lt_half hi
    simp only [VirtualMemoryArea.area_size] at hilt
    omega
  have hlow : alignUp addr 0x10000 ≤ 2 ^ 63 := hup.2 ⟨by decide, by omega⟩
  simp only [VirtualMemoryArea.contains, Bool.and_eq_true, decide_eq_true_eq] at hcontains
  rw [U64.add_of_lt (by omega)] at hcontains
  refine ⟨⟨_, k, v, hup, hk, hvt, by omega, by omega⟩, hcommits.budget, ?_⟩
  have hsub : {q | ∃ o < size, (y o).addr = q} ⊆ s.view.labelled .pooled := by
    rintro q ⟨o, ho, rfl⟩
    obtain ⟨b, hb, hbt, -⟩ := hcommits.taken o ho
    exact Memory.dma_eq_some.2 ⟨b, hb, hbt⟩
  have hcard := Set.ncard_le_ncard hsub (finite_labelled s .pooled)
  rwa [StdMap.ncard_values hcommits.inj] at hcard

/-- A commit to an aligned address succeeds when less than the budget is asked for and there is
    as much pooled memory. -/
theorem poolCommit_of_target (h : s.Valid env) (hpos : 0 < size) (hsize : size < 2 ^ 64)
    (ht : s.CommitTarget addr size) (halign : 0x10000 ∣ addr) (hbudget : size < s.poolBudget)
    (hcount : size ≤ (s.view.labelled .pooled).ncard) :
    ∃ s', s.poolCommit addr size prot mt = .ok (s', .ok ()) := by
  obtain ⟨hup, -, k, v, hk, hvt, hle, hfits, hend⟩ := ht.bounds h
  have hsame := alignUp_of_dvd halign
  rw [hsame] at hle hfits
  have hbase := h.vma.key k v hk
  have hfloor : s.vmaMap.floor? addr = some (k, v) := StdMap.floor?_of_mem h.vma.separated hk hle
    (by simp only [VirtualMemoryArea.area_size]; omega)
  have hvalid : isValidMapping s.vmaMap addr size = .ok true := by
    refine (isValidMapping_of_find? h.vma.regions hk hle (by omega) hpos).2
      (h.vma.regions.covers_iff.2 fun p hp => ?_)
    rw [Set.mem_Ico] at hp
    exact h.vma.regions.isSome_at?_iff.2 ⟨k, v, hk, by omega, by omega⟩
  have hcontains : v.contains addr size := by
    simp only [VirtualMemoryArea.contains, Bool.and_eq_true, decide_eq_true_eq]
    rw [U64.add_of_lt (by omega)]
    omega
  obtain ⟨r, hcarve⟩ := h.vma.exists_carveVMA hk hle hfits hpos
  rw [labelled_eq] at hcount
  obtain ⟨dmem, areas, htake⟩ := PhysMap.takeBacking_of_le_ncard h.dmem (claims_committed mt)
    (.inl (by decide)) hsize hcount
  refine ⟨{ s with
    dmemMap := dmem, poolBudget := s.poolBudget - size,
    vmaMap := (VMAMap.mergeAdjacent (r.1.modify r.2 (markPooled prot areas)) r.2).1 }, ?_⟩
  simp only [poolCommit, VMAMap.findVMA, Outcome.bind_eq_ok, deref_eq_ok, assertMsg_eq_ok, hsame]
  refine ⟨true, hvalid, (), rfl, (k, v), hfloor, ?_⟩
  simp only
  rw [if_neg (by simp [hvt]), if_neg (by simp [hcontains]), if_neg (by omega)]
  simp only [Outcome.bind_eq_ok, assertMsg_eq_ok]
  exact ⟨r, hcarve, (dmem, areas, 0), htake, (), by simp, rfl⟩

/-- A commit that maps what it records was asked for at an aligned address: otherwise its first
    byte lies before all that is mapped. -/
theorem CommitsExactly.dvd (h : s.Valid env) (ht : s.CommitTarget addr size) (hpos : 0 < size)
    (hcommits : Commits env addr size x y mt s s') (hexact : s.CommitsExactly s' calls)
    (hlays : PhysMap.Lays (alignUp addr 0x10000) areas size 0 calls) : 0x10000 ∣ addr := by
  obtain ⟨hup, hdvd, k, v, hk, -, -, hfits, hend⟩ := ht.bounds h
  have hnew : s.NewlyPooled s' addr := by
    refine ⟨⟨{ x with backing := some (y (addr - addr)) }, ?_, hcommits.type⟩, ?_⟩
    · rw [hcommits.view, Memory.virt_commit, Memory.virt_place, if_pos (by omega)]
    · rintro ⟨z, hz, hzt⟩
      obtain ⟨z', hz', hzt'⟩ := hcommits.reserved addr (Set.mem_Ico.2 ⟨le_rfl, by omega⟩)
      rw [hz] at hz'
      cases hz'
      rw [hzt] at hzt'
      cases hzt'
  obtain ⟨call, hmem, hrange⟩ := (hexact.pooled addr).1 hnew
  obtain ⟨j, -, hj, hstart, -⟩ := hlays.of_mem hmem
  rw [HostMapping.range, Set.mem_Ico, hstart, U64.add_of_lt (by omega)] at hrange
  have hsame : alignUp addr 0x10000 = addr := by omega
  exact hsame ▸ hdvd

/-! ## Commits of reachable states -/

/-- `PoolCommit` does what its checks are for exactly when a range that is reserved and within the
    budget starts at a multiple of 64 KiB, is not the whole budget, and has as much pooled memory. -/
theorem poolCommit_consistent_iff {virtualAddr len : UInt64} (h : Reachable env anyCall s)
    (hop : (Op.poolCommit virtualAddr len prot mt).Issued) :
    s.CommitConsistent virtualAddr.toNat len.toNat prot mt ↔
      (s.CommitTarget virtualAddr.toNat len.toNat → len.toNat ≤ s.poolBudget →
        0x10000 ∣ virtualAddr.toNat ∧ len.toNat ≠ s.poolBudget ∧
          len.toNat ≤ (s.view.labelled .pooled).ncard) := by
  obtain ⟨-, hlen, hmod, -⟩ := hop
  have hpos : 0 < len.toNat := hlen
  have hv := h.valid
  -- what a commit that succeeds has done
  have hsucc : ∀ s', s.poolCommit virtualAddr.toNat len.toNat prot mt = .ok (s', .ok ()) →
      ∃ x y dmem areas, Commits env virtualAddr.toNat len.toNat x y mt s s' ∧
        PhysMap.takeBacking .pooled
          (fun area => { area with dmaType := .committed, memoryType := mt }) s.dmemMap len.toNat =
            .ok (dmem, areas, 0) ∧ ∀ o, o < len.toNat → areas.at? o = some (y o) := by
    intro s' hr
    rcases poolCommit_eq_ok hv virtualAddr.toNat_lt len.toNat_lt (by omega) hr with
      ⟨e, he, -⟩ | ⟨-, x, y, hcommits, dmem, areas, htake, hread⟩
    · cases he
    · exact ⟨x, y, dmem, areas, hcommits, htake, hread⟩
  constructor
  · rintro ⟨hiff, hexact⟩ ht hbudget
    obtain ⟨s', hr⟩ := hiff.2 ⟨ht, hbudget⟩
    obtain ⟨x, y, dmem, areas, hcommits, htake, -⟩ := hsucc s' hr
    obtain ⟨-, hlt, hcount⟩ := target_of_poolCommit hv hpos hcommits hr
    obtain ⟨calls, hcalls, hex⟩ := hexact s' hr
    obtain ⟨calls', hcalls', hlays⟩ := poolCommitCalls_eq_ok virtualAddr.toNat hv
      len.toNat_lt htake
    rw [hcalls] at hcalls'
    cases hcalls'
    exact ⟨hex.dvd hv ht hpos hcommits hlays, by omega, hcount⟩
  · intro hcond
    refine ⟨⟨?_, ?_⟩, ?_⟩
    · rintro ⟨s', hr⟩
      obtain ⟨x, y, dmem, areas, hcommits, -⟩ := hsucc s' hr
      obtain ⟨ht, hlt, -⟩ := target_of_poolCommit hv hpos hcommits hr
      exact ⟨ht, by omega⟩
    · rintro ⟨ht, hbudget⟩
      obtain ⟨halign, hne, hcount⟩ := hcond ht hbudget
      exact poolCommit_of_target hv hpos len.toNat_lt ht halign (by omega) hcount
    · intro s' hr
      obtain ⟨x, y, dmem, areas, hcommits, htake, hread⟩ := hsucc s' hr
      obtain ⟨ht, hlt, -⟩ := target_of_poolCommit hv hpos hcommits hr
      obtain ⟨halign, -, -⟩ := hcond ht (by omega)
      obtain ⟨calls, hcalls, hlays⟩ := poolCommitCalls_eq_ok virtualAddr.toNat hv
        len.toNat_lt htake
      obtain ⟨hup, -, k, v, hk, -, -, hfits, hend⟩ := ht.bounds hv
      rw [alignUp_of_dvd halign] at hlays
      exact ⟨calls, hcalls, hcommits.exactly (by omega) hread hlays⟩

/-- A pool of 256 KiB and a reserved range for it. -/
def poolOfFourBlocks : List Op :=
  [.poolExpand 0 0x100000000 0x40000 0,
   .mapMemory 0x200000000 0x40000 .noAccess .fixed .poolReserved "pool" false (-1) 0]

theorem poolCommit_consistent_block : ∃ s, run .retail (init .retail) poolOfFourBlocks = .ok s ∧
    s.CommitConsistent (UInt64.toNat 0x200010000) (UInt64.toNat 0x20000) .cpuReadWrite 0 := by
  obtain ⟨s, hs, hreach, ht⟩ := exists_reachable .retail poolOfFourBlocks
    (fun s => decide (s.poolBudget = 0x40000) &&
      decide ((s.dmemMap.sum fun d => if d.dmaType = .pooled then d.size else 0) = 0x40000))
    (by decide) (by with_unfolding_all decide)
  simp only [Bool.and_eq_true, decide_eq_true_eq] at ht
  refine ⟨s, hs, (poolCommit_consistent_iff hreach (by decide)).2 fun _ _ => ⟨by decide, ?_, ?_⟩⟩
  · rw [ht.1]
    decide
  · rw [ncard_labelled hreach.valid, ht.2]
    decide

/-- A commit of all that is in the pool is refused. -/
theorem not_commitConsistent_wholePool : ∃ s, Reachable .retail anyCall s ∧
    Op.Issued (.poolCommit 0x200000000 0x40000 .cpuReadWrite 0) ∧
    ¬s.CommitConsistent (UInt64.toNat 0x200000000) (UInt64.toNat 0x40000) .cpuReadWrite 0 := by
  obtain ⟨s, -, hreach, ht⟩ := exists_reachable .retail poolOfFourBlocks
    (fun s => decide (s.poolBudget = 0x40000) &&
      ((s.vmaMap.find? 0x200000000).any fun (v : VirtualMemoryArea) =>
        decide (v.type = .poolReserved ∧ v.size = 0x40000)) &&
      ((s.poolCommit 0x200000000 0x40000 .cpuReadWrite 0).toOption.any
        fun (r : MemoryManager × Except OrbisError Unit) => r.2.toOption.isNone))
    (by decide) (by with_unfolding_all decide)
  simp only [Bool.and_eq_true, decide_eq_true_eq, Option.any_eq_true] at ht
  obtain ⟨⟨hbudget, v, hv, hvt, hvsize⟩, ⟨s', r⟩, hr, hnone⟩ := ht
  refine ⟨s, hreach, by decide, fun hcons => ?_⟩
  obtain ⟨s₁, hok⟩ := hcons.1.2 ⟨⟨0x200000000, _, v, ⟨⟨by decide, by decide⟩, fun a ha => ha.2⟩, hv,
    hvt, le_rfl, by rw [hvsize]; decide⟩, by rw [hbudget]; decide⟩
  have hsame : s.poolCommit 0x200000000 0x40000 .cpuReadWrite 0 = .ok (s₁, .ok ()) := hok
  rw [hsame] at hr
  cases hr
  cases hnone

end MemoryManager

end Core
