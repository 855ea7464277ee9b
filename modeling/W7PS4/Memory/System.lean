-- SUMMARY: The constructor and the limits, what every call does to the bytes, and the states runs of calls reach.
import W7PS4.Memory.Attributes
import W7PS4.Memory.Direct
import W7PS4.Memory.Pool

/-!
# Runs of the memory manager

`Effect` lists what a call can do to the bytes of a valid state. It is the only
place where the calls are taken apart: what holds of every reachable state is
proved from it, one case for each effect.
-/

namespace Core

open Outcome (bind_eq_ok pure_eq_ok)

/-! ## The constructor -/

namespace MemoryManager

variable {env : Environment} {s s' : MemoryManager} {k p q : Nat} {v : VirtualMemoryArea}

theorem wf_freeArea {base size : Nat} (h : 0 < size) : (freeArea base size).WF :=
  ⟨h, by simp [freeArea, VMAType.hasPhysicalBacking], fun _ => rfl, fun _ => ⟨rfl, rfl, rfl⟩⟩

theorem wf_init : (init env).vmaMap.WF where
  key := regions_init.key
  separated := regions_init.separated
  entry := by
    intro k v hk
    obtain ⟨r, hr, rfl, rfl⟩ := find?_init.1 hk
    have := env.usable_nonempty r hr
    exact wf_freeArea (by omega)
  end_lt := regions_init.end_lt

theorem virt_init {x : VirtByte} : (init env).view.virt p = some x ↔
    env.Usable p ∧ x = VirtByte.free := by
  refine (StdMap.at?_eq_some wf_init.separated).trans ?_
  constructor
  · rintro ⟨k, v, hk, hle, hlt, rfl⟩
    obtain ⟨r, hr, rfl, rfl⟩ := find?_init.1 hk
    simp only [VirtualMemoryArea.area_size, freeArea] at hlt
    exact ⟨⟨r, hr, hle, by omega⟩, rfl⟩
  · rintro ⟨⟨r, hr, hle, hlt⟩, rfl⟩
    refine ⟨r.1, _, find?_init.2 ⟨r, hr, rfl, rfl⟩, hle, ?_, rfl⟩
    simp only [VirtualMemoryArea.area_size, freeArea]
    omega

theorem coalesced_init : (init env).vmaMap.Coalesced := by
  intro k hk
  obtain ⟨v, hv⟩ := Option.isSome_iff_exists.1 hk
  obtain ⟨r, hr, hrk, rfl⟩ := find?_init.1 hv
  rintro ⟨x, -, hx, -⟩
  obtain ⟨⟨r', hr', hle, hlt⟩, -⟩ := virt_init.1 hx
  have := env.rangesApart.ordered hr' hr (by omega)
  omega

theorem not_maps_init {t : VMAType} : ¬(init env).view.Maps t p q := by
  rintro ⟨x, b, hx, -, hb, -⟩
  obtain ⟨-, rfl⟩ := virt_init.1 hx
  cases hb

/-- A map with one area of free memory. -/
theorem wf_single {x : PhysMap.Extent} (hle : x.lo ≤ x.hi) (hlt : x.hi < 2 ^ 64)
    (hpos : x.shrinks = false → x.lo < x.hi) :
    PhysMap.WF x (StdMap.emplace ∅ x.lo ⟨x.lo, x.hi - x.lo, 0, .free⟩) := by
  have hfind : ∀ k a, (StdMap.emplace ∅ x.lo (⟨x.lo, x.hi - x.lo, 0, .free⟩ :
      PhysicalMemoryArea)).find? k = some a → k = x.lo ∧ a = ⟨x.lo, x.hi - x.lo, 0, .free⟩ := by
    intro k a hk
    rw [StdMap.emplace_of_find?_eq_none StdMap.find?_empty, StdMap.find?_insert] at hk
    split at hk
    · rename_i hkey
      cases hk
      exact ⟨hkey, rfl⟩
    · cases hk
  refine ⟨?_, ?_, ?_, ?_, hlt⟩
  · intro k a hk
    obtain ⟨rfl, rfl⟩ := hfind k a hk
    rfl
  · intro j a k b hj hk hjk
    have := (hfind j a hj).1
    have := (hfind k b hk).1
    omega
  · intro k a hk hfree
    obtain ⟨rfl, rfl⟩ := hfind k a hk
    have := hpos (hfree.resolve_left (by simp))
    simp only
    omega
  · intro k a hk
    obtain ⟨rfl, rfl⟩ := hfind k a hk
    simp only
    omega

theorem at?_single (lo n : Nat) {b : PhysByte}
    (h : (StdMap.emplace ∅ lo (⟨lo, n, 0, .free⟩ : PhysicalMemoryArea)).at? q = some b) :
    b = ⟨q, 0, .free⟩ := by
  obtain ⟨k, a, hk, hle, -, rfl⟩ := StdMap.exists_of_at? h
  rw [StdMap.emplace_of_find?_eq_none StdMap.find?_empty, StdMap.find?_insert] at hk
  split at hk
  · rename_i hkey
    cases hk
    subst hkey
    simp only [PhysicalMemoryArea.area_byte, PhysByte.mk.injEq, and_self, and_true]
    omega
  · cases hk

theorem dmem_init {b : PhysByte} (h : (init env).view.dmem q = some b) : b = ⟨q, 0, .free⟩ :=
  at?_single 0 (constructorTotalSize env) h

theorem fmem_init {b : PhysByte} (h : (init env).view.fmem q = some b) : b = ⟨q, 0, .free⟩ :=
  at?_single (constructorTotalSize env) _ h

theorem sound_init : (init env).view.Sound env where
  usable := by
    intro p
    rw [Option.isSome_iff_exists]
    simp [virt_init]
  refs_lt := by
    rintro p q (h | h)
    · exact absurd h not_maps_init
    · exact absurd h not_maps_init
  flexible := fun p q h => absurd h not_maps_init
  flexible_inj := fun p p' q h => absurd h not_maps_init
  usage_eq := by
    have hempty : (init env).view.flexibleInUse = ∅ := by
      rw [Set.eq_empty_iff_forall_notMem]
      rintro q ⟨b, hb, hne⟩
      exact hne (by rw [fmem_init hb])
    rw [hempty, Set.ncard_empty]
    rfl

theorem Valid.init : (init env).Valid env where
  dmem := wf_single (x := directExtent env) (Nat.zero_le _)
    (Nat.lt_trans (directExtent_hi_lt env) (by decide)) (by simp [directExtent])
  fmem := by
    have hsize : (flexibleExtent env).hi - (flexibleExtent env).lo =
        ORBIS_KERNEL_FLEXIBLE_MEMORY_SIZE + env.extraFmemInMBytes := by
      simp only [flexibleExtent]
      omega
    have hwf := wf_single (x := flexibleExtent env) (by simp [flexibleExtent])
      (Nat.lt_trans (flexibleExtent_hi_lt env) (by decide))
      (by simp [flexibleExtent, ORBIS_KERNEL_FLEXIBLE_MEMORY_SIZE, oneMB])
    rw [hsize] at hwf
    exact hwf
  vma := wf_init
  coalesced := coalesced_init
  sound := sound_init
  usage_le := Nat.zero_le _
  budget_lt := by simp [MemoryManager.init]

/-! ## The limits -/

/-- `SetupMemoryRegions` cuts free bytes off direct memory and keeps the rest. -/
theorem setupMemoryRegions_eq_ok {flexibleSize : Nat} {ext1 ext2 : Bool} (h : s.Valid env)
    (hr : s.setupMemoryRegions env flexibleSize ext1 ext2 = .ok s') :
    s'.Valid env ∧ ∃ R, s'.view = s.view.shrink R ∧
      ∀ q ∈ R, ∀ b, s.view.dmem q = some b → b.dmaType = .free := by
  simp only [setupMemoryRegions, bind_eq_ok, deref_eq_ok, assertMsg_eq_ok,
    Bool.and_eq_true, decide_eq_true_eq, pure_eq_ok] at hr
  obtain ⟨-, husage, ⟨k, a⟩, hfloor, -, ⟨hfree, hfits⟩, rfl⟩ := hr
  have hk := (StdMap.floor?_eq_some.1 hfloor).1
  simp only at hk hfree hfits
  generalize U64.sub s.totalDirectSize _ = cutOff at hfits ⊢
  let a' : PhysicalMemoryArea := { a with size := a.size - cutOff }
  have hmodify : s.dmemMap.modify k (fun area => { area with size := area.size - cutOff }) =
      s.dmemMap.insert k a' := StdMap.modify_of_find?_eq_some hk
  have hle : Area.size a' ≤ Area.size a := by
    simp only [PhysicalMemoryArea.area_size, a']
    omega
  have hwf : PhysMap.WF (directExtent env) (s.dmemMap.insert k a') := by
    refine ⟨?_, h.dmem.separated.insert_of_size_le hk hle, ?_, ?_, h.dmem.hi_lt⟩
    · intro j b hj
      simp only [StdMap.find?_insert] at hj
      split at hj
      · rename_i hjk
        cases hj
        exact (h.dmem.key k a hk).trans hjk.symm
      · exact h.dmem.key j b hj
    · intro j b hj hne
      simp only [StdMap.find?_insert] at hj
      split at hj
      · cases hj
        simp [a', hfree, directExtent] at hne
      · exact h.dmem.pos j b hj hne
    · intro j b hj
      simp only [StdMap.find?_insert] at hj
      split at hj
      · rename_i hjk
        cases hj
        have := h.dmem.bounds k a hk
        simp only [hjk, a']
        omega
      · exact h.dmem.bounds j b hj
  rw [hmodify]
  refine ⟨⟨hwf, h.fmem, h.vma, h.coalesced, h.sound.congr rfl rfl rfl, husage, h.budget_lt⟩,
    {q | k + a'.size ≤ q ∧ q < k + a.size}, ?_, ?_⟩
  · refine Memory.ext rfl ?_ rfl rfl rfl
    funext q
    refine (StdMap.at?_insert_of_size_le h.dmem.separated hk hle fun o _ => rfl).trans ?_
    simp only [Memory.shrink, Set.mem_ofPred_eq, PhysicalMemoryArea.area_size]
    congr
  · rintro q ⟨hge, hlt⟩ b hb
    have hread : s.view.dmem q = some (Area.byte a (q - k)) :=
      StdMap.at?_of_find? h.dmem.separated hk
        (Nat.le_trans (Nat.le_add_right _ _) hge) hlt
    rw [hread] at hb
    cases hb
    exact hfree

/-! ## What a call does -/

/-- Aligning the start of the search of `PoolExpand` does not run past the end of the
    address space. -/
def AlignsUp (searchStart alignment : Nat) : Prop :=
  searchStart ≤ alignUp searchStart (if alignment > 0 then alignment else 0x10000)

/-- What a call with the given reply does to the bytes. -/
inductive Effect (env : Environment) (s s' : MemoryManager) : Op → Reply → Prop where
  /-- Nothing but protections, names and merge flags changes. -/
  | retouched {op : Op} {r : Reply} (same : s.view.SameBacking s'.view) : Effect env s s' op r
  | shrunk {flexibleSize : UInt64} {ext1 ext2 : Bool} {r : Reply} {R : Set Nat}
      (free : ∀ q ∈ R, ∀ b, s.view.dmem q = some b → b.dmaType = .free)
      (view : s'.view = s.view.shrink R) :
      Effect env s s' (.setupMemoryRegions flexibleSize ext1 ext2) r
  | expanded {searchStart searchEnd size alignment : UInt64} {a : Nat}
      (isSome : ∀ q ∈ Set.Ico a (a + size.toNat), (s.view.dmem q).isSome)
      (free : AlignsUp searchStart.toNat alignment.toNat →
        ∀ q ∈ Set.Ico a (a + size.toNat), ∃ b, s.view.dmem q = some b ∧ b.dmaType = .free)
      (view : s'.view = { s.view.relabelDirect (Set.Ico a (a + size.toNat))
        (PhysByte.labelled 3 .pooled) with budget := U64.add s.poolBudget size.toNat }) :
      Effect env s s' (.poolExpand searchStart searchEnd size alignment) (.physical a)
  | allocated {searchStart searchEnd size alignment : UInt64} {mt : Int} {a : Nat}
      (free : ∀ q ∈ Set.Ico a (a + size.toNat), ∃ b, s.view.dmem q = some b ∧ b.dmaType = .free)
      (view : s'.view = s.view.relabelDirect (Set.Ico a (a + size.toNat))
        (PhysByte.labelled mt .allocated)) :
      Effect env s s' (.allocate searchStart searchEnd size alignment mt) (.physical a)
  | freed {physAddr size : UInt64} {checked : Bool} {r : Reply} {U Q : Set Nat}
      (held : Q ⊆ s.view.firstHeld physAddr.toNat size.toNat)
      (direct : ∀ p ∈ U, ∃ q, s.view.Maps .direct p q)
      (unmaps : physAddr.toNat + size.toNat < 2 ^ 64 →
        U = s.freeUnmaps physAddr.toNat size.toNat)
      (view : s'.view = (s.view.unmap U).relabelDirect Q (PhysByte.labelled 0 .free)) :
      Effect env s s' (.free physAddr size checked) r
  | committed {virtualAddr size : UInt64} {prot : MemoryProt} {mt : Int} {r : Reply} {x : VirtByte}
      {y : Nat → PhysByte} (commits : Commits env virtualAddr.toNat size.toNat x y mt s s') :
      Effect env s s' (.poolCommit virtualAddr size prot mt) r
  | decommitted {virtualAddr size : UInt64} {r : Reply}
      (part : ∀ p ∈ Set.Ico virtualAddr.toNat (virtualAddr.toNat + size.toNat), ∀ x,
        s.view.virt p = some x → x.type = .poolReserved ∨ x.type = .pooled ∨
          ∃ v, s.EndsInside (virtualAddr.toNat + size.toNat) v ∧ v.type = x.type)
      (decommits : Decommits env
        (Set.Ico virtualAddr.toNat (virtualAddr.toNat + size.toNat)) s s') :
      Effect env s s' (.poolDecommit virtualAddr size) r
  | mapped {virtualAddr size : UInt64} {prot : MemoryProt} {flags : MemoryMapFlags}
      {type : VMAType} {name : String} {validateDmem : Bool} {physAddr alignment : UInt64} {a : Nat}
      (maps : Maps env (overwritten flags virtualAddr.toNat size.toNat) a size.toNat
        (newByte prot flags type name) physAddr.toNat s s') :
      Effect env s s' (.mapMemory virtualAddr size prot flags type name validateDmem physAddr
        alignment) (.mapped a)
  | mappedFile {virtualAddr size : UInt64} {prot prot' : MemoryProt} {flags : MemoryMapFlags}
      {fd : Int} {file : Option MappableFile} {a : Nat}
      (maps : Maps env (overwritten flags virtualAddr.toNat size.toNat) a size.toNat
        (newByte prot' flags .file "anon") 0 s s') :
      Effect env s s' (.mapFile virtualAddr size prot flags fd file) (.mapped a)
  | unmapped {virtualAddr size : UInt64} {r : Reply}
      (unmaps : Unmaps env (Set.Ico (alignDown virtualAddr.toNat 0x4000)
        (alignDown virtualAddr.toNat 0x4000 + alignUp size.toNat 0x4000)) s s') :
      Effect env s s' (.unmapMemory virtualAddr size) r
  | retyped {addr size : UInt64} {mt : Int} {r : Reply}
      (view : s'.view = s.view.setType (Set.Ico addr.toNat (addr.toNat + size.toNat)) mt) :
      Effect env s s' (.setDirectMemoryType addr size mt) r

theorem Effect.unchanged {op : Op} {r : Reply} (h : s'.view = s.view) : Effect env s s' op r :=
  .retouched (h ▸ .refl _)

/-- Every call that returns leaves a valid state, and has the effect of its kind. -/
theorem step_effect {op : Op} {r : Reply} (h : s.Valid env) (hop : op.Issued)
    (hr : s.step env op = .ok (s', r)) : s'.Valid env ∧ Effect env s s' op r := by
  cases op with
  | setupMemoryRegions flexibleSize ext1 ext2 =>
    simp only [step, bind_eq_ok, pure_eq_ok, Prod.mk.injEq] at hr
    obtain ⟨_, hr, rfl, rfl⟩ := hr
    obtain ⟨hvalid, R, hview, hfree⟩ := setupMemoryRegions_eq_ok h hr
    exact ⟨hvalid, .shrunk hfree hview⟩
  | poolExpand searchStart searchEnd size alignment =>
    simp only [step, bind_eq_ok, pure_eq_ok, Prod.mk.injEq] at hr
    obtain ⟨⟨_, a⟩, hr, rfl, rfl⟩ := hr
    rcases poolExpand_eq_ok h searchStart.toNat_lt alignment.toNat_lt size.toNat_lt hop.2.1 hr with
      ⟨-, rfl⟩ | ⟨-, hvalid, hview, hsome, hfree⟩
    · exact ⟨h, .unchanged rfl⟩
    · exact ⟨hvalid, .expanded hsome hfree hview⟩
  | allocate searchStart searchEnd size alignment mt =>
    simp only [step, bind_eq_ok, pure_eq_ok, Prod.mk.injEq] at hr
    obtain ⟨⟨_, a⟩, hr, rfl, rfl⟩ := hr
    have hstart : searchStart.toNat < 2 ^ 63 := Nat.lt_trans hop.2.1 hop.1
    rcases allocate_eq_ok h hstart alignment.toNat_lt size.toNat_lt hop.2.2.1 hr with
      ⟨-, rfl⟩ | ⟨-, hvalid, hview, hfree⟩
    · exact ⟨h, .unchanged rfl⟩
    · exact ⟨hvalid, .allocated hfree hview⟩
  | free physAddr size checked =>
    simp only [step, bind_eq_ok, pure_eq_ok, Prod.mk.injEq] at hr
    obtain ⟨⟨_, e⟩, hr, rfl, rfl⟩ := hr
    rcases free_eq_ok h physAddr.toNat_lt size.toNat_lt hop.2.1 hr with
      ⟨rfl, -⟩ | ⟨k, a, -, -, -, ⟨rfl, -⟩ | ⟨-, hvalid, -, U, hview, hdirect, hunmaps⟩⟩
    · exact ⟨h, .unchanged rfl⟩
    · exact ⟨h, .unchanged rfl⟩
    · refine ⟨hvalid, .freed subset_rfl (fun p hp => ?_) hunmaps hview⟩
      obtain ⟨q, -, hmaps⟩ := hdirect p hp
      exact ⟨q, hmaps⟩
  | poolCommit virtualAddr size prot mt =>
    simp only [step, bind_eq_ok, pure_eq_ok, Prod.mk.injEq] at hr
    obtain ⟨⟨_, e⟩, hr, rfl, rfl⟩ := hr
    obtain ⟨-, hpos, hmod, -⟩ := hop
    have hmin : 0x10000 ≤ size.toNat := by
      have : 0 < size.toNat := hpos
      omega
    rcases poolCommit_eq_ok h virtualAddr.toNat_lt size.toNat_lt hmin hr with
      ⟨-, -, rfl⟩ | ⟨-, x, y, hcommits, -⟩
    · exact ⟨h, .unchanged rfl⟩
    · exact ⟨hcommits.valid, .committed hcommits⟩
  | mapMemory virtualAddr size prot flags type name validateDmem physAddr alignment =>
    simp only [step, bind_eq_ok, pure_eq_ok, Prod.mk.injEq] at hr
    obtain ⟨⟨_, e⟩, hr, rfl, rfl⟩ := hr
    rcases mapMemory_eq_ok h virtualAddr.toNat_lt size.toNat_lt physAddr.toNat_lt hop.1 hop.2 hr
      with ⟨-, -, rfl⟩ | ⟨a, rfl, hmaps⟩
    · exact ⟨h, .unchanged rfl⟩
    · exact ⟨hmaps.valid, .mapped hmaps⟩
  | mapFile virtualAddr size prot flags fd file =>
    simp only [step, bind_eq_ok, pure_eq_ok, Prod.mk.injEq] at hr
    obtain ⟨⟨_, e⟩, hr, rfl, rfl⟩ := hr
    rcases mapFile_eq_ok h virtualAddr.toNat_lt size.toNat_lt hr with
      ⟨-, -, rfl⟩ | ⟨a, prot', rfl, hmaps⟩
    · exact ⟨h, .unchanged rfl⟩
    · exact ⟨hmaps.valid, .mappedFile hmaps⟩
  | poolDecommit virtualAddr size =>
    simp only [step, bind_eq_ok, pure_eq_ok, Prod.mk.injEq] at hr
    obtain ⟨⟨_, e⟩, hr, rfl, rfl⟩ := hr
    rcases poolDecommit_eq_ok h virtualAddr.toNat_lt size.toNat_lt hop.2.1 hr with
      ⟨-, -, rfl⟩ | ⟨-, hdecommits, -, hpart⟩
    · exact ⟨h, .unchanged rfl⟩
    · exact ⟨hdecommits.valid, .decommitted hpart hdecommits⟩
  | unmapMemory virtualAddr size =>
    simp only [step, bind_eq_ok, pure_eq_ok, Prod.mk.injEq] at hr
    obtain ⟨⟨_, e⟩, hr, rfl, rfl⟩ := hr
    rcases unmapMemory_eq_ok h virtualAddr.toNat_lt size.toNat_lt hr with
      ⟨rfl, -⟩ | ⟨-, -, -, hunmaps, -⟩
    · exact ⟨h, .unchanged rfl⟩
    · exact ⟨hunmaps.valid, .unmapped hunmaps⟩
  | protect addr size prot =>
    simp only [step, bind_eq_ok, pure_eq_ok, Prod.mk.injEq] at hr
    obtain ⟨_, hr, rfl, rfl⟩ := hr
    have hretouches := protect_eq_ok h hr
    exact ⟨hretouches.valid, .retouched hretouches.same⟩
  | setDirectMemoryType addr size mt =>
    simp only [step, bind_eq_ok, pure_eq_ok, Prod.mk.injEq] at hr
    obtain ⟨_, hr, rfl, rfl⟩ := hr
    obtain ⟨hvalid, hview | hview⟩ := setDirectMemoryType_eq_ok h addr.toNat_lt size.toNat_lt hr
    · exact ⟨hvalid, .retyped hview⟩
    · exact ⟨hvalid, .unchanged hview⟩
  | nameVirtualRange virtualAddr size name =>
    simp only [step, bind_eq_ok, pure_eq_ok, Prod.mk.injEq] at hr
    obtain ⟨_, hr, rfl, rfl⟩ := hr
    have hretouches := nameVirtualRange_eq_ok h virtualAddr.toNat_lt size.toNat_lt hr
    exact ⟨hretouches.valid, .retouched hretouches.same⟩

/-! ## Reachable states -/

/-- A call the callers can make, made where `C` allows it. -/
def Step (env : Environment) (C : MemoryManager → Op → Prop) (s s' : MemoryManager) : Prop :=
  ∃ op r, op.Issued ∧ C s op ∧ s.step env op = .ok (s', r)

/-- The states reached from the constructor's by calls that `C` allows. -/
def Reachable (env : Environment) (C : MemoryManager → Op → Prop) (s : MemoryManager) : Prop :=
  Relation.ReflTransGen (Step env C) (init env) s

/-- Every call is allowed. -/
def anyCall (_ : MemoryManager) (_ : Op) : Prop := True

section

variable {C : MemoryManager → Op → Prop}

theorem Reachable.valid (h : Reachable env C s) : s.Valid env := by
  induction h with
  | refl => exact .init
  | tail _ hstep ih =>
    obtain ⟨op, r, hop, -, hr⟩ := hstep
    exact (step_effect ih hop hr).1

/-- What the constructor establishes and every effect keeps holds of the bytes of
    every reachable state. -/
theorem Reachable.invariant {P : Memory → Prop} (h : Reachable env C s) (hinit : P (init env).view)
    (hstep : ∀ {s s' : MemoryManager} {op r}, s.Valid env → P s.view → C s op →
      Effect env s s' op r → P s'.view) : P s.view := by
  induction h with
  | refl => exact hinit
  | tail hprev hcall ih =>
    obtain ⟨op, r, hop, hC, hr⟩ := hcall
    have hvalid := Reachable.valid hprev
    exact hstep hvalid ih hC (step_effect hvalid hop hr).2

theorem steps_of_run {ops : List Op} (hr : run env s ops = .ok s')
    (hops : ∀ op ∈ ops, op.Issued ∧ ∀ s, C s op) : Relation.ReflTransGen (Step env C) s s' := by
  induction ops generalizing s with
  | nil =>
    simp only [run, pure_eq_ok] at hr
    exact hr ▸ .refl
  | cons op ops ih =>
    simp only [run, bind_eq_ok] at hr
    obtain ⟨⟨s₁, r⟩, hstep, hr⟩ := hr
    obtain ⟨hop, hC⟩ := hops op (List.mem_cons_self ..)
    exact .head ⟨op, r, hop, hC s, hstep⟩ (ih hr fun op' h' => hops op' (List.mem_cons_of_mem _ h'))

theorem reachable_of_run {ops : List Op} (h : Reachable env C s) (hr : run env s ops = .ok s')
    (hops : ∀ op ∈ ops, op.Issued ∧ ∀ s, C s op) : Reachable env C s' :=
  h.trans (steps_of_run hr hops)

/-- A call after a run. -/
theorem run_concat {ops : List Op} {op : Op} {r : Reply} {s₁ : MemoryManager}
    (hr : run env s ops = .ok s₁) (hstep : s₁.step env op = .ok (s', r)) :
    run env s (ops ++ [op]) = .ok s' := by
  induction ops generalizing s with
  | nil =>
    simp only [run, pure_eq_ok] at hr
    subst hr
    simp [run, hstep]
  | cons op' ops ih =>
    simp only [run, bind_eq_ok] at hr
    obtain ⟨⟨s₂, r₂⟩, hstep', hr⟩ := hr
    simp only [List.cons_append, run, hstep', Outcome.ok_bind]
    exact ih hr

theorem Reachable.call {op : Op} {r : Reply} (h : Reachable env C s)
    (hr : s.step env op = .ok (s', r)) (hop : op.Issued) (hC : C s op) : Reachable env C s' :=
  h.tail ⟨op, r, hop, hC, hr⟩

/-- A test on the state a run from the constructor's state ends in, when the calls are
    allowed whatever the state. -/
theorem exists_reachable_of (env : Environment) (ops : List Op) (t : MemoryManager → Bool)
    (hops : ∀ op ∈ ops, op.Issued ∧ ∀ s, C s op)
    (ht : (run env (init env) ops).toOption.any t = true) :
    ∃ s, run env (init env) ops = .ok s ∧ Reachable env C s ∧ t s = true := by
  cases hr : run env (init env) ops with
  | error e => simp [hr, Except.toOption] at ht
  | ok s =>
    rw [hr] at ht
    exact ⟨s, rfl, reachable_of_run .refl hr hops, ht⟩

theorem exists_reachable (env : Environment) (ops : List Op) (t : MemoryManager → Bool)
    (hops : ∀ op ∈ ops, op.Issued) (ht : (run env (init env) ops).toOption.any t = true) :
    ∃ s, run env (init env) ops = .ok s ∧ Reachable env anyCall s ∧ t s = true :=
  exists_reachable_of env ops t (fun op hop => ⟨hops op hop, fun _ => trivial⟩) ht

/-- A test on what a call returns. -/
theorem exists_of_any {α : Type} {x : Outcome α} {t : α → Bool} (h : x.toOption.any t = true) :
    ∃ a, x = .ok a ∧ t a = true := by
  cases x with
  | error e => simp [Except.toOption] at h
  | ok a => exact ⟨a, rfl, h⟩

/-- Tests on the states before and after the last call of a run. -/
theorem exists_last_call (env : Environment) (ops : List Op) (op : Op) (t t' : MemoryManager → Bool)
    (hops : ∀ op ∈ ops, op.Issued ∧ ∀ s, C s op)
    (ht : ((run env (init env) ops).toOption.any fun s =>
      t s && (s.step env op).toOption.any fun r => t' r.1) = true) :
    ∃ s s' r, Reachable env C s ∧ t s = true ∧ s.step env op = .ok (s', r) ∧ t' s' = true ∧
      run env (init env) (ops ++ [op]) = .ok s' := by
  obtain ⟨s, hs, hreach, ht⟩ := exists_reachable_of env ops _ hops ht
  obtain ⟨hbefore, hcall⟩ := Bool.and_eq_true_iff.1 ht
  obtain ⟨⟨s', r⟩, hr, hafter⟩ := exists_of_any hcall
  exact ⟨s, s', r, hreach, hbefore, hr, hafter, run_concat hs hr⟩

end

end MemoryManager

/-- A Linux host and a retail console, with no additional memory. -/
def Environment.retail : Environment where
  isLegacyBackend := false
  systemManagedVirtualBase := 0x400000
  systemManagedVirtualBase_lt := systemManagedMin_lt
  userVirtualBase := 0x1000000000
  userVirtualSize := 0x54F000000000
  usableRegions := [(0x400000, 0x550000000000)]
  usable_nonempty := by decide
  usable_apart := by decide
  extraDmemInMBytes := 0
  extraFmemInMBytes := 0
  extra_lt := noExtra_lt
  isNeo := false
  isDevKit := false
  sdkVersion := 0x5000000

namespace MemoryManager

/-- The areas cover what the regions do. -/
theorem Valid.covers_iff {env : Environment} {s : MemoryManager} {addr size : Nat}
    (h : s.Valid env) :
    s.vmaMap.Covers addr size ↔ ∀ p ∈ Set.Ico addr (addr + size), env.Usable p :=
  h.vma.regions.covers_iff.trans (forall₂_congr fun p _ => h.sound.usable p)

/-- Allocated direct memory, a pool, and areas of four types: two of them side by side, and a block
    that is committed in front of the rest of a reservation. -/
def mixedCalls : List Op :=
  [.allocate 0 0x100000000 0x10000 0 0,
   .poolExpand 0 0x100000000 0x20000 0,
   .mapMemory 0x200000000 0x10000 .cpuReadWrite .fixed .direct "direct" false 0 0,
   .mapMemory 0x200010000 0x8000 .cpuReadWrite .fixed .flexible "flexible" false (-1) 0,
   .mapMemory 0x300000000 0x20000 .noAccess .fixed .poolReserved "pool" false (-1) 0,
   .poolCommit 0x300000000 0x10000 .cpuReadWrite 0]

theorem issued_mixedCalls : ∀ op ∈ mixedCalls, op.Issued := by decide

theorem covers_retail {s : MemoryManager} {addr size : Nat} (h : s.Valid .retail)
    (hle : 0x400000 ≤ addr) (hlt : addr + size ≤ 0x550000000000) :
    s.vmaMap.Covers addr size := by
  refine h.covers_iff.2 fun p hp => ⟨_, List.mem_singleton_self _, ?_⟩
  rw [Set.mem_Ico] at hp
  simp only
  omega

end MemoryManager

end Core
