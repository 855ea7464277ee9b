-- SUMMARY: Only `SetupMemoryRegions` changes the sizes of memory, and the linker calls it before direct memory is used.
import W7PS4.Memory.System

/-!
# The sizes of memory

`total_flexible_size` and `total_direct_size` are what `SetupMemoryRegions` computed. The linker
calls it once, before the guest runs; from then on direct memory has its bytes below
`total_direct_size`, all of them.
-/

namespace Core

open Outcome (bind_eq_ok pure_eq_ok)

namespace PhysMap

/-- A property of a map that carving, changing and coalescing areas keep. -/
structure Lasting (P : PhysMap → Prop) : Prop where
  carve : ∀ {map : PhysMap} {addr size : Nat}, P map →
    (map.carvePhysArea addr size).Ensures fun r => P r.1
  modify : ∀ {map : PhysMap} {k : Nat} {f : PhysicalMemoryArea → PhysicalMemoryArea}, P map →
    P (map.modify k f)
  merge : ∀ {map : PhysMap} {k : Nat}, P map → P (map.mergeAdjacent k).1

open Outcome

variable {P : PhysMap → Prop} {map areas : PhysMap} {addr size n : Nat}
  {f : PhysicalMemoryArea → PhysicalMemoryArea}

/-- Retyping a range by `f` keeps the property. -/
def KeptByRetype (f : PhysicalMemoryArea → PhysicalMemoryArea) (P : PhysMap → Prop) : Prop :=
  ∀ (map : PhysMap) (addr size : Nat), P map → (map.retype addr size f).Ensures P

theorem Lasting.retype (hP : Lasting P) : KeptByRetype f P := fun _ _ _ h =>
  (hP.carve h).bind fun _ h₁ => ensures_pure (hP.merge (hP.modify h₁))

theorem KeptByRetype.retypeBacking (hP : KeptByRetype f P) (pieces : List (Nat × PhysicalMemoryArea))
    (h : P map) : (MemoryManager.retypeBacking f addr map pieces n).Ensures fun r => P r.1 := by
  induction pieces generalizing map n with
  | nil => exact ensures_pure h
  | cons e pieces ih =>
    unfold MemoryManager.retypeBacking
    split
    · exact ensures_pure h
    · exact (hP _ _ _ h).bind fun _ h₁ => ih h₁

/-- What `takePiece` does to the map it takes from. -/
theorem retype_of_takePiece {offset : Nat} {r : PhysMap × PhysMap × Nat}
    (hr : takePiece f map areas addr size offset = .ok r) : map.retype addr size f = .ok r.1 := by
  simp only [PhysMap.takePiece, bind_eq_ok, pure_eq_ok] at hr
  obtain ⟨⟨map₁, handle⟩, hcarve, -, -, rfl⟩ := hr
  simp only [PhysMap.retype, hcarve]
  rfl

theorem KeptByRetype.takePiece (hP : KeptByRetype f P) (h : P map) {offset : Nat} :
    (takePiece f map areas addr size offset).Ensures fun r => P r.1 :=
  fun _ hr => hP _ _ _ h _ (retype_of_takePiece hr)

theorem KeptByRetype.takeBacking (hP : KeptByRetype f P) (h : P map) {wanted : PhysicalMemoryType} :
    (takeBacking wanted f map size).Ensures fun r => P r.1 := by
  suffices hloop : ∀ fuel handle areas offset n,
      (takeBackingLoop wanted f fuel map handle areas offset n).Ensures fun r => P r.1 from
    hloop _ _ _ _ _
  intro fuel handle areas offset n
  induction fuel generalizing map handle areas offset n with
  | zero => exact ensures_throw
  | succ fuel ih =>
    cases handle with
    | none => exact ensures_pure h
    | some k =>
      unfold takeBackingLoop
      split
      · exact ensures_pure h
      refine ensures_bind fun _ => ?_
      simp only
      split
      · exact ih h _ _ _ _
      · exact (hP.takePiece h).bind fun _ h₁ => ih h₁ _ _ _ _

theorem KeptByRetype.takeDirect (hP : KeptByRetype (fun area => { area with dmaType := .mapped }) P)
    (h : P map) : (takeDirect map addr size).Ensures fun r => P r.1 := by
  suffices hloop : ∀ fuel areas a n,
      (takeDirectLoop addr fuel map areas a n).Ensures fun r => P r.1 from hloop _ _ _ _
  intro fuel areas a n
  induction fuel generalizing map areas a n with
  | zero => exact ensures_throw
  | succ fuel ih =>
    unfold takeDirectLoop
    split
    · exact ensures_pure h
    · exact ensures_bind fun _ => (hP.takePiece h).bind fun _ h₁ => ih h₁ _ _ _

end PhysMap

namespace MemoryManager

open Outcome

variable {env : Environment} {s s' : MemoryManager} {addr size flexible direct : Nat}

/-! ## What every call but one keeps -/

/-- A property of the state that has nothing to do with virtual memory and the two counters, and
    that changes of areas in `dmem_map` and of types in `fmem_map` keep. -/
structure Stable (K : MemoryManager → Prop) : Prop where
  virtual : ∀ {s : MemoryManager} {map : VMAMap}, K s → K { s with vmaMap := map }
  counters : ∀ {s : MemoryManager} {usage budget : Nat}, K s →
    K { s with flexibleUsage := usage, poolBudget := budget }
  direct : ∀ s : MemoryManager, PhysMap.Lasting fun map => K { s with dmemMap := map }
  flexible : ∀ (s : MemoryManager) (t : PhysicalMemoryType), t = .free ∨ t = .flexible →
    PhysMap.KeptByRetype (fun area => { area with dmaType := t }) fun map => K { s with fmemMap := map }

section

variable {K : MemoryManager → Prop} (hK : Stable K)

include hK

theorem releaseBacking_keeps {v : VirtualMemoryArea} {start : Nat} (h : K s) :
    (s.releaseBacking v start size).Ensures K := by
  unfold releaseBacking
  split
  · exact ensures_pure h
  refine ensures_bind fun pieces => ?_
  split
  · exact ((hK.direct s).retype.retypeBacking _ h).bind fun _ h₁ => ensures_bind fun _ =>
      ensures_pure h₁
  · exact ((hK.flexible s .free (.inl rfl)).retypeBacking _ h).bind fun _ h₁ =>
      ensures_bind fun _ => ensures_pure (hK.counters h₁)
  · exact ensures_pure h

theorem unmapBytesFromEntry_keeps {v : VirtualMemoryArea} (h : K s) :
    (s.unmapBytesFromEntry addr v size).Ensures fun r => K r.1 := by
  unfold unmapBytesFromEntry
  simp only
  split
  · exact ensures_pure h
  · exact (releaseBacking_keeps hK h).bind fun _ h₁ => ensures_bind fun _ =>
      ensures_pure (hK.virtual h₁)

theorem unmapMemoryImpl_keeps (h : K s) : (s.unmapMemoryImpl addr size).Ensures K := by
  suffices hloop : ∀ fuel n, (unmapMemoryImplLoop fuel s addr size n).Ensures K from hloop _ _
  intro fuel n
  induction fuel generalizing s n with
  | zero => exact ensures_throw
  | succ fuel ih =>
    unfold unmapMemoryImplLoop
    refine ensures_bind fun _ => (unmapBytesFromEntry_keeps hK h).bind fun _ h₁ =>
      ensures_bind fun _ => ?_
    simp only
    split
    · exact ih h₁ _
    · exact ensures_pure h₁

variable {flags : MemoryMapFlags} {name : String} {prot : MemoryProt} {mt : Int}

theorem createArea_keeps {type : VMAType} (h : K s) :
    (s.createArea addr size prot flags type name).Ensures fun r => K r.1 := by
  have hloop : ∀ fuel v a n, (overwriteLoop fuel s v a n).Ensures K := by
    intro fuel v a n
    induction fuel generalizing s v a n with
    | zero => exact ensures_throw
    | succ fuel ih =>
      unfold overwriteLoop
      split
      · exact ensures_pure h
      · exact (unmapBytesFromEntry_keeps hK h).bind fun _ h₁ => ensures_bind fun _ => ih h₁ _ _ _
  unfold createArea
  refine ensures_bind fun e => Ensures.bind (P := K) ?_ fun _ h₁ =>
    ensures_bind fun _ => ensures_bind fun _ => ensures_bind fun _ => ensures_pure (hK.virtual h₁)
  split
  · exact hloop _ _ _ _
  · exact ensures_pure h

theorem mapMemory_keeps {type : VMAType} {validateDmem : Bool} {phys alignment : Nat} (h : K s) :
    (s.mapMemory env addr size prot flags type name validateDmem phys alignment).Ensures
      fun r => K r.1 := by
  have hback : ∀ {s : MemoryManager}, K s → (s.mapBacking size type phys).Ensures fun r => K r.1 := by
    intro s h
    unfold mapBacking
    split
    · exact ((hK.flexible s .flexible (.inr rfl)).takeBacking h).bind fun _ h₁ =>
        ensures_bind fun _ => ensures_pure (hK.counters h₁)
    · exact ((hK.direct s).retype.takeDirect h).bind fun _ h₁ => ensures_pure h₁
    · exact ensures_pure h
  have hat : ∀ a, (s.mapMemoryAt env a size prot flags type name phys).Ensures K := by
    intro a
    unfold mapMemoryAt
    refine (createArea_keeps hK h).bind fun _ h₁ => (hback h₁).bind fun _ h₂ => ?_
    simp only
    split
    · exact ensures_pure (hK.virtual h₂)
    · exact ensures_pure (hK.virtual h₂)
  unfold mapMemory
  refine ensures_bind fun checked => ?_
  split
  · exact ensures_pure h
  · exact (hat _).bind fun _ h₁ => ensures_pure h₁

theorem mapFile_keeps {fd : Int} {file : Option MappableFile} (h : K s) :
    (s.mapFile env addr size prot flags fd file).Ensures fun r => K r.1 := by
  unfold mapFile
  split
  · exact ensures_pure h
  split
  · exact ensures_pure h
  refine ensures_bind fun _ => ensures_bind fun _ => ensures_bind fun _ => ?_
  split
  · exact ensures_pure h
  · exact (createArea_keeps hK h).bind fun _ h₁ => ensures_pure (hK.virtual h₁)

theorem poolExpand_keeps {searchStart searchEnd alignment : Nat} (h : K s) :
    (s.poolExpand searchStart searchEnd size alignment).Ensures fun r => K r.1 := by
  unfold poolExpand
  refine ensures_bind fun _ => ?_
  simp only
  split
  · exact ensures_pure h
  · exact ((hK.direct s).carve h).bind fun _ h₁ =>
      ensures_pure (hK.counters ((hK.direct s).modify h₁))

theorem allocate_keeps {searchStart searchEnd alignment : Nat} (h : K s) :
    (s.allocate env searchStart searchEnd size alignment mt).Ensures fun r => K r.1 := by
  unfold allocate
  refine ensures_bind fun _ => ?_
  simp only
  split
  · exact ensures_pure h
  split
  · exact ensures_pure h
  · exact ((hK.direct s).carve h).bind fun _ h₁ =>
      ensures_pure ((hK.direct s).merge ((hK.direct s).modify h₁))

theorem free_keeps {checked : Bool} (h : K s) :
    (s.free addr size checked).Ensures fun r => K r.1 := by
  unfold free
  split
  · exact ensures_pure h
  refine ensures_bind fun _ => ?_
  simp only
  split
  · exact ensures_pure h
  refine (ensures_foldlM _ h fun _ _ h => unmapMemoryImpl_keeps hK h).bind fun s₁ h₁ => ?_
  exact (ensures_foldlM (I := fun map => K { s₁ with dmemMap := map }) _ h₁ fun _ _ h =>
    (hK.direct s₁).retype _ _ _ h).bind fun _ h₂ => ensures_pure h₂

theorem poolCommit_keeps (h : K s) : (s.poolCommit addr size prot mt).Ensures fun r => K r.1 := by
  unfold poolCommit
  refine ensures_bind fun _ => ensures_bind fun _ => ensures_bind fun _ => ?_
  simp only
  split
  · exact ensures_pure h
  split
  · exact ensures_pure h
  split
  · exact ensures_pure h
  · exact ensures_bind fun _ => ((hK.direct s).retype.takeBacking h).bind fun _ h₁ =>
      ensures_bind fun _ => ensures_pure (hK.virtual (hK.counters h₁))

theorem poolDecommit_keeps (h : K s) : (s.poolDecommit addr size).Ensures fun r => K r.1 := by
  have hback : ∀ {s : MemoryManager} {v a n}, K s → (s.repoolBacking v a n).Ensures K := by
    intro s v a n h
    unfold repoolBacking
    split
    · exact ensures_pure h
    · exact ensures_bind fun _ => ((hK.direct s).retype.retypeBacking _ h).bind fun _ h₁ =>
        ensures_bind fun _ => ensures_pure (hK.counters h₁)
  have hloop : ∀ fuel a n, (poolDecommitLoop fuel s a n).Ensures K := by
    intro fuel a n
    induction fuel generalizing s a n with
    | zero => exact ensures_throw
    | succ fuel ih =>
      unfold poolDecommitLoop
      split
      · exact ensures_pure h
      · exact ensures_bind fun _ => (hback h).bind fun s₁ h₁ => ensures_bind fun r =>
          ih (hK.virtual h₁) _ _
  unfold poolDecommit
  refine ensures_bind fun _ => ensures_bind fun _ => ensures_bind fun _ => ?_
  simp only
  split
  · exact ensures_pure h
  · exact (hloop _ _ _).bind fun _ h₁ => ensures_pure h₁

theorem unmapMemory_keeps (h : K s) : (s.unmapMemory addr size).Ensures fun r => K r.1 := by
  unfold unmapMemory
  split
  · exact ensures_pure h
  refine ensures_bind fun _ => ?_
  split
  · exact ensures_pure h
  · exact (unmapMemoryImpl_keeps hK h).bind fun _ h₁ => ensures_pure h₁

theorem protect_keeps (h : K s) : (s.protect addr size prot).Ensures K := by
  have hbytes : ∀ {s : MemoryManager} {k v a n}, K s →
      (s.protectBytes a k v n prot).Ensures fun r => K r.1 := by
    intro s k v a n h
    unfold protectBytes
    simp only
    split
    · exact ensures_pure h
    · exact ensures_bind fun _ => ensures_bind fun _ => ensures_pure (hK.virtual h)
  have hloop : ∀ fuel a n m, (protectLoop prot fuel s a n m).Ensures K := by
    intro fuel a n m
    induction fuel generalizing s a n m with
    | zero => exact ensures_throw
    | succ fuel ih =>
      unfold protectLoop
      split
      · refine ensures_bind fun _ => (hbytes h).bind fun _ h₁ => ?_
        simp only
        split
        · exact ensures_pure h₁
        · exact ih h₁ _ _ _
      · exact ensures_pure h
  unfold protect
  split
  · exact ensures_pure h
  · exact ensures_bind fun _ => ensures_bind fun _ => hloop _ _ _ _

/-- The walk over areas keeps what its body keeps. -/
theorem walkAreas_keeps
    {body : MemoryManager → Nat → VirtualMemoryArea → Nat → Nat → Outcome (MemoryManager × Nat)}
    (hbody : ∀ s k v a n, K s → (body s k v a n).Ensures fun r => K r.1)
    (fuel : Nat) (handle : Option Nat) (h : K s) :
    (walkAreas body fuel s handle addr size).Ensures K := by
  induction fuel generalizing s handle addr size with
  | zero => exact ensures_throw
  | succ fuel ih =>
    cases handle with
    | none => exact ensures_pure h
    | some k =>
      unfold walkAreas
      split
      · exact ensures_pure h
      · exact ensures_bind fun _ => (hbody _ _ _ _ _ h).bind fun _ h₁ => ensures_bind fun _ =>
          ih _ (hK.virtual h₁)

theorem setDirectMemoryType_keeps (h : K s) : (s.setDirectMemoryType addr size mt).Ensures K := by
  unfold setDirectMemoryType
  refine ensures_bind fun _ => ensures_bind fun _ => ensures_bind fun _ =>
    walkAreas_keeps hK (fun s k v a n h => ?_) _ _ h
  unfold setTypeOfArea
  split
  · refine ensures_bind fun _ => ensures_bind fun _ =>
      (ensures_foldlM (I := fun map => K { s with dmemMap := map }) _ h fun _ _ h₁ => ?_).bind
        fun _ h₁ => ensures_pure (hK.virtual h₁)
    exact ((hK.direct s).carve h₁).bind fun _ h₂ => ensures_pure ((hK.direct s).modify h₂)
  · exact ensures_pure h

theorem nameVirtualRange_keeps (h : K s) : (s.nameVirtualRange addr size name).Ensures K := by
  unfold nameVirtualRange
  refine ensures_bind fun _ => ensures_bind fun _ => ensures_bind fun _ =>
    walkAreas_keeps hK (fun s k v a n h => ?_) _ _ h
  unfold nameArea
  split
  · exact ensures_pure h
  · exact ensures_bind fun _ => ensures_pure (hK.virtual h)

end

/-- Every call but `SetupMemoryRegions`. -/
def afterSetup (_ : MemoryManager) : Op → Prop
  | .setupMemoryRegions _ _ _ => False
  | _ => True

theorem Step.keeps {K : MemoryManager → Prop} (hK : Stable K) (h : Step env afterSetup s s')
    (hs : K s) : K s' := by
  obtain ⟨op, r, -, hop, hr⟩ := h
  suffices hall : (s.step env op).Ensures fun r => K r.1 from hall _ hr
  cases op with
  | setupMemoryRegions => exact absurd hop id
  | poolExpand => exact (poolExpand_keeps hK hs).bind fun _ h₁ => ensures_pure h₁
  | allocate => exact (allocate_keeps hK hs).bind fun _ h₁ => ensures_pure h₁
  | free => exact (free_keeps hK hs).bind fun _ h₁ => ensures_pure h₁
  | poolCommit => exact (poolCommit_keeps hK hs).bind fun _ h₁ => ensures_pure h₁
  | mapMemory => exact (mapMemory_keeps hK hs).bind fun _ h₁ => ensures_pure h₁
  | mapFile => exact (mapFile_keeps hK hs).bind fun _ h₁ => ensures_pure h₁
  | poolDecommit => exact (poolDecommit_keeps hK hs).bind fun _ h₁ => ensures_pure h₁
  | unmapMemory => exact (unmapMemory_keeps hK hs).bind fun _ h₁ => ensures_pure h₁
  | protect => exact (protect_keeps hK hs).bind fun _ h₁ => ensures_pure h₁
  | setDirectMemoryType => exact (setDirectMemoryType_keeps hK hs).bind fun _ h₁ => ensures_pure h₁
  | nameVirtualRange => exact (nameVirtualRange_keeps hK hs).bind fun _ h₁ => ensures_pure h₁

/-- `SetupMemoryRegions` shrinks one area of `dmem_map` and sets the sizes. -/
theorem setupMemoryRegions_changes {flexibleSize : Nat} {ext1 ext2 : Bool}
    (hr : s.setupMemoryRegions env flexibleSize ext1 ext2 = .ok s') : ∃ k f flexible direct,
      s' = { s with dmemMap := s.dmemMap.modify k f, totalDirectSize := direct,
                    totalFlexibleSize := flexible } := by
  simp only [setupMemoryRegions, bind_eq_ok, deref_eq_ok, assertMsg_eq_ok,
    Bool.and_eq_true, decide_eq_true_eq, pure_eq_ok] at hr
  obtain ⟨-, -, -, -, -, -, rfl⟩ := hr
  exact ⟨_, _, _, _, rfl⟩

/-- A stable property that has nothing to do with the sizes holds in every state. -/
theorem Reachable.stable {K : MemoryManager → Prop} {C : MemoryManager → Op → Prop} (hK : Stable K)
    (hsizes : ∀ s flexible direct, K s → K { s with totalDirectSize := direct, totalFlexibleSize := flexible })
    (hinit : K (init env)) (h : Reachable env C s) : K s := by
  induction h with
  | refl => exact hinit
  | @tail s₁ s₂ _ hcall ih =>
    obtain ⟨op, r, hop, -, hr⟩ := hcall
    by_cases hafter : afterSetup s₁ op
    · exact Step.keeps hK ⟨op, r, hop, hafter, hr⟩ ih
    cases op with
    | setupMemoryRegions flexibleSize ext1 ext2 =>
      simp only [step, bind_eq_ok, pure_eq_ok, Prod.mk.injEq] at hr
      obtain ⟨_, hr, rfl, -⟩ := hr
      obtain ⟨k, f, flexible, direct, rfl⟩ := setupMemoryRegions_changes hr
      exact hsizes _ flexible direct ((hK.direct s₁).modify ih)
    | _ => exact absurd trivial hafter

/-- Every call keeps what changing areas in `dmem_map` keeps. -/
theorem Reachable.dmem_induction {P : PhysMap → Prop} (hP : PhysMap.Lasting P)
    {C : MemoryManager → Op → Prop} (h : Reachable env C s) (hinit : P (init env).dmemMap) :
    P s.dmemMap :=
  Reachable.stable (K := fun s => P s.dmemMap) ⟨id, id, fun _ => hP, fun _ _ _ _ _ _ h _ _ => h⟩
    (fun _ _ _ h => h) hinit h

/-! ## Only `SetupMemoryRegions` changes the sizes -/

def Sized (flexible direct : Nat) (s : MemoryManager) : Prop :=
  s.totalFlexibleSize = flexible ∧ s.totalDirectSize = direct

theorem Step.sized (h : Step env afterSetup s s') (hl : s.Sized flexible direct) :
    s'.Sized flexible direct :=
  h.keeps ⟨id, id, fun _ => ⟨fun h _ _ => h, id, id⟩, fun _ _ _ _ _ _ h _ _ => h⟩ hl

/-! ## Direct memory is whole -/

/-- As the linker calls it: `SetupMemoryRegions` finds direct memory as the constructor left it. -/
def setupFirst (env : Environment) (s : MemoryManager) : Op → Prop
  | .setupMemoryRegions _ _ _ => s.dmemMap = (init env).dmemMap
  | _ => True

/-- The bytes of direct memory are those below its size. -/
def DirectWhole (s : MemoryManager) : Prop := ∀ q, (s.view.dmem q).isSome ↔ q < s.totalDirectSize

theorem find?_dmem_init {k : Nat} {a : PhysicalMemoryArea} :
    (init env).dmemMap.find? k = some a ↔ k = 0 ∧ a = ⟨0, constructorTotalSize env, 0, .free⟩ := by
  simp only [init]
  rw [StdMap.emplace_of_find?_eq_none StdMap.find?_empty, StdMap.find?_insert]
  split
  · next hk =>
    rw [Option.some.injEq]
    exact ⟨fun h => ⟨hk, h.symm⟩, fun h => h.2.symm⟩
  · next hk => exact ⟨(fun h => by cases h), fun h => absurd h.1 hk⟩

theorem isSome_dmem_init {q : Nat} : ((init env).view.dmem q).isSome ↔ q < constructorTotalSize env := by
  have hinit : (init env).Valid env := .init
  constructor
  · intro hsome
    obtain ⟨b, hb⟩ := Option.isSome_iff_exists.1 hsome
    have hread : (init env).dmemMap.at? q = some b := hb
    obtain ⟨k, a, hk, hle, hlt, -⟩ := StdMap.exists_of_at? hread
    have hbounds := (hinit.dmem.bounds k a hk).2
    simp only [PhysicalMemoryArea.area_size, directExtent] at hlt hbounds
    omega
  · intro hlt
    exact Option.isSome_iff_exists.2 ⟨_, StdMap.at?_of_find? hinit.dmem.separated (find?_dmem_init.2 ⟨rfl, rfl⟩) (Nat.zero_le _)
      (by rw [PhysicalMemoryArea.area_size, Nat.zero_add]; exact hlt)⟩

theorem directWhole_init : (init env).DirectWhole := fun _ => isSome_dmem_init

theorem Maps.isSome_dmem {W : Set Nat} {a n phys q : Nat} {x : VirtByte}
    (h : Maps env W a n x phys s s') : (s'.view.dmem q).isSome = (s.view.dmem q).isSome := by
  obtain ⟨s₁, hu, -, hmaps⟩ := h.result
  have h₁ : (s₁.view.dmem q).isSome = (s.view.dmem q).isSome := by
    rw [hu.view]
    exact isSome_updateOn
  rw [← h₁]
  generalize s'.view = m' at hmaps ⊢
  cases hmaps with
  | plain => rfl
  | flexible => rfl
  | direct => exact isSome_updateOn

/-- Only `SetupMemoryRegions` takes bytes away from direct memory. -/
theorem Effect.isSome_dmem {op : Op} {r : Reply} {q : Nat} (h : Effect env s s' op r) (hop : afterSetup s op) :
    (s'.view.dmem q).isSome = (s.view.dmem q).isSome := by
  cases h with
  | retouched same => rw [same.dmem]
  | shrunk _ view => exact absurd hop id
  | expanded _ _ view =>
    rw [view]
    exact isSome_updateOn
  | allocated _ view =>
    rw [view]
    exact isSome_updateOn
  | freed _ _ _ view =>
    rw [view]
    exact isSome_updateOn.trans isSome_updateOn
  | committed commits =>
    rw [commits.view]
    exact isSome_updateOn
  | decommitted _ decommits =>
    rw [decommits.view]
    exact isSome_updateOn
  | mapped maps => exact maps.isSome_dmem
  | mappedFile maps => exact maps.isSome_dmem
  | unmapped unmaps =>
    rw [unmaps.view]
    exact isSome_updateOn
  | retyped view =>
    rw [view]
    exact isSome_updateOn

/-- `SetupMemoryRegions` cuts off the end of direct memory that the constructor set up. -/
theorem DirectWhole.setupMemoryRegions {flexibleSize : Nat} {ext1 ext2 : Bool} (h : s.DirectWhole)
    (hv : s.Valid env) (hinit : s.dmemMap = (init env).dmemMap)
    (hr : s.setupMemoryRegions env flexibleSize ext1 ext2 = .ok s') : s'.DirectWhole := by
  have hsame : s.view.dmem = (init env).view.dmem := congrArg StdMap.at? hinit
  have htotal : s.totalDirectSize = constructorTotalSize env := by
    have hiff : ∀ q, q < s.totalDirectSize ↔ q < constructorTotalSize env := fun q => by
      rw [← h q, hsame, isSome_dmem_init]
    have := hiff s.totalDirectSize
    have := hiff (constructorTotalSize env)
    omega
  have hlarge : constructorTotalSize env < 2 ^ 64 := (directExtent_hi_lt env).trans (by decide)
  have hvalid := (setupMemoryRegions_eq_ok hv hr).1
  simp only [MemoryManager.setupMemoryRegions, bind_eq_ok, deref_eq_ok, assertMsg_eq_ok,
    Bool.and_eq_true, decide_eq_true_eq, pure_eq_ok] at hr
  obtain ⟨-, -, ⟨k, a⟩, hfloor, -, ⟨-, hfits⟩, rfl⟩ := hr
  have hk := (StdMap.floor?_eq_some.1 hfloor).1
  rw [hinit, find?_dmem_init] at hk
  obtain ⟨rfl, rfl⟩ := hk
  generalize hn : U64.sub _ (U64.add flexibleSize (env.extraFmemInMBytes * oneMB)) = new at hfits hvalid ⊢
  have hlt : new < 2 ^ 64 := hn ▸ U64.sub_lt _ _
  have hsize : constructorTotalSize env - U64.sub s.totalDirectSize new = new := by
    rw [htotal] at hfits ⊢
    have hcut : U64.sub (constructorTotalSize env) new =
        (constructorTotalSize env + 2 ^ 64 - new) % 2 ^ 64 := by unfold U64.sub; rfl
    dsimp only at hfits
    omega
  have hfind : ∀ j b, (s.dmemMap.modify 0 fun area =>
      { area with size := area.size - U64.sub s.totalDirectSize new }).find? j = some b ↔
        j = 0 ∧ b = ⟨0, new, 0, .free⟩ := by
    intro j b
    rw [StdMap.find?_modify, hinit, find?_dmem_init.2 ⟨rfl, rfl⟩]
    split
    · next hj =>
      rw [Option.map_some, Option.some.injEq, hsize]
      exact ⟨fun h => ⟨hj, h.symm⟩, fun h => h.2.symm⟩
    rename_i hj
    rw [find?_dmem_init]
    exact ⟨fun h => absurd h.1 hj, fun h => absurd h.1 hj⟩
  intro q
  constructor
  · intro hsome
    obtain ⟨b, hb⟩ := Option.isSome_iff_exists.1 hsome
    obtain ⟨j, a, hj, -, hlt, -⟩ := StdMap.exists_of_at? hb
    obtain ⟨rfl, rfl⟩ := (hfind _ _).1 hj
    simpa only [PhysicalMemoryArea.area_size, Nat.zero_add] using hlt
  · intro hlt
    exact Option.isSome_iff_exists.2 ⟨_, StdMap.at?_of_find? hvalid.dmem.separated
      ((hfind _ _).2 ⟨rfl, rfl⟩) (Nat.zero_le _)
      (by rw [PhysicalMemoryArea.area_size, Nat.zero_add]; exact hlt)⟩

/-- In every state the linker's order of calls leads to, direct memory is whole. -/
theorem Reachable.directWhole (h : Reachable env (setupFirst env) s) : s.DirectWhole := by
  induction h with
  | refl => exact directWhole_init
  | @tail s₁ s₂ hprev hcall ih =>
    obtain ⟨op, r, hop, hfirst, hr⟩ := hcall
    have hvalid := Reachable.valid hprev
    by_cases hafter : afterSetup s₁ op
    · have htotal := (Step.sized ⟨op, r, hop, hafter, hr⟩ ⟨rfl, rfl⟩).2
      intro q
      rw [(step_effect hvalid hop hr).2.isSome_dmem hafter, htotal]
      exact ih q
    · cases op with
      | setupMemoryRegions flexibleSize ext1 ext2 =>
        simp only [step, bind_eq_ok, pure_eq_ok, Prod.mk.injEq] at hr
        obtain ⟨_, hr, rfl, -⟩ := hr
        exact ih.setupMemoryRegions hvalid hfirst hr
      | _ => exact absurd trivial hafter

end MemoryManager

end Core
