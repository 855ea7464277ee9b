-- SUMMARY: The operations of the memory manager on direct, flexible and pooled memory, and runs of them.
import W7PS4.Memory.Manager

/-!
# The operations of the memory manager

The operations `core/libraries/kernel/memory.cpp` and the loader call. Each takes
the state to the next one and a reply, or stops at a fault.
-/

namespace Core

/-! ## Physical memory for a new area -/

namespace PhysMap

/-- Carve `[addr, addr + size)`, change it by `f`, enter the result at `offset`
    into the physical areas of a virtual one, and coalesce both maps. -/
def takePiece (f : PhysicalMemoryArea → PhysicalMemoryArea) (map areas : PhysMap)
    (addr size offset : Nat) : Outcome (PhysMap × PhysMap × Nat) := do
  let (map, handle) ← carvePhysArea map addr size
  let map := map.modify handle f
  let area ← deref (map.find? handle)
  let areas := (mergeAdjacent (areas.insert offset area) offset).1
  let (map, handle) := mergeAdjacent map handle
  return (map, areas, handle)

/-- The loop that looks for physical memory of type `wanted`, from the start of
    the map on. Returns the map, the physical areas of the new virtual area and the
    size still missing. Every turn moves to a later area. -/
def takeBackingLoop (wanted : PhysicalMemoryType) (f : PhysicalMemoryArea → PhysicalMemoryArea) :
    Nat → PhysMap → Option Nat → PhysMap → Nat → Nat → Outcome (PhysMap × PhysMap × Nat)
  | 0, _, _, _, _, _ => throw .diverges
  | _ + 1, map, none, areas, _, remainingSize => return (map, areas, remainingSize)
  | fuel + 1, map, some handle, areas, offset, remainingSize => do
    if remainingSize = 0 then
      return (map, areas, remainingSize)
    let area ← deref (map.find? handle)
    if area.dmaType ≠ wanted then
      takeBackingLoop wanted f fuel map ((map.next? handle).map Prod.fst) areas offset remainingSize
    else
      let sizeToMap := min remainingSize area.size
      let (map, areas, handle) ← takePiece f map areas area.base sizeToMap offset
      takeBackingLoop wanted f fuel map ((map.next? handle).map Prod.fst) areas
        (offset + sizeToMap) (remainingSize - sizeToMap)

def takeBacking (wanted : PhysicalMemoryType) (f : PhysicalMemoryArea → PhysicalMemoryArea)
    (map : PhysMap) (size : Nat) : Outcome (PhysMap × PhysMap × Nat) :=
  takeBackingLoop wanted f (map.entries.length + 2) map (map.first?.map Prod.fst) ∅ 0 size

/-- The loop of `MapMemory` over the direct memory from `physAddr` on. -/
def takeDirectLoop (physAddr : Nat) :
    Nat → PhysMap → PhysMap → Nat → Nat → Outcome (PhysMap × PhysMap)
  | 0, _, _, _, _ => throw .diverges
  | fuel + 1, map, areas, currentPhysAddr, remainingSize => do
    if remainingSize = 0 then
      return (map, areas)
    let (_, dmemArea) ← deref (map.floor? currentPhysAddr)
    -- Ensure the carved area only covers the current dmem area.
    let startPhysAddr := max currentPhysAddr dmemArea.base
    let offsetInDma := startPhysAddr - dmemArea.base
    let sizeInDma := min (U64.sub dmemArea.size offsetInDma) remainingSize
    let offsetInVma := U64.sub currentPhysAddr physAddr
    let (map, areas, _) ← takePiece (fun area => { area with dmaType := .mapped }) map areas
      startPhysAddr sizeInDma offsetInVma
    takeDirectLoop physAddr fuel map areas (U64.add currentPhysAddr sizeInDma)
      (remainingSize - sizeInDma)

def takeDirect (map : PhysMap) (physAddr size : Nat) : Outcome (PhysMap × PhysMap) :=
  takeDirectLoop physAddr (size + 1) map ∅ physAddr size

/-- The search of `Allocate` and `PoolExpand` over the areas after the first
    candidate, for a free one that is large enough. -/
def searchFreeArea (size alignment : Nat) : List (Nat × PhysicalMemoryArea) → Nat →
    Option (Nat × Nat)
  | [], _ => none
  | (k, area) :: rest, mappingStart =>
    if area.dmaType ≠ .free || area.getEnd < U64.add mappingStart size then
      searchFreeArea size alignment rest
        (alignUp ((rest.head?.map fun e => e.2.base).getD 0) alignment)
    else some (k, mappingStart)

end PhysMap

namespace MemoryManager

/-! ## Direct memory -/

/-- `PoolExpand`. The result is `u64(-1)` when no area is found; the end of the
    search range is not looked at. -/
def poolExpand (s : MemoryManager) (searchStart _searchEnd size alignment : Nat) :
    Outcome (MemoryManager × Nat) := do
  let alignment := if alignment > 0 then alignment else 0x10000
  let (k, area) ← deref (s.dmemMap.floor? searchStart)
  let mappingStart :=
    if searchStart > area.base then alignUp searchStart alignment else alignUp area.base alignment
  match PhysMap.searchFreeArea size alignment (s.dmemMap.startingAt k) mappingStart with
  | none => return (s, U64.max)
  | some (_, mappingStart) =>
    let (dmemMap, handle) ← s.dmemMap.carvePhysArea mappingStart size
    let dmemMap := dmemMap.modify handle fun area =>
      { area with dmaType := .pooled, memoryType := 3 }
    return ({ s with dmemMap, poolBudget := U64.add s.poolBudget size }, mappingStart)

/-- `Allocate`. The area that is coalesced is the one the search ended at, which is
    not the new one when the new one lies further up in it. -/
def allocate (env : Environment) (s : MemoryManager) (searchStart searchEnd size alignment : Nat)
    (memoryType : Int) : Outcome (MemoryManager × Nat) := do
  let alignment := if alignment > 0 then alignment else 0x4000
  let alignment := if env.isLegacyBackend then max alignment 0x10000 else alignment
  let (k, area) ← deref (s.dmemMap.floor? searchStart)
  let mappingStart := alignUp (max searchStart area.base) alignment
  match PhysMap.searchFreeArea size alignment (s.dmemMap.startingAt k) mappingStart with
  | none => return (s, U64.max)
  | some (dmemArea, mappingStart) =>
    if U64.add mappingStart size > searchEnd then
      return (s, U64.max)
    let (dmemMap, handle) ← s.dmemMap.carvePhysArea mappingStart size
    let dmemMap := dmemMap.modify handle fun area =>
      { area with memoryType, dmaType := .allocated }
    return ({ s with dmemMap := (PhysMap.mergeAdjacent dmemMap dmemArea).1 }, mappingStart)

/-- The physical ranges `Free` releases. `none` when a checked call meets a free
    area. An unchecked call steps over free areas without counting them. -/
def freeList (physAddr : Nat) (isChecked : Bool) :
    List (Nat × PhysicalMemoryArea) → Nat → Option (List (Nat × Nat))
  | [], _ => some []
  | (k, dmemArea) :: rest, remainingSize =>
    if remainingSize = 0 then some []
    else if dmemArea.dmaType = .free then
      if isChecked then none else freeList physAddr isChecked rest remainingSize
    else
      let currentPhysAddr := max physAddr k
      let startInDma := currentPhysAddr - k
      let sizeInDma := min remainingSize (U64.sub dmemArea.size startInDma)
      (freeList physAddr isChecked rest (remainingSize - sizeInDma)).map
        ((currentPhysAddr, sizeInDma) :: ·)

/-- The part of a direct area's piece that `Free` unmaps: where it starts and how
    long it is. -/
def removeEntry (physAddr size : Nat) (mapping : VirtualMemoryArea)
    (e : Nat × PhysicalMemoryArea) : Option (Nat × Nat) :=
  let (offsetInVma, physMapping) := e
  if U64.add physAddr size > physMapping.base ∧ physAddr < physMapping.base + physMapping.size then
    let physOffset := max physMapping.base physAddr - physMapping.base
    some (mapping.base + offsetInVma + physOffset, min (physMapping.size - physOffset) size)
  else none

/-- The virtual ranges `Free` unmaps first: direct mappings of the block. -/
def removeList (map : VMAMap) (physAddr size : Nat) : List (Nat × Nat) :=
  map.entries.flatMap fun e =>
    if e.2.type ≠ .direct then []
    else e.2.physAreas.entries.filterMap (removeEntry physAddr size e.2)

def free (s : MemoryManager) (physAddr size : Nat) (isChecked : Bool) :
    Outcome (MemoryManager × Except OrbisError Unit) := do
  -- Basic bounds checking
  if physAddr > s.totalDirectSize ∨
      (isChecked ∧ U64.add physAddr size > s.totalDirectSize) then
    return (s, if isChecked then .error .ENOENT else .ok ())
  let (k, _) ← deref (s.dmemMap.floor? physAddr)
  match freeList physAddr isChecked (s.dmemMap.startingAt k) size with
  | none => return (s, .error .ENOENT)
  | some released =>
    let s ← (removeList s.vmaMap physAddr size).foldlM
      (fun s r => s.unmapMemoryImpl r.1 r.2) s
    let dmemMap ← released.foldlM (fun (map : PhysMap) (r : Nat × Nat) =>
      map.retype r.1 r.2 fun area => { area with dmaType := .free, memoryType := 0 }) s.dmemMap
    return ({ s with dmemMap }, .ok ())

/-! ## Pooled memory -/

/-- Mark region as committed, with the memory that was found for it. -/
def markPooled (prot : MemoryProt) (physAreas : PhysMap) (vma : VirtualMemoryArea) :
    VirtualMemoryArea :=
  { vma with disallowMerge := false, prot := prot.appendRead, name := "anon", type := .pooled,
             physAreas }

def poolCommit (s : MemoryManager) (virtualAddr size : Nat) (prot : MemoryProt) (mtype : Int) :
    Outcome (MemoryManager × Except OrbisError Unit) := do
  assertMsg (← isValidMapping s.vmaMap virtualAddr size) "Attempted to access invalid address"
  -- The checks look at the aligned address, the new area starts at the given one.
  let mappedAddr := alignUp virtualAddr 0x10000
  let (_, vma) ← s.vmaMap.findVMA mappedAddr
  if vma.type ≠ .poolReserved then
    return (s, .error .EINVAL)
  if !vma.contains mappedAddr size then
    return (s, .error .EINVAL)
  if s.poolBudget ≤ size then
    return (s, .error .ENOMEM)
  let (map, newVmaHandle) ← s.vmaMap.carveVMA virtualAddr size
  let (dmemMap, physAreas, remainingSize) ← PhysMap.takeBacking .pooled
    (fun area => { area with dmaType := .committed, memoryType := mtype }) s.dmemMap size
  assertMsg (remainingSize = 0) "Failed to commit pooled memory"
  let map := map.modify newVmaHandle (markPooled prot physAreas)
  return ({ s with dmemMap, vmaMap := (VMAMap.mergeAdjacent map newVmaHandle).1,
                   poolBudget := s.poolBudget - size }, .ok ())

/-- The search `PoolDecommit` starts with. It looks only at the areas that end
    inside the range. -/
def decommitSearch (endAddr : Nat) : List (Nat × VirtualMemoryArea) → Bool
  | [] => true
  | (_, vma) :: rest =>
    if vma.base + vma.size ≤ endAddr then
      if vma.type ≠ .poolReserved && vma.type ≠ .pooled then false
      else decommitSearch endAddr rest
    else true

/-- Re-pool the direct memory behind a part of a pooled area. -/
def repoolBacking (s : MemoryManager) (vma : VirtualMemoryArea) (startInVma sizeInVma : Nat) :
    Outcome MemoryManager := do
  if vma.type ≠ .pooled then
    return s
  let pieces ← piecesFrom vma.physAreas startInVma
  let (dmemMap, sizeToFree) ← retypeBacking (fun area => { area with dmaType := .pooled })
    startInVma s.dmemMap pieces sizeInVma
  assertMsg (sizeToFree = 0) "Failed to decommit pooled memory"
  return { s with dmemMap, poolBudget := U64.add s.poolBudget sizeInVma }

/-- Mark region as pool reserved. -/
def markPoolReserved (vma : VirtualMemoryArea) : VirtualMemoryArea :=
  { vma with type := .poolReserved, prot := .noAccess, disallowMerge := false, name := "anon",
             physAreas := ∅ }

def poolDecommitLoop : Nat → MemoryManager → Nat → Nat → Outcome MemoryManager
  | 0, _, _, _ => throw .diverges
  | fuel + 1, s, currentAddr, remainingSize => do
    if remainingSize = 0 then
      return s
    let (_, vmaBase) ← s.vmaMap.findVMA currentAddr
    let startInVma := U64.sub currentAddr vmaBase.base
    let sizeInVma := min remainingSize (U64.sub vmaBase.size startInVma)
    let s ← s.repoolBacking vmaBase startInVma sizeInVma
    -- Mark region as pool reserved and attempt to coalesce it with neighbours.
    let (map, newIt) ← s.vmaMap.carveVMA currentAddr sizeInVma
    let map := map.modify newIt markPoolReserved
    poolDecommitLoop fuel { s with vmaMap := (VMAMap.mergeAdjacent map newIt).1 }
      (U64.add currentAddr sizeInVma) (remainingSize - sizeInVma)

def poolDecommit (s : MemoryManager) (virtualAddr size : Nat) :
    Outcome (MemoryManager × Except OrbisError Unit) := do
  assertMsg (← isValidMapping s.vmaMap virtualAddr size) "Attempted to access invalid address"
  let (it, _) ← s.vmaMap.findVMA virtualAddr
  if !decommitSearch (U64.add virtualAddr size) (s.vmaMap.startingAt it) then
    return (s, .error .EINVAL)
  let s ← s.poolDecommitLoop (size + 1) virtualAddr size
  return (s, .ok ())

/-! ## Mapping -/

/-- The loop of `CreateArea` that unmaps what a fixed mapping overwrites. A turn
    that unmaps nothing is repeated for ever. -/
def overwriteLoop : Nat → MemoryManager → VirtualMemoryArea → Nat → Nat → Outcome MemoryManager
  | 0, _, _, _, _ => throw .diverges
  | fuel + 1, s, vma, unmapAddr, unmapSize => do
    if unmapSize = 0 then
      return s
    let (s, unmapped) ← s.unmapBytesFromEntry unmapAddr vma unmapSize
    let unmapAddr := U64.add unmapAddr unmapped
    let (_, vma) ← s.vmaMap.findVMA unmapAddr
    overwriteLoop fuel s vma unmapAddr (unmapSize - unmapped)

def createArea (s : MemoryManager) (virtualAddr size : Nat) (prot : MemoryProt)
    (flags : MemoryMapFlags) (type : VMAType) (name : String) : Outcome (MemoryManager × Nat) := do
  let (_, vma) ← s.vmaMap.findVMA virtualAddr
  let s ← (if flags.has .fixed then s.overwriteLoop (size + 1) vma virtualAddr size
    else pure s : Outcome MemoryManager)
  let (_, vma) ← s.vmaMap.findVMA virtualAddr
  assertMsg vma.isFree "VMA to map is not free"
  let (map, newVmaHandle) ← s.vmaMap.carveVMA virtualAddr size
  let map := map.modify newVmaHandle fun vma =>
    { vma with disallowMerge := flags.has .noCoalesce, prot := prot.appendRead, name, type,
               physAreas := ∅ }
  return ({ s with vmaMap := map }, newVmaHandle)

/-- The checks of `MapMemory` on the areas of the requested physical range. -/
def checkDmemAreas (validateDmem : Bool) (endAddr : Nat) :
    List (Nat × PhysicalMemoryArea) → Option OrbisError
  | [] => none
  | (_, area) :: rest =>
    if area.base < endAddr then
      -- If any requested dmem area is not allocated, return an error.
      if area.dmaType ≠ .allocated && area.dmaType ≠ .mapped then some .ENOMEM
      -- If we need to perform extra validation, then check for Mapped dmem areas too.
      else if validateDmem && area.dmaType = .mapped then some .EBUSY
      else checkDmemAreas validateDmem endAddr rest
    else none

def checkPhysRange (s : MemoryManager) (size : Nat) (validateDmem : Bool) (physAddr : Nat) :
    Outcome (Option OrbisError) := do
  if physAddr = U64.max then
    return none
  if s.totalDirectSize < U64.add physAddr size then
    return some .ENOMEM
  let (k, _) ← deref (s.dmemMap.floor? physAddr)
  return checkDmemAreas validateDmem (U64.add physAddr size) (s.dmemMap.startingAt k)

/-- Where `MapMemory` and `MapFile` put a mapping: at the given address when it is
    fixed, else where `SearchFree` finds room. -/
def chooseAddress (env : Environment) (s : MemoryManager) (virtualAddr size : Nat)
    (flags : MemoryMapFlags) (alignment : Nat) : Outcome (Except OrbisError Nat) := do
  if flags.has .fixed && flags.has .noOverwrite then
    if !(← isValidMapping s.vmaMap virtualAddr size) then
      return .error .ENOMEM
    let (_, vma) ← s.vmaMap.findVMA virtualAddr
    let remainingSize := U64.sub (vma.base + vma.size) virtualAddr
    if !vma.isFree || remainingSize < size then
      return .error .ENOMEM
    return .ok virtualAddr
  else if !flags.has .fixed then
    let virtualAddr := if virtualAddr = 0 then DEFAULT_MAPPING_BASE else virtualAddr
    let virtualAddr ← searchFree env s.vmaMap virtualAddr size alignment
    if virtualAddr = U64.max then
      return .error .ENOMEM
    return .ok virtualAddr
  else
    return .ok virtualAddr

/-- The checks of `MapMemory`, which end with an error or with an address. -/
def mapMemoryChecks (env : Environment) (s : MemoryManager) (virtualAddr size : Nat)
    (flags : MemoryMapFlags) (type : VMAType) (validateDmem : Bool) (physAddr alignment : Nat) :
    Outcome (Except OrbisError Nat) := do
  let needsSectionAlignment := env.isLegacyBackend && type = .direct
  if needsSectionAlignment && physAddr ≠ U64.max && physAddr % 0x10000 ≠ 0 then
    return .error .EINVAL
  if needsSectionAlignment && flags.has .fixed && virtualAddr % 0x10000 ≠ 0 then
    return .error .EINVAL
  if type = .flexible && U64.add s.flexibleUsage size > s.totalFlexibleSize then
    return .error .EINVAL
  match ← checkPhysRange s size validateDmem physAddr with
  | some e => return .error e
  | none =>
    let alignment := if alignment > 0 then alignment else 0x4000
    let alignment := if needsSectionAlignment then max alignment 0x10000 else alignment
    chooseAddress env s virtualAddr size flags alignment

/-- The physical memory of a new area: the state and the physical areas. Only
    flexible and direct areas get any here. -/
def mapBacking (s : MemoryManager) (size : Nat) (type : VMAType) (physAddr : Nat) :
    Outcome (MemoryManager × PhysMap) := do
  match type with
  | .flexible =>
    let (fmemMap, physAreas, remainingSize) ← PhysMap.takeBacking .free
      (fun area => { area with dmaType := .flexible }) s.fmemMap size
    assertMsg (remainingSize = 0) "Failed to map physical memory"
    return ({ s with fmemMap, flexibleUsage := U64.add s.flexibleUsage size }, physAreas)
  | .direct =>
    let (dmemMap, physAreas) ← PhysMap.takeDirect s.dmemMap physAddr size
    return ({ s with dmemMap }, physAreas)
  | _ => return (s, ∅)

/-- What `MapMemory` does after its checks. -/
def mapMemoryAt (env : Environment) (s : MemoryManager) (virtualAddr size : Nat)
    (prot : MemoryProt) (flags : MemoryMapFlags) (type : VMAType) (name : String)
    (physAddr : Nat) : Outcome MemoryManager := do
  let (s, newVmaHandle) ← s.createArea virtualAddr size prot flags type name
  let (s, physAreas) ← s.mapBacking size type physAddr
  let map := s.vmaMap.modify newVmaHandle fun vma => { vma with physAreas }
  -- Direct memory mappings only coalesce on SDK version 2.00 or later.
  if type ≠ .direct ∨ env.sdkVersion ≥ FW_200 then
    return { s with vmaMap := (VMAMap.mergeAdjacent map newVmaHandle).1 }
  else
    return { s with vmaMap := map }

def mapMemory (env : Environment) (s : MemoryManager) (virtualAddr size : Nat)
    (prot : MemoryProt) (flags : MemoryMapFlags) (type : VMAType) (name : String)
    (validateDmem : Bool) (physAddr alignment : Nat) :
    Outcome (MemoryManager × Except OrbisError Nat) := do
  match ← mapMemoryChecks env s virtualAddr size flags type validateDmem physAddr alignment with
  | .error e => return (s, .error e)
  | .ok mappedAddr =>
    let s ← s.mapMemoryAt env mappedAddr size prot flags type name physAddr
    return (s, .ok mappedAddr)

/-- What `MapFile` reads of an open file. -/
structure MappableFile where
  isRegular : Bool
  hasHandle : Bool
  /-- The file on the host, if there is one: whether it was opened for writing. -/
  hostFile : Option Bool
deriving DecidableEq, Repr

def mapFile (env : Environment) (s : MemoryManager) (virtualAddr size : Nat) (prot : MemoryProt)
    (flags : MemoryMapFlags) (fd : Int) (file : Option MappableFile) :
    Outcome (MemoryManager × Except OrbisError Nat) := do
  match file with
  | none => return (s, .error .EBADF)
  | some file =>
    if !file.isRegular then
      return (s, .error .EBADF)
    let prot := prot.appendRead
    let prot ← (match file.hasHandle, file.hostFile with
      -- Non-host backends are read-only
      | true, none => pure (prot &&& ~~~MemoryProt.cpuWrite)
      | false, none => throw .undefined
      | _, some writable => pure (if writable then prot else prot &&& ~~~MemoryProt.cpuWrite) :
        Outcome MemoryProt)
    assertMsg (prot < MemoryProt.gpuRead) "Files cannot be mapped to GPU memory"
    let prot := prot &&& ~~~MemoryProt.cpuExec
    match ← chooseAddress env s virtualAddr size flags
      (if env.isLegacyBackend then 0x10000 else 0x4000) with
    | .error e => return (s, .error e)
    | .ok mappedAddr =>
      let (s, newVmaHandle) ← s.createArea mappedAddr size prot flags .file "anon"
      let map := s.vmaMap.modify newVmaHandle fun vma => { vma with fd }
      return ({ s with vmaMap := map }, .ok mappedAddr)

/-! ## Protection, memory types and names -/

/-- `ProtectBytes`. The area is passed by reference: `vmaHandle` is the entry that holds it. -/
def protectBytes (s : MemoryManager) (addr vmaHandle : Nat) (vmaBase : VirtualMemoryArea)
    (size : Nat) (prot : MemoryProt) : Outcome (MemoryManager × Nat) := do
  let startInVma := U64.sub addr vmaBase.base
  let adjustedSize := min (U64.sub vmaBase.size startInVma) size
  -- On PS4, protecting freed memory does nothing.
  if vmaBase.type = .free ∨ vmaBase.type = .poolReserved then
    return (s, adjustedSize)
  let prot := prot.appendRead
  -- On PS4, execute permissions are hidden from direct memory and file mappings.
  let prot := if vmaBase.type = .direct ∨ vmaBase.type = .pooled ∨ vmaBase.type = .file then
    prot &&& ~~~MemoryProt.cpuExec else prot
  let (map, newIt) ← s.vmaMap.carveVMA addr adjustedSize
  let map := map.modify newIt fun vma => { vma with prot }
  let map := (VMAMap.mergeAdjacent map newIt).1
  -- The type is read once more, to see whether the mapping is reserved only.
  let _ ← deref (map.find? vmaHandle)
  return ({ s with vmaMap := map }, adjustedSize)

def protectLoop (prot : MemoryProt) : Nat → MemoryManager → Nat → Nat → Nat → Outcome MemoryManager
  | 0, _, _, _, _ => throw .diverges
  | fuel + 1, s, addr, size, protectedBytes => do
    if protectedBytes < size then
      let (vmaHandle, vmaBase) ← s.vmaMap.findVMA (U64.add addr protectedBytes)
      -- Account for potential gaps in memory map.
      let protectedBytes := if vmaBase.base > U64.add addr protectedBytes then
        U64.add protectedBytes (vmaBase.base - U64.add addr protectedBytes) else protectedBytes
      let (s, result) ← s.protectBytes (U64.add addr protectedBytes) vmaHandle vmaBase
        (U64.sub size protectedBytes) prot
      -- The result is signed there; a negative one is returned as an error.
      if result ≥ 2 ^ 63 then return s
      else protectLoop prot fuel s addr size (U64.add protectedBytes result)
    else return s

/-- `Protect`. The restricted flags it computes are not the ones it passes on. -/
def protect (s : MemoryManager) (addr size : Nat) (prot : MemoryProt) : Outcome MemoryManager := do
  if size = 0 then
    return s
  assertMsg (← isValidMapping s.vmaMap addr size) "Attempted to access invalid address"
  protectLoop prot (size + 1) s addr size 0

/-- The walk over the areas of a range that `SetDirectMemoryType` and
    `NameVirtualRange` share. `body` changes one area and returns its handle. -/
def walkAreas (body : MemoryManager → Nat → VirtualMemoryArea → Nat → Nat →
      Outcome (MemoryManager × Nat)) :
    Nat → MemoryManager → Option Nat → Nat → Nat → Outcome MemoryManager
  | 0, _, _, _, _ => throw .diverges
  | _ + 1, s, none, _, _ => return s
  | fuel + 1, s, some handle, currentAddr, remainingSize => do
    if remainingSize = 0 then
      return s
    let vma ← deref (s.vmaMap.find? handle)
    let startInVma := U64.sub currentAddr vma.base
    let sizeInVma := min remainingSize (U64.sub vma.size startInVma)
    let (s, handle) ← body s handle vma currentAddr sizeInVma
    let currentAddr := U64.add currentAddr sizeInVma
    -- Check if VMA can be merged with adjacent areas after modifications.
    let (map, handle) := VMAMap.mergeAdjacent s.vmaMap handle
    let vma ← deref (map.find? handle)
    -- If we're now in the next VMA, then go to the next handle.
    let next := if vma.base + vma.size ≤ currentAddr then (map.next? handle).map Prod.fst
      else some handle
    walkAreas body fuel { s with vmaMap := map } next currentAddr (remainingSize - sizeInVma)

/-- Set the memory type of every piece behind an area. -/
def setPieceTypes (memoryType : Int) (vma : VirtualMemoryArea) : VirtualMemoryArea :=
  { vma with physAreas := vma.physAreas.mapVal fun area => { area with memoryType } }

def setTypeOfArea (memoryType : Int) (s : MemoryManager) (handle : Nat) (vma : VirtualMemoryArea)
    (currentAddr sizeInVma : Nat) : Outcome (MemoryManager × Nat) := do
  -- Direct and Pooled mappings are the only ones with a memory type.
  if vma.type = .direct ∨ vma.type = .pooled then
    let (map, handle) ← s.vmaMap.carveVMA currentAddr sizeInVma
    let vma ← deref (map.find? handle)
    let dmemMap ← vma.physAreas.entries.foldlM (fun (dmemMap : PhysMap) e => do
      let (dmemMap, dmemHandle) ← dmemMap.carvePhysArea e.2.base e.2.size
      return dmemMap.modify dmemHandle fun area => { area with memoryType }) s.dmemMap
    return ({ s with dmemMap, vmaMap := map.modify handle (setPieceTypes memoryType) }, handle)
  else
    return (s, handle)

def setDirectMemoryType (s : MemoryManager) (addr size : Nat) (memoryType : Int) :
    Outcome MemoryManager := do
  assertMsg (← isValidMapping s.vmaMap addr size) "Attempted to access invalid address"
  let (handle, _) ← s.vmaMap.findVMA addr
  walkAreas (setTypeOfArea memoryType) (size + 1) s (some handle) addr size

def nameArea (name : String) (s : MemoryManager) (handle : Nat) (vma : VirtualMemoryArea)
    (currentAddr sizeInVma : Nat) : Outcome (MemoryManager × Nat) := do
  -- Nothing needs to be done to free VMAs
  if vma.isFree then
    return (s, handle)
  let (map, handle) ← (if sizeInVma < vma.size then s.vmaMap.carveVMA currentAddr sizeInVma
    else pure (s.vmaMap, handle) : Outcome (VMAMap × Nat))
  return ({ s with vmaMap := map.modify handle fun vma => { vma with name } }, handle)

def nameVirtualRange (s : MemoryManager) (virtualAddr size : Nat) (name : String) :
    Outcome MemoryManager := do
  let alignedSize := alignUp size 0x4000
  let alignedAddr := alignDown virtualAddr 0x4000
  assertMsg (← isValidMapping s.vmaMap alignedAddr alignedSize)
    "Attempted to access invalid address"
  let (handle, _) ← s.vmaMap.findVMA alignedAddr
  walkAreas (nameArea name) (alignedSize + 1) s (some handle) alignedAddr alignedSize

end MemoryManager

/-! ## Calls -/

/-- A call of the memory manager. -/
inductive Op where
  | setupMemoryRegions (flexibleSize : UInt64) (useExtendedMem1 useExtendedMem2 : Bool)
  | poolExpand (searchStart searchEnd size alignment : UInt64)
  | allocate (searchStart searchEnd size alignment : UInt64) (memoryType : Int)
  | free (physAddr size : UInt64) (isChecked : Bool)
  | poolCommit (virtualAddr size : UInt64) (prot : MemoryProt) (mtype : Int)
  | mapMemory (virtualAddr size : UInt64) (prot : MemoryProt) (flags : MemoryMapFlags)
      (type : VMAType) (name : String) (validateDmem : Bool) (physAddr alignment : UInt64)
  | mapFile (virtualAddr size : UInt64) (prot : MemoryProt) (flags : MemoryMapFlags) (fd : Int)
      (file : Option MemoryManager.MappableFile)
  | poolDecommit (virtualAddr size : UInt64)
  | unmapMemory (virtualAddr size : UInt64)
  | protect (addr size : UInt64) (prot : MemoryProt)
  | setDirectMemoryType (addr size : UInt64) (memoryType : Int)
  | nameVirtualRange (virtualAddr size : UInt64) (name : String)

/-- What a call returns: a physical address, which is `u64(-1)` for a failure, or
    nothing, the address of a mapping, or an error code. -/
inductive Reply where
  | physical (addr : Nat)
  | ok
  | mapped (addr : Nat)
  | error (e : OrbisError)
deriving DecidableEq, Repr

namespace Reply

def ofUnit : Except OrbisError Unit → Reply
  | .ok () => .ok
  | .error e => .error e

def ofAddress : Except OrbisError Nat → Reply
  | .ok addr => .mapped addr
  | .error e => .error e

end Reply

namespace MemoryManager

/-- One call. -/
def step (env : Environment) (s : MemoryManager) : Op → Outcome (MemoryManager × Reply)
  | .setupMemoryRegions flexibleSize ext1 ext2 => do
    return (← s.setupMemoryRegions env flexibleSize.toNat ext1 ext2, .ok)
  | .poolExpand searchStart searchEnd size alignment => do
    let (s, a) ← s.poolExpand searchStart.toNat searchEnd.toNat size.toNat alignment.toNat
    return (s, .physical a)
  | .allocate searchStart searchEnd size alignment memoryType => do
    let (s, a) ← s.allocate env searchStart.toNat searchEnd.toNat size.toNat alignment.toNat
      memoryType
    return (s, .physical a)
  | .free physAddr size isChecked => do
    let (s, r) ← s.free physAddr.toNat size.toNat isChecked
    return (s, .ofUnit r)
  | .poolCommit virtualAddr size prot mtype => do
    let (s, r) ← s.poolCommit virtualAddr.toNat size.toNat prot mtype
    return (s, .ofUnit r)
  | .mapMemory virtualAddr size prot flags type name validateDmem physAddr alignment => do
    let (s, r) ← s.mapMemory env virtualAddr.toNat size.toNat prot flags type name validateDmem
      physAddr.toNat alignment.toNat
    return (s, .ofAddress r)
  | .mapFile virtualAddr size prot flags fd file => do
    let (s, r) ← s.mapFile env virtualAddr.toNat size.toNat prot flags fd file
    return (s, .ofAddress r)
  | .poolDecommit virtualAddr size => do
    let (s, r) ← s.poolDecommit virtualAddr.toNat size.toNat
    return (s, .ofUnit r)
  | .unmapMemory virtualAddr size => do
    let (s, r) ← s.unmapMemory virtualAddr.toNat size.toNat
    return (s, .ofUnit r)
  | .protect addr size prot => do
    return (← s.protect addr.toNat size.toNat prot, .ok)
  | .setDirectMemoryType addr size memoryType => do
    return (← s.setDirectMemoryType addr.toNat size.toNat memoryType, .ok)
  | .nameVirtualRange virtualAddr size name => do
    return (← s.nameVirtualRange virtualAddr.toNat size.toNat name, .ok)

/-- A sequence of calls, up to the first that stops. -/
def run (env : Environment) (s : MemoryManager) : List Op → Outcome MemoryManager
  | [] => return s
  | op :: ops => do
    let (s, _) ← s.step env op
    run env s ops

end MemoryManager

/-- What the callers have checked before they make a call: the `sceKernel*` functions
    of `core/libraries/kernel/memory.cpp` for the sizes and addresses of direct and
    pooled memory. No caller maps memory as free or as pooled. -/
def Op.Issued : Op → Prop
  | .poolExpand searchStart searchEnd size alignment =>
    searchStart < searchEnd ∧ 0 < size ∧ size.toNat % 0x10000 = 0 ∧
      alignment.toNat % 0x10000 = 0 ∧ size ≤ searchEnd - searchStart
  | .allocate searchStart searchEnd size alignment memoryType =>
    searchEnd.toNat < 2 ^ 63 ∧ searchStart < searchEnd ∧ 0 < size ∧ size.toNat % 0x4000 = 0 ∧
      alignment.toNat % 0x4000 = 0 ∧ size ≤ searchEnd - searchStart ∧ memoryType ≤ 10
  | .free physAddr size _ =>
    physAddr.toNat % 0x4000 = 0 ∧ 0 < size ∧ size.toNat % 0x4000 = 0
  | .poolCommit virtualAddr size prot _ =>
    virtualAddr ≠ 0 ∧ 0 < size ∧ size.toNat % 0x10000 = 0 ∧ prot &&& MemoryProt.cpuExec = 0
  | .poolDecommit virtualAddr size =>
    virtualAddr ≠ 0 ∧ 0 < size ∧ size.toNat % 0x10000 = 0
  | .mapMemory _ _ _ _ type _ _ _ _ => type ≠ .free ∧ type ≠ .pooled
  | _ => True

instance : DecidablePred Op.Issued := fun op => by
  cases op <;> simp only [Op.Issued] <;> infer_instance

end Core
