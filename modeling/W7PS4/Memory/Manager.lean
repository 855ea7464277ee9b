-- SUMMARY: The memory manager: its state, the constructor, address lookups, and every operation on direct, flexible and pooled memory.
import W7PS4.Memory.VmaMap

/-!
# The memory manager

`MemoryManager` keeps three maps: `dmem_map` and `fmem_map` for physical memory,
`vma_map` for virtual memory. The operations below are those of
`core/memory.cpp`. They are pure functions from the state to the next one.

The mappings in the host's address space, the GPU's copy of the mappings and
the contents of memory are not part of the state. The calls the manager makes
to keep them up to date change none of the maps.
-/

namespace Core

def oneMB : Nat := 1024 * 1024

def ORBIS_KERNEL_TOTAL_MEM : Nat := 5248 * oneMB
def ORBIS_KERNEL_TOTAL_MEM_PRO : Nat := 5888 * oneMB
def ORBIS_KERNEL_TOTAL_MEM_DEV : Nat := 6656 * oneMB
def ORBIS_KERNEL_TOTAL_MEM_DEV_PRO : Nat := 7936 * oneMB
def ORBIS_KERNEL_FLEXIBLE_MEMORY_BASE : Nat := 64 * oneMB
def ORBIS_KERNEL_FLEXIBLE_MEMORY_SIZE : Nat := 512 * oneMB

def DEFAULT_MAPPING_BASE : Nat := 0x200000000

/-- `Common::ElfInfo::FW_200`. -/
def FW_200 : Int := 0x2000000

/-- The error codes the memory manager returns. -/
inductive OrbisError where
  | EINVAL | ENOMEM | EBUSY | ENOENT | EBADF
deriving DecidableEq, Repr

/-- `MemoryMapFlags`, a set of flags. -/
abbrev MemoryMapFlags := BitVec 32

namespace MemoryMapFlags

def fixed : MemoryMapFlags := 0x10
def noOverwrite : MemoryMapFlags := 0x80
def noCoalesce : MemoryMapFlags := 0x400000

/-- `True(flags & flag)`. -/
def has (flags flag : MemoryMapFlags) : Bool := flags &&& flag != 0

end MemoryMapFlags

/-- What the manager reads of the host and of the settings. -/
structure Environment where
  /-- `AddressSpace::IsLegacyBackend`. -/
  isLegacyBackend : Bool
  systemManagedVirtualBase : Nat
  systemManagedVirtualBase_lt : systemManagedVirtualBase < 2 ^ 64
  userVirtualBase : Nat
  userVirtualSize : Nat
  /-- `AddressSpace::GetUsableRegions`, an interval set: its intervals are not
      empty, and two that touch have been joined. A process has the lower half of
      the address space at most. -/
  usableRegions : List (Nat × Nat)
  usable_nonempty : ∀ r ∈ usableRegions, r.1 < r.2 ∧ r.2 < 2 ^ 63
  usable_apart : usableRegions.Pairwise fun r r' => r.2 < r'.1
  /-- The settings for additional memory, in MiB. -/
  extraDmemInMBytes : Nat
  extraFmemInMBytes : Nat
  extra_lt : extraDmemInMBytes < 2 ^ 31 ∧ extraFmemInMBytes < 2 ^ 31
  isNeo : Bool
  isDevKit : Bool
  sdkVersion : Int

namespace Environment

/-- `SYSTEM_MANAGED_MIN`, where the system-managed region begins at the lowest. -/
theorem systemManagedMin_lt : (0x400000 : Nat) < 2 ^ 64 := by decide

theorem noExtra_lt : (0 : Nat) < 2 ^ 31 ∧ (0 : Nat) < 2 ^ 31 := by decide

end Environment

structure MemoryManager where
  dmemMap : PhysMap
  fmemMap : PhysMap
  vmaMap : VMAMap
  totalDirectSize : Nat
  totalFlexibleSize : Nat
  flexibleUsage : Nat
  poolBudget : Nat
deriving DecidableEq

namespace MemoryManager

/-! ## Construction -/

/-- `VirtualMemoryArea{base, size}`: the other fields have their defaults. -/
def freeArea (base size : Nat) : VirtualMemoryArea :=
  { base, size, physAreas := ∅, type := .free, prot := .noAccess, name := "", fd := 0,
    disallowMerge := false }

/-- The total size of the backing as the constructor computes it. -/
def constructorTotalSize (env : Environment) : Nat :=
  ORBIS_KERNEL_TOTAL_MEM_DEV_PRO + env.extraDmemInMBytes * oneMB + env.extraFmemInMBytes * oneMB

/-- The constructor. The setting for additional flexible memory is added to
    `total_flexible_size` as it is, without a factor. -/
def init (env : Environment) : MemoryManager :=
  let totalSize := constructorTotalSize env
  let totalFlexibleSize := ORBIS_KERNEL_FLEXIBLE_MEMORY_SIZE + env.extraFmemInMBytes
  { vmaMap := env.usableRegions.foldl
      (fun map region => map.emplace region.1 (freeArea region.1 (region.2 - region.1))) ∅
    totalDirectSize := totalSize
    dmemMap := StdMap.emplace ∅ 0 { base := 0, size := totalSize, memoryType := 0, dmaType := .free }
    totalFlexibleSize
    fmemMap := StdMap.emplace ∅ totalSize
      { base := totalSize, size := totalFlexibleSize, memoryType := 0, dmaType := .free }
    flexibleUsage := 0
    poolBudget := 0 }

/-- The total memory `SetupMemoryRegions` starts from. -/
def setupTotalMem (env : Environment) : Nat :=
  if env.isDevKit then
    if env.isNeo then ORBIS_KERNEL_TOTAL_MEM_DEV_PRO else ORBIS_KERNEL_TOTAL_MEM_DEV
  else if env.isNeo then ORBIS_KERNEL_TOTAL_MEM_PRO else ORBIS_KERNEL_TOTAL_MEM

def setupMemoryRegions (env : Environment) (s : MemoryManager) (flexibleSize : Nat)
    (useExtendedMem1 useExtendedMem2 : Bool) : Outcome MemoryManager := do
  let totalSize := setupTotalMem env + env.extraDmemInMBytes * oneMB +
    env.extraFmemInMBytes * oneMB
  let flexibleSize := U64.add flexibleSize (env.extraFmemInMBytes * oneMB)
  let totalSize := if !useExtendedMem1 && env.isNeo then totalSize - 256 * oneMB else totalSize
  let totalSize := if !useExtendedMem2 && !env.isNeo then totalSize - 128 * oneMB else totalSize
  -- Update stored totals
  let totalFlexibleSize := U64.sub flexibleSize ORBIS_KERNEL_FLEXIBLE_MEMORY_BASE
  assertMsg (totalFlexibleSize ≥ s.flexibleUsage) "Unable to shrink flexible memory size"
  let oldDirectSize := s.totalDirectSize
  let totalDirectSize := U64.sub totalSize flexibleSize
  -- Limit direct memory space to match actual limit
  let (lastHandle, lastDmemArea) ← deref (s.dmemMap.floor? totalDirectSize)
  assertMsg (lastDmemArea.dmaType = .free &&
    lastDmemArea.size ≥ U64.sub oldDirectSize totalDirectSize) "Unable to shrink dmem map"
  let dmemMap := s.dmemMap.modify lastHandle fun area =>
    { area with size := area.size - U64.sub oldDirectSize totalDirectSize }
  return { s with dmemMap, totalDirectSize, totalFlexibleSize }

/-! ## Address lookups -/

/-- The loop of `IsValidMapping` over the areas from the one `FindVMA` returns. -/
def isValidMappingLoop : List (Nat × VirtualMemoryArea) → Nat → Nat → Bool
  | [], _, sizeToValidate => sizeToValidate = 0
  | (_, vma) :: rest, addrToCheck, sizeToValidate =>
    if sizeToValidate = 0 then true
    else
      let offsetInVma := U64.sub addrToCheck vma.base
      let sizeInVma := min (U64.sub vma.size offsetInVma) sizeToValidate
      let sizeToValidate := sizeToValidate - sizeInVma
      let addrToCheck := U64.add addrToCheck sizeInVma
      -- Make sure there isn't any gap here
      if sizeToValidate > 0 && rest.head?.any (fun e => addrToCheck ≠ e.2.base) then false
      else isValidMappingLoop rest addrToCheck sizeToValidate

def isValidMapping (map : VMAMap) (virtualAddr size : Nat) : Outcome Bool := do
  let (endKey, endVma) ← deref map.last?
  let (firstKey, _) ← deref map.first?
  if virtualAddr < firstKey || virtualAddr ≥ endKey + endVma.size then
    return false
  if size = 0 then
    return true
  let (vmaHandle, _) ← map.findVMA virtualAddr
  return isValidMappingLoop (map.startingAt vmaHandle) virtualAddr size

/-- The loop of `SearchFree` over the areas after the first candidate. -/
def searchFreeLoop (maxSearchAddress size alignment : Nat) :
    List (Nat × VirtualMemoryArea) → Nat
  | [] => U64.max
  | (_, vma) :: rest =>
    if !vma.isFree then searchFreeLoop maxSearchAddress size alignment rest
    else
      let virtualAddr := alignUp vma.base alignment
      -- Sometimes the alignment itself might be larger than the VMA.
      if virtualAddr > vma.base + vma.size then searchFreeLoop maxSearchAddress size alignment rest
      else if virtualAddr ≥ maxSearchAddress then U64.max
      else if vma.base + vma.size - virtualAddr ≥ size then virtualAddr
      else searchFreeLoop maxSearchAddress size alignment rest

/-- `SearchFree`. The alignment is a `u32` there: what `MapMemory` passes is cut
    to 32 bits, and aligning to zero divides by it. -/
def searchFree (env : Environment) (map : VMAMap) (virtualAddr size alignment : Nat) :
    Outcome Nat := do
  let alignment := alignment % 2 ^ 32
  let maxSearchAddress := U64.add env.userVirtualBase env.userVirtualSize
  let virtualAddr := max virtualAddr env.systemManagedVirtualBase
  if !(← isValidMapping map virtualAddr 0) then
    return U64.max
  if alignment = 0 then
    throw .undefined
  let virtualAddr := alignUp virtualAddr alignment
  let (it, vma) ← map.findVMA virtualAddr
  -- If the VMA is free and contains the requested mapping we are done.
  if vma.isFree && vma.contains virtualAddr size then
    return virtualAddr
  return searchFreeLoop maxSearchAddress size alignment (map.startingAt it).tail

/-! ## Unmapping -/

/-- The loop that gives back the physical memory behind a part of an area. `f` is
    the change to each physical area; the size that is left over is returned. -/
def retypeBacking (f : PhysicalMemoryArea → PhysicalMemoryArea) (startInVma : Nat) :
    PhysMap → List (Nat × PhysicalMemoryArea) → Nat → Outcome (PhysMap × Nat)
  | map, [], sizeToFree => return (map, sizeToFree)
  | map, (offset, area) :: rest, sizeToFree => do
    if sizeToFree = 0 then
      return (map, sizeToFree)
    let dmaOffset := max offset startInVma - offset
    let physAddr := U64.add area.base dmaOffset
    let sizeInDma := min sizeToFree (U64.sub area.size dmaOffset)
    let map ← map.retype physAddr sizeInDma f
    retypeBacking f startInVma map rest (sizeToFree - sizeInDma)

/-- The physical areas from the one that holds offset `startInVma`. -/
def piecesFrom (areas : PhysMap) (startInVma : Nat) :
    Outcome (List (Nat × PhysicalMemoryArea)) := do
  let (offset, _) ← deref (areas.floor? startInVma)
  return areas.startingAt offset

/-- The part of `UnmapBytesFromEntry` that gives back physical memory. Only direct
    and flexible areas have any here. -/
def releaseBacking (s : MemoryManager) (vma : VirtualMemoryArea) (startInVma sizeInVma : Nat) :
    Outcome MemoryManager := do
  if vma.physAreas.entries.isEmpty then
    return s
  let pieces ← piecesFrom vma.physAreas startInVma
  match vma.type with
  | .direct =>
    let (dmemMap, sizeToFree) ← retypeBacking (fun area => { area with dmaType := .allocated })
      startInVma s.dmemMap pieces sizeInVma
    assertMsg (sizeToFree = 0) "Failed to unmap physical memory"
    return { s with dmemMap }
  | .flexible =>
    let (fmemMap, sizeToFree) ← retypeBacking (fun area => { area with dmaType := .free })
      startInVma s.fmemMap pieces sizeInVma
    assertMsg (sizeToFree = 0) "Failed to unmap physical memory"
    return { s with fmemMap, flexibleUsage := U64.sub s.flexibleUsage sizeInVma }
  | _ => return s

/-- Mark region as free. -/
def markFree (vma : VirtualMemoryArea) : VirtualMemoryArea :=
  { vma with type := .free, prot := .noAccess, physAreas := ∅, disallowMerge := false, name := "" }

def unmapBytesFromEntry (s : MemoryManager) (virtualAddr : Nat) (vmaBase : VirtualMemoryArea)
    (size : Nat) : Outcome (MemoryManager × Nat) := do
  let startInVma := U64.sub virtualAddr vmaBase.base
  let sizeInVma := min (U64.sub vmaBase.size startInVma) size
  if vmaBase.type = .free ∨ vmaBase.type = .pooled then
    return (s, sizeInVma)
  let s ← s.releaseBacking vmaBase startInVma sizeInVma
  -- Mark region as free and attempt to coalesce it with neighbours.
  let (map, newIt) ← s.vmaMap.carveVMA virtualAddr sizeInVma
  let map := map.modify newIt markFree
  return ({ s with vmaMap := (VMAMap.mergeAdjacent map newIt).1 }, sizeInVma)

/-- The loop of `UnmapMemoryImpl`. Every turn unmaps at least one byte, so `size`
    turns are enough. -/
def unmapMemoryImplLoop : Nat → MemoryManager → Nat → Nat → Nat → Outcome MemoryManager
  | 0, _, _, _, _ => throw .diverges
  | fuel + 1, s, virtualAddr, size, unmappedBytes => do
    let (_, vmaBase) ← s.vmaMap.findVMA (U64.add virtualAddr unmappedBytes)
    let (s, unmapped) ← s.unmapBytesFromEntry (U64.add virtualAddr unmappedBytes) vmaBase
      (size - unmappedBytes)
    assertMsg (unmapped > 0) "Failed to unmap memory, progress is impossible"
    let unmappedBytes := unmappedBytes + unmapped
    if unmappedBytes < size then unmapMemoryImplLoop fuel s virtualAddr size unmappedBytes
    else return s

def unmapMemoryImpl (s : MemoryManager) (virtualAddr size : Nat) : Outcome MemoryManager :=
  unmapMemoryImplLoop (size + 1) s virtualAddr size 0

def unmapMemory (s : MemoryManager) (virtualAddr size : Nat) :
    Outcome (MemoryManager × Except OrbisError Unit) := do
  if size = 0 then
    return (s, .ok ())
  -- Align address and size appropriately
  let virtualAddr := alignDown virtualAddr 0x4000
  let size := alignUp size 0x4000
  if !(← isValidMapping s.vmaMap virtualAddr size) then
    return (s, .error .EINVAL)
  let s ← s.unmapMemoryImpl virtualAddr size
  return (s, .ok ())

end MemoryManager

end Core
