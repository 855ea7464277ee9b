-- SUMMARY: The Windows address space: the region table, the placeholder views of the Windows 7 path, and the calls that change them.
import W7PS4.Lib.Coalesce
import W7PS4.Lib.Machine

/-!
# The Windows address space

`AddressSpace::Impl` keeps a table of regions, mapped or not, over the ranges it
reserved when it was built. On Windows 7 it also keeps a table of the placeholder
views that hold the parts of these ranges no section is mapped to. The model has the
two tables; the host calls that go with a change are taken to succeed.
-/

namespace Core

/-- `PAGE_NOACCESS` and `PAGE_READONLY`. -/
def PAGE_NOACCESS : Nat := 0x01
def PAGE_READONLY : Nat := 0x02

structure MemoryRegion where
  base : Nat
  /-- `PAddr(-1)` when there is no physical memory behind the region. -/
  physBase : Nat
  size : Nat
  prot : Nat
  fd : Int
  isMapped : Bool
deriving DecidableEq

/-- What the table says about one address. The physical address is missing for
    anonymous memory. -/
inductive RegionByte where
  | unmapped
  | mapped (phys : Option Nat) (prot : Nat) (fd : Int)
deriving DecidableEq

namespace MemoryRegion

def byte (region : MemoryRegion) (o : Nat) : RegionByte :=
  if region.isMapped then
    .mapped (if region.physBase = U64.max then none else some (U64.add region.physBase o))
      region.prot region.fd
  else .unmapped

instance : Area MemoryRegion RegionByte := ⟨size, byte⟩

@[simp] theorem area_size (r : MemoryRegion) : Area.size r = r.size := rfl

@[simp] theorem area_byte (r : MemoryRegion) (o : Nat) : Area.byte r o = r.byte o := rfl

/-- Read-only regular files are copied into anonymous placeholder pages. All other
    physical mappings need a real section view. -/
def isLegacySectionBacked (region : MemoryRegion) : Bool :=
  region.physBase ≠ U64.max && !(region.fd ≠ -1 && region.prot = PAGE_READONLY)

end MemoryRegion

abbrev RegionMap := StdMap Nat MemoryRegion

/-! ## The region table -/

namespace RegionMap

/-- Cut the region at `k` so that `[virtualAddr, virtualAddr + size)` is a region of its
    own. The part before keeps the entry. -/
def cutRegion (regions : RegionMap) (k : Nat) (region : MemoryRegion) (virtualAddr size : Nat) :
    Outcome RegionMap := do
  let regions :=
    if region.base ≠ virtualAddr then
      let baseOffset := U64.sub virtualAddr region.base
      (regions.insert k { region with size := baseOffset }).emplace virtualAddr
        { region with
          base := virtualAddr
          physBase := if region.isMapped then U64.add region.physBase baseOffset else U64.max
          size := U64.sub region.size baseOffset }
    else regions
  let target ← deref (regions.find? virtualAddr)
  if target.size ≠ size then
    return (regions.insert virtualAddr { target with size }).emplace (U64.add target.base size)
      { target with
        base := U64.add target.base size
        physBase := if target.isMapped then U64.add target.physBase size else U64.max
        size := U64.sub target.size size }
  else
    return regions

/-- `SplitRegion` with placeholder APIs. -/
def splitRegion (regions : RegionMap) (virtualAddr size : Nat) : Outcome RegionMap := do
  let (k, region) ← deref (regions.floor? virtualAddr)
  assertMsg (U64.add region.base region.size ≥ U64.add virtualAddr size)
    "Cannot fit region into one placeholder"
  assertMsg (!region.isMapped || region.physBase ≠ U64.max) "Cannot split unbacked mapping"
  regions.cutRegion k region virtualAddr size

/-- `SplitRegion` on Windows 7. Only a section view is split on the host. -/
def splitRegionLegacy (regions : RegionMap) (virtualAddr size : Nat) : Outcome RegionMap := do
  let (k, original) ← deref (regions.floor? virtualAddr)
  let originalEnd := U64.add original.base original.size
  let requestedEnd := U64.add virtualAddr size
  assertMsg (requestedEnd ≤ originalEnd) "Cannot fit region into one reservation"
  let regions ← regions.cutRegion k original virtualAddr size
  assertMsg (!(original.isMapped && original.isLegacySectionBacked) ||
      (original.base % 0x10000 = 0 && virtualAddr % 0x10000 = 0 &&
        (requestedEnd = originalEnd || requestedEnd % 0x10000 = 0)))
    "Windows 7 cannot split a section-backed mapping at a 16 KiB-only boundary"
  return regions

def canCoalesce (a b : MemoryRegion) : Bool :=
  !a.isMapped && !b.isMapped && U64.add a.base a.size = b.base

def coalesced (a b : MemoryRegion) : MemoryRegion := { a with size := U64.add a.size b.size }

/-- Join the region at `it` with the free ones before it. Every join erases an entry. -/
def coalescePrev : Nat → RegionMap → Nat → Outcome (RegionMap × Nat)
  | 0, _, _ => throw .diverges
  | fuel + 1, regions, it =>
    match regions.prev? it, regions.find? it with
    | some (j, prev), some region =>
      if canCoalesce prev region then
        coalescePrev fuel ((regions.insert j (coalesced prev region)).erase it) j
      else return (regions, it)
    | _, _ => return (regions, it)

/-- Join the region at `it` with the free ones after it. -/
def coalesceNext : Nat → RegionMap → Nat → Outcome RegionMap
  | 0, _, _ => throw .diverges
  | fuel + 1, regions, it =>
    match regions.find? it, regions.next? it with
    | some region, some (j, next) =>
      if canCoalesce region next then
        coalesceNext fuel ((regions.insert it (coalesced region next)).erase j) it
      else return regions
    | _, _ => return regions

/-- `CoalesceFreeRegions`. Both paths make the same change to the table. -/
def coalesceFreeRegions (regions : RegionMap) (virtualAddr : Nat) : Outcome RegionMap := do
  let (it, region) ← deref (regions.floor? virtualAddr)
  assertMsg (!region.isMapped) "Cannot coalesce mapped regions"
  let (regions, it) ← coalescePrev (regions.entries.length + 1) regions it
  coalesceNext (regions.entries.length + 1) regions it

end RegionMap

/-! ## The placeholder views of the Windows 7 path -/

/-- An entry of `legacy_placeholder_views`, which maps an address to a size. -/
structure LegacyView where
  size : Nat
deriving DecidableEq

instance : Area LegacyView Unit := ⟨LegacyView.size, fun _ _ => ()⟩

@[simp] theorem LegacyView.area_size (v : LegacyView) : Area.size v = v.size := rfl

abbrev LegacyViewMap := StdMap Nat LegacyView

namespace LegacyViewMap

/-- `LegacyAllocationGranularity`. -/
def granularity : Nat := 0x10000

def crossesSection : String := "Legacy placeholder range crosses a section mapping"

def noneCovers : String := "No legacy placeholder covers the range"

def unableToForm : String := "Unable to form legacy placeholder range"

def notRestorable : String := "Cannot restore a non-64 KiB legacy section view"

def alreadyExists : String := "Legacy placeholder already exists"

/-- The views after the one at `view` up to `endAddr`, which have to follow each other
    without a gap, and where the last one ends. -/
def viewsUpTo (views : LegacyViewMap) (endAddr : Nat) : Nat → Nat → Nat → Outcome (List Nat × Nat)
  | 0, _, _ => throw .diverges
  | fuel + 1, view, coveredEnd => do
    if coveredEnd < endAddr then
      match views.next? view with
      | none => throw (.assertion crossesSection)
      | some (next, v) =>
        assertMsg (next = coveredEnd) crossesSection
        let (rest, lastEnd) ← viewsUpTo views endAddr fuel next (next + v.size)
        return (next :: rest, lastEnd)
    else
      return ([], coveredEnd)

def mapLegacyPlaceholderView (base size : Nat) : Outcome Unit :=
  assertMsg (base % granularity = 0 && size % granularity = 0)
    "Legacy placeholder is not 64 KiB aligned"

def coalesceLegacyPlaceholderViews (views : LegacyViewMap) (base endAddr : Nat) :
    Outcome LegacyViewMap := do
  let (first, v) ← deref (views.floor? base)
  assertMsg (first + v.size > base) "No legacy placeholder contains address"
  let (rest, lastEnd) ← viewsUpTo views endAddr (views.entries.length + 1) first (first + v.size)
  if rest = [] then
    return views
  mapLegacyPlaceholderView first (lastEnd - first)
  return rest.foldl (fun views next => views.erase next) (views.insert first ⟨lastEnd - first⟩)

def ensureLegacyPlaceholderRange (views : LegacyViewMap) (base size : Nat) :
    Outcome LegacyViewMap := do
  let alignedBase := alignDown base granularity
  let alignedEnd := alignUp (U64.add base size) granularity
  let (first, v) ← deref (views.floor? alignedBase)
  assertMsg (first + v.size > alignedBase) noneCovers
  let (rest, _) ← viewsUpTo views alignedEnd (views.entries.length + 1) first (first + v.size)
  -- Coalesce only the views needed by this request.
  let views ← (if rest = [] then pure views
    else coalesceLegacyPlaceholderViews views alignedBase alignedEnd : Outcome LegacyViewMap)
  let (first, v) ← deref (views.floor? alignedBase)
  assertMsg (first + v.size ≥ alignedEnd) unableToForm
  return views

def replaceLegacyPlaceholderWithSection (views : LegacyViewMap) (base size : Nat) :
    Outcome LegacyViewMap := do
  assertMsg (base % granularity = 0 && size % granularity = 0)
    "Section-backed mappings on Windows 7 require 64 KiB virtual ranges"
  let views ← ensureLegacyPlaceholderRange views base size
  let (originalBase, v) ← deref (views.floor? base)
  let originalEnd := originalBase + v.size
  let requestedEnd := U64.add base size
  assertMsg (originalEnd ≥ requestedEnd)
    "Legacy placeholder does not contain requested section mapping"
  let prefixSize := base - originalBase
  let suffixSize := originalEnd - requestedEnd
  let views := if prefixSize ≠ 0 then views.insert originalBase ⟨prefixSize⟩ else views
  let views := if suffixSize ≠ 0 then views.emplace requestedEnd ⟨suffixSize⟩ else views
  let views := if prefixSize = 0 then views.erase originalBase else views
  if prefixSize ≠ 0 then
    mapLegacyPlaceholderView originalBase prefixSize
  if suffixSize ≠ 0 then
    mapLegacyPlaceholderView requestedEnd suffixSize
  return views

def prepareLegacyPlaceholder (views : LegacyViewMap) (base size : Nat) :
    Outcome LegacyViewMap := do
  assertMsg (base % granularity = 0 && size % granularity = 0) notRestorable
  assertMsg (views.find? base).isNone alreadyExists
  return views.emplace base ⟨size⟩

end LegacyViewMap

/-! ## The calls -/

/-- The ranges the host gave the emulator when the address space was built: free
    regions of the process, aligned to the allocation granularity. Two regions that
    `VirtualQuery` reports as free do not touch. -/
structure Reservation where
  ranges : List (Nat × Nat)
  nonempty : ∀ r ∈ ranges, r.1 < r.2 ∧ r.2 < 2 ^ 63
  apart : ranges.Pairwise fun r r' => r.2 < r'.1
  aligned : ∀ r ∈ ranges, r.1 % 0x10000 = 0 ∧ r.2 % 0x10000 = 0

namespace Reservation

def Reserved (host : Reservation) (p : Nat) : Prop := ∃ r ∈ host.ranges, r.1 ≤ p ∧ p < r.2

end Reservation

/-- `AddressSpace::Impl`. -/
structure AddressSpace where
  useLegacy : Bool
  regions : RegionMap
  legacyPlaceholderViews : LegacyViewMap
deriving DecidableEq

namespace AddressSpace

open RegionMap LegacyViewMap

/-- `LegacyPlaceholderViewSize`, the most the constructor reserves with one view. -/
def legacyPlaceholderViewSize : Nat := 0x100000000

/-- The views the constructor reserves a range with. Each takes at least one byte. -/
def reserveViews : Nat → LegacyViewMap → Nat → Nat → LegacyViewMap
  | 0, views, _, _ => views
  | fuel + 1, views, viewBase, remainingSize =>
    if remainingSize = 0 then views
    else
      let viewSize := min remainingSize legacyPlaceholderViewSize
      reserveViews fuel (views.emplace viewBase ⟨viewSize⟩) (viewBase + viewSize)
        (remainingSize - viewSize)

/-- The constructor. -/
def init (host : Reservation) (useLegacy : Bool) : AddressSpace where
  useLegacy
  regions := host.ranges.foldl (fun regions r => regions.emplace r.1
    { base := r.1, physBase := U64.max, size := r.2 - r.1, prot := PAGE_NOACCESS, fd := -1,
      isMapped := false }) ∅
  legacyPlaceholderViews :=
    if useLegacy then
      host.ranges.foldl (fun views r => reserveViews (r.2 - r.1) views r.1 (r.2 - r.1)) ∅
    else ∅

/-- Split a region on the path in use. -/
def split (s : AddressSpace) (virtualAddr size : Nat) : Outcome RegionMap :=
  if s.useLegacy then s.regions.splitRegionLegacy virtualAddr size
  else s.regions.splitRegion virtualAddr size

/-- The padding of a section view, up to the next 64 KiB boundary, holds no mapping. -/
def paddingIsFree (regions : RegionMap) (paddingBase paddingEnd : Nat) : Outcome Bool := do
  if paddingBase = paddingEnd then
    return true
  let (k, _) ← deref (regions.floor? paddingBase)
  return ((regions.startingAt k).takeWhile fun e => e.1 < paddingEnd).all fun e => !e.2.isMapped

/-- What `Map` does to the placeholder views once the region is marked as mapped. -/
def mapLegacyViews (s : AddressSpace) (region : MemoryRegion) : Outcome LegacyViewMap := do
  let views ← ensureLegacyPlaceholderRange s.legacyPlaceholderViews region.base region.size
  if region.isLegacySectionBacked then
    assertMsg (region.base % granularity = 0 && region.physBase % granularity = 0)
      "Windows 7 section mappings require a 64 KiB-aligned virtual address and physical offset"
    let hostSize := alignUp region.size granularity
    assertMsg (← paddingIsFree s.regions (U64.add region.base region.size)
        (U64.add region.base hostSize))
      "Windows 7 host-allocation padding overlaps a guest mapping"
    replaceLegacyPlaceholderWithSection views region.base hostSize
  else
    return views

def map (s : AddressSpace) (virtualAddr physAddr size prot : Nat) (fd : Int) :
    Outcome AddressSpace := do
  let (k, region) ← deref (s.regions.floor? virtualAddr)
  -- If needed, split surrounding regions to create a placeholder
  let regions ← (if k ≠ virtualAddr ∨ region.size ≠ size then s.split virtualAddr size
    else pure s.regions : Outcome RegionMap)
  let (k, region) ← deref (regions.floor? virtualAddr)
  assertMsg (!region.isMapped) "Cannot overwrite mapped region"
  let region := { region with isMapped := true, physBase := physAddr, prot, fd }
  let s := { s with regions := regions.insert k region }
  if s.useLegacy then
    let views ← s.mapLegacyViews region
    return { s with legacyPlaceholderViews := views }
  else
    return s

/-- What `Unmap` makes of a region. -/
def freed (region : MemoryRegion) : MemoryRegion :=
  { region with isMapped := false, fd := -1, physBase := U64.max, prot := PAGE_NOACCESS }

/-- The placeholder view that takes the place of a section view. -/
def restoreLegacyView (s : AddressSpace) (region : MemoryRegion) : Outcome LegacyViewMap := do
  if region.isMapped && (s.useLegacy && region.isLegacySectionBacked) then
    let hostSize := alignUp region.size granularity
    let views ← prepareLegacyPlaceholder s.legacyPlaceholderViews region.base hostSize
    mapLegacyPlaceholderView region.base hostSize
    return views
  else
    return s.legacyPlaceholderViews

def unmapLoop : Nat → AddressSpace → Nat → Nat → Outcome AddressSpace
  | 0, _, _, _ => throw .diverges
  | fuel + 1, s, currentAddr, remainingSize => do
    if remainingSize = 0 then
      return s
    let (_, region) ← deref (s.regions.floor? currentAddr)
    -- Ensure size is within the bounds of the current region.
    let baseOffset := U64.sub currentAddr region.base
    let sizeToUnmap := min (U64.sub region.size baseOffset) remainingSize
    let regions ← (if currentAddr ≠ region.base ∨ sizeToUnmap ≠ region.size then
      s.split currentAddr sizeToUnmap else pure s.regions : Outcome RegionMap)
    let (k, region) ← deref (regions.floor? currentAddr)
    let views ← s.restoreLegacyView region
    unmapLoop fuel
      { s with regions := regions.insert k (freed region), legacyPlaceholderViews := views }
      (U64.add currentAddr sizeToUnmap) (remainingSize - sizeToUnmap)

def unmap (s : AddressSpace) (virtualAddr size : Nat) : Outcome AddressSpace := do
  let s ← s.unmapLoop (size + 1) virtualAddr size
  -- Coalesce any free space produced from these unmaps.
  let regions ← s.regions.coalesceFreeRegions virtualAddr
  return { s with regions }

/-- A call of the address space. -/
inductive Call where
  | map (virtualAddr physAddr size prot : Nat) (fd : Int)
  | unmap (virtualAddr size : Nat)
deriving DecidableEq

def step (s : AddressSpace) : Call → Outcome AddressSpace
  | .map virtualAddr physAddr size prot fd => s.map virtualAddr physAddr size prot fd
  | .unmap virtualAddr size => s.unmap virtualAddr size

end AddressSpace

end Core
