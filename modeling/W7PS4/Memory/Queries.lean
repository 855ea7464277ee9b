-- SUMMARY: The queries of the memory manager: the virtual area at or behind an address, and the direct memory at or behind one.
import W7PS4.Memory.System

/-!
# Queries

`VirtualQuery`, `QueryProtection`, `DirectMemoryQuery` and `GetDirectMemoryType` read
the maps and change nothing. All of them start from the entry `FindVMA` or
`FindDmemArea` returns, the last one that starts at or below the address.
-/

namespace Core

open PhysicalMemoryArea (area_byte area_size getEnd)

/-- The error code of a query that finds nothing. -/
inductive QueryError where
  | EACCES
deriving DecidableEq, Repr

def ORBIS_KERNEL_MAXIMUM_NAME_LENGTH : Nat := 32

/-- `OrbisVirtualQueryInfo`. -/
structure VirtualQueryInfo where
  start : Nat
  endAddr : Nat
  offset : Nat
  protection : MemoryProt
  memoryType : Int
  isFlexible : Bool
  isDirect : Bool
  isStack : Bool
  isPooled : Bool
  isCommitted : Bool
  name : List UInt8
deriving DecidableEq

namespace MemoryManager

/-! ## Virtual memory -/

/-- `strncpy` into the name of the result. -/
def queryName (name : String) : List UInt8 :=
  (name.toUTF8.data.toList.takeWhile (· ≠ 0)).take ORBIS_KERNEL_MAXIMUM_NAME_LENGTH

/-- The result `VirtualQuery` writes for an area. Offset and memory type are only assigned for
    direct mappings. -/
def describe (vma : VirtualMemoryArea) : Outcome VirtualQueryInfo := do
  let (offset, memoryType) ← (do
    if vma.type = .direct then
      assertMsg (!vma.physAreas.entries.isEmpty) "No physical backing for direct mapping?"
      let (_, phys) ← deref vma.physAreas.first?
      return (phys.base, phys.memoryType)
    else
      return (0, 0) : Outcome (Nat × Int))
  return {
    start := vma.base
    endAddr := vma.base + vma.size
    offset
    -- Protection is hidden from reserved mappings.
    protection := if vma.type = .reserved ∨ vma.type = .poolReserved then 0 else vma.prot
    memoryType
    isFlexible := vma.type = .flexible
    isDirect := vma.type = .direct
    isStack := vma.type = .stack
    isPooled := vma.type = .poolReserved ∨ vma.type = .pooled
    isCommitted := vma.isMapped
    name := queryName vma.name }

def virtualQuery (env : Environment) (s : MemoryManager) (addr : Nat) (flags : Int) :
    Outcome (Except QueryError VirtualQueryInfo) := do
  let queryAddr :=
    if addr < env.systemManagedVirtualBase then env.systemManagedVirtualBase else addr
  if addr < queryAddr ∧ flags = 0 then
    return .error .EACCES
  let (it, _) ← s.vmaMap.findVMA queryAddr
  match (s.vmaMap.startingAt it).find? fun e => !(e.2.type = .free && flags = 1) with
  | none => return .error .EACCES
  | some (_, vma) =>
    if vma.type = .free then return .error .EACCES
    else return .ok (← describe vma)

/-- `QueryProtection`: start, end and protection of the area. -/
def queryProtection (env : Environment) (s : MemoryManager) (addr : Nat) :
    Outcome (Except QueryError (Nat × Nat × MemoryProt)) := do
  if addr < env.systemManagedVirtualBase then
    return .error .EACCES
  let (_, vma) ← s.vmaMap.findVMA addr
  if vma.isFree then
    return .error .EACCES
  return .ok (vma.base, vma.base + vma.size, vma.prot)

/-! ## Direct memory -/

/-- What `GetDirectMemoryType` writes. -/
structure DirectMemoryType where
  memoryType : Int
  start : Nat
  endAddr : Nat
deriving DecidableEq

def getDirectMemoryType (s : MemoryManager) (addr : Nat) :
    Outcome (Except OrbisError DirectMemoryType) := do
  if addr ≥ s.totalDirectSize then
    return .error .ENOENT
  let (_, dmemArea) ← deref (s.dmemMap.floor? addr)
  if dmemArea.dmaType = .free then
    return .error .ENOENT
  return .ok {
    memoryType := dmemArea.memoryType
    start := dmemArea.base
    endAddr := dmemArea.getEnd }

/-! ## Answers about virtual memory -/

/-- The query returns. It reports the range of an area with the property `target`, or `EACCES` when
    there is none. -/
structure Answers {α : Type} (r : Outcome (Except QueryError α)) (range : α → Nat × Nat)
    (target : Nat → VirtualMemoryArea → Prop) : Prop where
  returns : ∃ x, r = .ok x
  ok : ∀ a, r = .ok (.ok a) → ∃ k v, target k v ∧ range a = (k, k + v.size)
  eacces : r = .ok (.error .EACCES) ↔ ¬∃ k v, target k v

section

variable {α : Type} {r : Outcome (Except QueryError α)} {range : α → Nat × Nat}
  {target : Nat → VirtualMemoryArea → Prop} {k : Nat} {v : VirtualMemoryArea} {a : α}

theorem Answers.of_ok (hr : r = .ok (.ok a)) (ht : target k v) (hrange : range a = (k, k + v.size)) :
    Answers r range target where
  returns := ⟨_, hr⟩
  ok := by
    intro b hb
    rw [hr] at hb
    cases hb
    exact ⟨k, v, ht, hrange⟩
  eacces := by
    rw [hr]
    exact iff_of_false (by simp) fun hnone => hnone ⟨k, v, ht⟩

theorem answers_eacces_iff (hr : r = .ok (.error .EACCES)) :
    Answers r range target ↔ ¬∃ k v, target k v := by
  refine ⟨fun h => h.eacces.1 hr, fun hnone => ⟨⟨_, hr⟩, fun b hb => ?_, iff_of_true hr hnone⟩⟩
  rw [hr] at hb
  cases hb

theorem not_answers_error {e : Fault} (hr : r = .error e) : ¬Answers r range target := by
  rintro ⟨⟨x, hx⟩, -⟩
  rw [hr] at hx
  cases hx

end

/-- The area that is not free and holds the address. -/
def NonFreeAt (s : MemoryManager) (addr k : Nat) (v : VirtualMemoryArea) : Prop :=
  s.vmaMap.find? k = some v ∧ v.type ≠ .free ∧ k ≤ addr ∧ addr < k + v.size

/-- That area, or if there is none the lowest one above the address that is not free. -/
def NonFreeFrom (s : MemoryManager) (addr k : Nat) (v : VirtualMemoryArea) : Prop :=
  s.NonFreeAt addr k v ∨ (¬∃ j w, s.NonFreeAt addr j w) ∧ s.vmaMap.find? k = some v ∧
    v.type ≠ .free ∧ addr < k ∧
    ∀ j w, s.vmaMap.find? j = some w → w.type ≠ .free → addr < j → k ≤ j

/-- What the queries for an address promise. -/
structure QueriesAnswer (env : Environment) (s : MemoryManager) (addr : Nat) : Prop where
  query : Answers (s.virtualQuery env addr 0) (fun info => (info.start, info.endAddr))
    (s.NonFreeAt addr)
  protection : Answers (s.queryProtection env addr) (fun info => (info.1, info.2.1))
    (s.NonFreeAt addr)
  next : Answers (s.virtualQuery env addr 1) (fun info => (info.start, info.endAddr))
    (s.NonFreeFrom addr)

/-- The last area that starts at or below the address, or below the base of system-managed memory
    if that is higher, is free or ends above the address. No other area that is not free reaches
    into the addresses between the two. -/
def QueryPoint (env : Environment) (s : MemoryManager) (addr : Nat) : Prop :=
  ∃ k v, s.vmaMap.floor? (max addr env.systemManagedVirtualBase) = some (k, v) ∧
    (v.type = .free ∨ addr < k + v.size) ∧
    (addr < env.systemManagedVirtualBase → ∀ j w, s.vmaMap.find? j = some w → w.type ≠ .free →
      j ≤ env.systemManagedVirtualBase → addr < j + w.size → addr < j ∧ j = k)

variable {env : Environment} {s : MemoryManager} {addr k : Nat} {v : VirtualMemoryArea}

/-- The lowest of the areas that are not free and end above the address. -/
theorem nonFreeFrom_iff (h : s.vmaMap.WF) : s.NonFreeFrom addr k v ↔
    s.vmaMap.find? k = some v ∧ v.type ≠ .free ∧ addr < k + v.size ∧
      ∀ j w, s.vmaMap.find? j = some w → w.type ≠ .free → addr < j + w.size → k ≤ j := by
  constructor
  · rintro (⟨hk, hfree, hle, hlt⟩ | ⟨hnone, hk, hfree, hlt, hmin⟩)
    · refine ⟨hk, hfree, hlt, fun j w hj _ hend => ?_⟩
      by_contra hjk
      have := h.separated j w k v hj hk (by omega)
      simp only [VirtualMemoryArea.area_size] at this
      omega
    · refine ⟨hk, hfree, by omega, fun j w hj hw hend => hmin j w hj hw ?_⟩
      by_contra hja
      exact hnone ⟨j, w, hj, hw, by omega, hend⟩
  · rintro ⟨hk, hfree, hlt, hmin⟩
    by_cases hle : k ≤ addr
    · exact .inl ⟨hk, hfree, hle, hlt⟩
    refine .inr ⟨?_, hk, hfree, by omega, fun j w hj hw hja => hmin j w hj hw (by omega)⟩
    rintro ⟨j, w, hj, hw, hja, hend⟩
    have := hmin j w hj hw hend
    omega

theorem describe_eq_ok (hv : v.WF) :
    ∃ info, describe v = .ok info ∧ info.start = v.base ∧ info.endAddr = v.base + v.size := by
  by_cases hd : v.type = .direct
  · obtain ⟨x, hx⟩ := (hv.backed (hd ▸ rfl)).covered 0 hv.pos
    obtain ⟨o, e, he, -⟩ := StdMap.exists_of_at? hx
    have hne : v.physAreas.entries ≠ [] := List.ne_nil_of_mem (StdMap.mem_entries_iff.2 he)
    obtain ⟨first, hfirst⟩ : ∃ e, v.physAreas.first? = some e :=
      ⟨_, List.head?_eq_some_head hne⟩
    have hsome : (!v.physAreas.entries.isEmpty) = true := by simpa using hne
    simp only [describe, if_pos hd, assertMsg, hsome, if_true, Outcome.ok_bind, hfirst, deref]
    exact ⟨_, rfl, rfl, rfl⟩
  · simp only [describe, if_neg hd]
    exact ⟨_, rfl, rfl, rfl⟩

/-- The memory type that is reported of a direct area is that of its first piece. -/
theorem describe_memoryType (hv : v.WF) : ∃ info, describe v = .ok info ∧
    (v.type = .direct → ∃ e, v.physAreas.first? = some e ∧ info.memoryType = e.2.memoryType) ∧
    (v.type ≠ .direct → info.memoryType = 0) := by
  obtain ⟨info, hinfo, -⟩ := describe_eq_ok hv
  refine ⟨info, hinfo, fun hd => ?_, fun hd => ?_⟩
  · simp only [describe, if_pos hd, Outcome.bind_eq_ok, Outcome.pure_eq_ok, deref_eq_ok] at hinfo
    obtain ⟨_, ⟨-, -, e, hfirst, rfl⟩, rfl⟩ := hinfo
    exact ⟨e, hfirst, rfl⟩
  · simp only [describe, if_neg hd, Outcome.bind_eq_ok, Outcome.pure_eq_ok] at hinfo
    obtain ⟨_, rfl, rfl⟩ := hinfo
    rfl

/-- The query for an address in an area that is not free. -/
theorem virtualQuery_of_floor? {flags : Int} (hle : env.systemManagedVirtualBase ≤ addr)
    (hf : s.vmaMap.floor? addr = some (k, v)) (hfree : v.type ≠ .free) :
    s.virtualQuery env addr flags = describe v >>= fun info => .ok (.ok info) := by
  have hk := (StdMap.floor?_eq_some.1 hf).1
  have hfirst : ((s.vmaMap.startingAt k).find? fun e => !(e.2.type = .free && flags = 1)) =
      some (k, v) :=
    StdMap.find?_startingAt_eq_some.2 ⟨hk, le_rfl, by simp [hfree], fun i b _ hki _ => hki⟩
  simp only [virtualQuery, if_neg (Nat.not_lt.2 hle), lt_irrefl, false_and, if_false,
    VMAMap.findVMA, hf, deref, Outcome.ok_bind, hfirst, if_neg hfree]
  rfl

/-- A lowest one exists when there is one at all. -/
theorem exists_nonFreeFrom (h : s.vmaMap.WF) (hk : s.vmaMap.find? k = some v)
    (hfree : v.type ≠ .free) (hlt : addr < k + v.size) : ∃ j w, s.NonFreeFrom addr j w := by
  classical
  have hex : ∃ j, ∃ w, s.vmaMap.find? j = some w ∧ w.type ≠ .free ∧ addr < j + w.size :=
    ⟨k, v, hk, hfree, hlt⟩
  obtain ⟨w, hw, hwfree, hwlt⟩ := Nat.find_spec hex
  exact ⟨_, w, (nonFreeFrom_iff h).2 ⟨hw, hwfree, hwlt, fun i u hi hu hend =>
    Nat.find_min' hex ⟨u, hi, hu, hend⟩⟩⟩

/-- An area holds the address exactly when the last one that starts at or below it does. -/
theorem nonFreeAt_iff (h : s.vmaMap.WF) (hf : s.vmaMap.floor? addr = some (k, v)) {j : Nat}
    {w : VirtualMemoryArea} : s.NonFreeAt addr j w ↔
      j = k ∧ w = v ∧ v.type ≠ .free ∧ addr < k + v.size := by
  obtain ⟨hk, hle, hfar⟩ := StdMap.floor?_eq_some.1 hf
  simp only at hk hle hfar
  constructor
  · rintro ⟨hj, hfree, hja, hlt⟩
    have hjk : j = k := by
      by_contra hne
      have := h.separated j w k v hj hk (lt_of_le_of_ne (hfar j w hj hja) hne)
      simp only [VirtualMemoryArea.area_size] at this
      omega
    subst hjk
    rw [hk] at hj
    cases hj
    exact ⟨rfl, rfl, hfree, hlt⟩
  · rintro ⟨rfl, rfl, hfree, hlt⟩
    exact ⟨hk, hfree, hle, hlt⟩

/-- What both queries without a search make of the area they look at. -/
private theorem answers_at_iff {α : Type} {r : Outcome (Except QueryError α)}
    {range : α → Nat × Nat} (h : s.vmaMap.WF) (hf : s.vmaMap.floor? addr = some (k, v))
    (hfree : v.type = .free → r = .ok (.error .EACCES))
    (hused : v.type ≠ .free → ∃ a, r = .ok (.ok a) ∧ range a = (k, k + v.size)) :
    Answers r range (s.NonFreeAt addr) ↔ v.type = .free ∨ addr < k + v.size := by
  by_cases hv : v.type = .free
  · rw [answers_eacces_iff (hfree hv)]
    refine iff_of_true ?_ (.inl hv)
    rintro ⟨j, w, hjw⟩
    exact ((nonFreeAt_iff h hf).1 hjw).2.2.1 hv
  · obtain ⟨a, hr, hrange⟩ := hused hv
    constructor
    · intro hans
      obtain ⟨j, w, hjw, -⟩ := hans.ok a hr
      exact .inr ((nonFreeAt_iff h hf).1 hjw).2.2.2
    · intro hlt
      exact .of_ok hr ((nonFreeAt_iff h hf).2 ⟨rfl, rfl, hv, hlt.resolve_left hv⟩) hrange

theorem virtualQuery_answers_iff (h : s.vmaMap.WF) (hle : env.systemManagedVirtualBase ≤ addr)
    (hf : s.vmaMap.floor? addr = some (k, v)) :
    Answers (s.virtualQuery env addr 0) (fun info => (info.start, info.endAddr))
      (s.NonFreeAt addr) ↔ v.type = .free ∨ addr < k + v.size := by
  have hk := (StdMap.floor?_eq_some.1 hf).1
  have hfirst : ((s.vmaMap.startingAt k).find? fun e => !(e.2.type = .free && (0 : Int) = 1)) =
      some (k, v) :=
    StdMap.find?_startingAt_eq_some.2 ⟨hk, le_rfl, by simp, fun i b _ hki _ => hki⟩
  have hquery : s.virtualQuery env addr 0 =
      if v.type = .free then .ok (.error .EACCES)
      else describe v >>= fun info => .ok (.ok info) := by
    simp only [virtualQuery, if_neg (Nat.not_lt.2 hle), lt_irrefl, false_and, if_false,
      VMAMap.findVMA, hf, deref, Outcome.ok_bind, hfirst]
    rfl
  refine answers_at_iff h hf (fun hv => by rw [hquery, if_pos hv]) fun hv => ?_
  obtain ⟨info, hinfo, hstart, hend⟩ := describe_eq_ok (h.entry k v hk)
  refine ⟨info, by rw [hquery, if_neg hv, hinfo, Outcome.ok_bind], ?_⟩
  simp only [hstart, hend, h.key k v hk]

theorem queryProtection_answers_iff (h : s.vmaMap.WF)
    (hle : env.systemManagedVirtualBase ≤ addr) (hf : s.vmaMap.floor? addr = some (k, v)) :
    Answers (s.queryProtection env addr) (fun info => (info.1, info.2.1)) (s.NonFreeAt addr) ↔
      v.type = .free ∨ addr < k + v.size := by
  have hk := (StdMap.floor?_eq_some.1 hf).1
  have hquery : s.queryProtection env addr =
      if v.isFree then .ok (.error .EACCES) else .ok (.ok (v.base, v.base + v.size, v.prot)) := by
    simp only [queryProtection, if_neg (Nat.not_lt.2 hle), VMAMap.findVMA, hf, deref,
      Outcome.ok_bind]
    rfl
  refine answers_at_iff h hf (fun hv => ?_) fun hv => ⟨(v.base, v.base + v.size, v.prot), ?_, ?_⟩
  · rw [hquery, if_pos (by simp [VirtualMemoryArea.isFree, hv])]
  · rw [hquery, if_neg (by simp [VirtualMemoryArea.isFree, hv])]
  · simp only [h.key k v hk]

/-- The search for the next area starts at the last one at or below the address. It must not
    stop there when that one has ended, nor leave an area out that starts below it. -/
theorem virtualQuery_next_answers_iff (h : s.vmaMap.WF)
    (hf : s.vmaMap.floor? (max addr env.systemManagedVirtualBase) = some (k, v)) :
    Answers (s.virtualQuery env addr 1) (fun info => (info.start, info.endAddr))
      (s.NonFreeFrom addr) ↔
      (v.type = .free ∨ addr < k + v.size) ∧
        ∀ j w, s.vmaMap.find? j = some w → w.type ≠ .free → addr < j + w.size → k ≤ j := by
  obtain ⟨hk, hkq, hfar⟩ := StdMap.floor?_eq_some.1 hf
  simp only at hk hkq hfar
  have hq : (if addr < env.systemManagedVirtualBase then env.systemManagedVirtualBase else addr) =
      max addr env.systemManagedVirtualBase := by
    split <;> omega
  have habove : ∀ j w, s.vmaMap.find? j = some w → k < j → addr < j := by
    intro j w hj hkj
    by_contra hle
    have := hfar j w hj (by omega)
    omega
  cases hfind : (s.vmaMap.startingAt k).find? fun e => !decide (e.2.type = .free) with
  | none =>
    have hnone := StdMap.find?_startingAt_eq_none.1 hfind
    have hquery : s.virtualQuery env addr 1 = .ok (.error .EACCES) := by
      simp only [virtualQuery, hq, one_ne_zero, and_false, if_false, VMAMap.findVMA, hf, deref,
        Outcome.ok_bind, decide_true, Bool.and_true, hfind]
      rfl
    rw [answers_eacces_iff hquery]
    constructor
    · intro hno
      refine ⟨.inl (by simpa using hnone k v hk le_rfl), fun j w hj hw hend => ?_⟩
      exact absurd (exists_nonFreeFrom h hj hw hend) hno
    · rintro ⟨-, hlow⟩ ⟨j, w, hjw⟩
      obtain ⟨hj, hw, hend, -⟩ := (nonFreeFrom_iff h).1 hjw
      exact hw (by simpa using hnone j w hj (hlow j w hj hw hend))
  | some e =>
    obtain ⟨j, w⟩ := e
    obtain ⟨hj, hkj, hw, hmin⟩ := StdMap.find?_startingAt_eq_some.1 hfind
    simp only [Bool.not_eq_true', decide_eq_false_iff_not] at hj hkj hw hmin
    obtain ⟨info, hinfo, hstart, hend⟩ := describe_eq_ok (h.entry j w hj)
    have hquery : s.virtualQuery env addr 1 = .ok (.ok info) := by
      simp only [virtualQuery, hq, one_ne_zero, and_false, if_false, VMAMap.findVMA, hf, deref,
        Outcome.ok_bind, decide_true, Bool.and_true, hfind, if_neg hw, hinfo]
      rfl
    have hans : Answers (s.virtualQuery env addr 1) (fun info => (info.start, info.endAddr))
        (s.NonFreeFrom addr) ↔ s.NonFreeFrom addr j w := by
      constructor
      · intro hans
        obtain ⟨i, u, hiu, hrange⟩ := hans.ok info hquery
        obtain ⟨hi, -⟩ := (nonFreeFrom_iff h).1 hiu
        simp only [hstart, hend, h.key j w hj, Prod.mk.injEq] at hrange
        obtain ⟨rfl, -⟩ := hrange
        rw [hj] at hi
        cases hi
        exact hiu
      · exact fun hjw => .of_ok hquery hjw (by simp only [hstart, hend, h.key j w hj])
    rw [hans, nonFreeFrom_iff h]
    constructor
    · rintro ⟨-, -, hlt, hlow⟩
      refine ⟨?_, fun i u hi hu hend => le_trans hkj (hlow i u hi hu hend)⟩
      by_cases hv : v.type = .free
      · exact .inl hv
      obtain rfl : j = k := le_antisymm (hmin k v hk le_rfl hv) hkj
      rw [hj] at hk
      cases hk
      exact .inr hlt
    · rintro ⟨hvend, hlow⟩
      refine ⟨hj, hw, ?_, fun i u hi hu hend => hmin i u hi (hlow i u hi hu hend) hu⟩
      rcases Nat.eq_or_lt_of_le hkj with rfl | hlt
      · rw [hk] at hj
        cases hj
        exact hvend.resolve_left hw
      · have := habove j w hj hlt
        omega

/-- `EACCES` is the answer of both queries below the base of system-managed memory. -/
theorem answers_below_iff (hlt : addr < env.systemManagedVirtualBase) :
    (Answers (s.virtualQuery env addr 0) (fun info => (info.start, info.endAddr))
        (s.NonFreeAt addr) ∧
      Answers (s.queryProtection env addr) (fun info => (info.1, info.2.1)) (s.NonFreeAt addr)) ↔
      ¬∃ j w, s.NonFreeAt addr j w := by
  have hquery : s.virtualQuery env addr 0 = .ok (.error .EACCES) := by
    simp only [virtualQuery, hlt, true_and, if_true]
    rfl
  have hprot : s.queryProtection env addr = .ok (.error .EACCES) := by
    simp only [queryProtection, if_pos hlt]
    rfl
  rw [answers_eacces_iff hquery, answers_eacces_iff hprot, and_self]

/-- The queries answer for the area that holds the address, or the next one, exactly when they
    start from an area that has not ended at the address. -/
theorem queries_answer_iff (h : Reachable env anyCall s) (addr : UInt64) :
    QueriesAnswer env s addr.toNat ↔ QueryPoint env s addr.toNat := by
  have hwf := h.valid.vma
  generalize addr.toNat = a
  cases hf : s.vmaMap.floor? (max a env.systemManagedVirtualBase) with
  | none =>
    refine iff_of_false (fun hans => ?_) ?_
    · have hq : (if a < env.systemManagedVirtualBase then env.systemManagedVirtualBase else a) =
          max a env.systemManagedVirtualBase := by
        split <;> omega
      have hquery : s.virtualQuery env a 1 = .error .undefined := by
        simp only [virtualQuery, hq, one_ne_zero, and_false, if_false, VMAMap.findVMA, hf, deref]
        rfl
      exact not_answers_error hquery hans.next
    · rintro ⟨k, v, hkv, -⟩
      rw [hf] at hkv
      cases hkv
  | some e =>
    obtain ⟨k, v⟩ := e
    obtain ⟨hk, hkq, hfar⟩ := StdMap.floor?_eq_some.1 hf
    simp only at hk hkq hfar
    have hpoint : QueryPoint env s a ↔ (v.type = .free ∨ a < k + v.size) ∧
        (a < env.systemManagedVirtualBase → ∀ j w, s.vmaMap.find? j = some w → w.type ≠ .free →
          j ≤ env.systemManagedVirtualBase → a < j + w.size → a < j ∧ j = k) := by
      simp only [QueryPoint, hf, Option.some.injEq, Prod.mk.injEq, and_assoc, exists_and_left,
        exists_eq_left']
    have hnext := virtualQuery_next_answers_iff hwf hf
    rw [hpoint]
    by_cases hbelow : a < env.systemManagedVirtualBase
    · have hat := answers_below_iff (s := s) hbelow
      constructor
      · intro hans
        obtain ⟨hvend, hlow⟩ := hnext.1 hans.next
        refine ⟨hvend, fun _ j w hj hw hle hend => ⟨?_, ?_⟩⟩
        · by_contra hja
          exact hat.1 ⟨hans.query, hans.protection⟩ ⟨j, w, hj, hw, by omega, hend⟩
        · exact le_antisymm (hfar j w hj (by omega)) (hlow j w hj hw hend)
      · rintro ⟨hvend, hrest⟩
        have hnone : ¬∃ j w, s.NonFreeAt a j w := by
          rintro ⟨j, w, hj, hw, hja, hend⟩
          have := (hrest hbelow j w hj hw (by omega) hend).1
          omega
        obtain ⟨hquery, hprot⟩ := hat.2 hnone
        refine ⟨hquery, hprot, hnext.2 ⟨hvend, fun j w hj hw hend => ?_⟩⟩
        by_cases hle : j ≤ env.systemManagedVirtualBase
        · exact (hrest hbelow j w hj hw hle hend).2.ge
        · omega
    · have hle : env.systemManagedVirtualBase ≤ a := Nat.not_lt.1 hbelow
      rw [Nat.max_eq_left hle] at hf hkq
      have hlow : ∀ j w, s.vmaMap.find? j = some w → w.type ≠ .free → a < j + w.size → k ≤ j := by
        intro j w hj _ hend
        by_contra hjk
        have := hwf.separated j w k v hj hk (by omega)
        simp only [VirtualMemoryArea.area_size] at this
        omega
      constructor
      · exact fun hans => ⟨(hnext.1 hans.next).1, fun h => absurd h hbelow⟩
      · rintro ⟨hvend, -⟩
        exact ⟨(virtualQuery_answers_iff hwf hle hf).2 hvend,
          (queryProtection_answers_iff hwf hle hf).2 hvend, hnext.2 ⟨hvend, hlow⟩⟩

/-- A page at the end of the lower region. -/
def mapLastPage : List Op :=
  [.mapMemory 0x7fc000 0x4000 .cpuRead .fixed .flexible "a" false 0xFFFFFFFFFFFFFFFF 0]

theorem queries_answer_mapLastPage : ∃ s, run .gapped (init .gapped) mapLastPage = .ok s ∧
    (QueriesAnswer .gapped s 0x7fd000 ↔ QueryPoint .gapped s 0x7fd000) := by
  obtain ⟨s, hs, hreach, -⟩ := exists_reachable .gapped mapLastPage (fun _ => true) (by decide)
    (by with_unfolding_all decide)
  exact ⟨s, hs, queries_answer_iff hreach 0x7fd000⟩

/-- In the gap behind the region the queries report the page. -/
theorem not_queriesAnswer_behindLastPage :
    ∃ s, Reachable .gapped anyCall s ∧ ¬QueriesAnswer .gapped s 0x900000 := by
  obtain ⟨s, -, hreach, ht⟩ := exists_reachable .gapped mapLastPage
    (fun s => (s.vmaMap.floor? 0x900000).any fun (e : Nat × VirtualMemoryArea) =>
      decide (e.2.type ≠ .free ∧ e.1 + e.2.size ≤ 0x900000))
    (by decide) (by with_unfolding_all decide)
  obtain ⟨⟨k, v⟩, hf, hok⟩ := (Option.any_eq_true _ _).1 ht
  obtain ⟨hfree, hend⟩ := of_decide_eq_true hok
  refine ⟨s, hreach, fun hans => ?_⟩
  rcases (virtualQuery_answers_iff hreach.valid.vma (by decide) hf).1 hans.query with hv | hlt
  · exact hfree hv
  · exact Nat.not_lt.2 hend hlt

/-! ## Answers about direct memory -/

/-- The first area at or behind the one `FindDmemArea` returns that is not free. The areas
    behind that one only count when the query is for the next area. -/
def InUseFrom (s : MemoryManager) (addr : Nat) (findNext : Bool) (k : Nat)
    (a : PhysicalMemoryArea) : Prop :=
  ∃ j b, s.dmemMap.floor? addr = some (j, b) ∧ s.dmemMap.find? k = some a ∧ a.dmaType ≠ .free ∧
    j ≤ k ∧ ∀ i c, s.dmemMap.find? i = some c → j ≤ i → i < k → c.dmaType = .free ∧ findNext

variable {findNext : Bool} {info : QueryInfo} {a : PhysicalMemoryArea} {memoryType : Int}

theorem InUseFrom.unique {k' : Nat} {a' : PhysicalMemoryArea} (h : s.InUseFrom addr findNext k a)
    (h' : s.InUseFrom addr findNext k' a') : k' = k ∧ a' = a := by
  obtain ⟨j, b, hfloor, hk, hfree, hjk, hbetween⟩ := h
  obtain ⟨j', b', hfloor', hk', hfree', hjk', hbetween'⟩ := h'
  rw [hfloor] at hfloor'
  cases hfloor'
  have hkk : k' = k := by
    rcases Nat.lt_trichotomy k' k with hlt | heq | hlt
    · exact absurd (hbetween k' a' hk' hjk' hlt).1 hfree'
    · exact heq
    · exact absurd (hbetween' k a hk hjk hlt).1 hfree
  subst hkk
  rw [hk] at hk'
  cases hk'
  exact ⟨rfl, rfl⟩

/-- The byte at the address belongs to the area the search starts from. -/
theorem dmem_of_floor? (h : s.dmemMap.WF (directExtent env)) {j : Nat} {b : PhysicalMemoryArea}
    (hf : s.dmemMap.floor? addr = some (j, b)) {x : PhysByte} (hx : s.view.dmem addr = some x) :
    addr < j + b.size ∧ x.dmaType = b.dmaType := by
  obtain ⟨i, c, hi, hle, hlt, rfl⟩ := StdMap.exists_of_at? hx
  have hfloor := StdMap.floor?_of_mem h.separated hi hle hlt
  rw [hf] at hfloor
  cases hfloor
  exact ⟨hlt, rfl⟩

/-- An address that is free lies below the area the query finds, with nothing in use between. -/
theorem InUseFrom.next (h : s.dmemMap.WF (directExtent env)) (hfrom : s.InUseFrom addr findNext k a)
    {x : PhysByte} (hx : s.view.dmem addr = some x) (hfree : x.dmaType = .free) :
    findNext ∧ addr < k ∧ ∀ q ∈ Set.Ico addr k, ∀ y, s.view.dmem q = some y → y.dmaType = .free := by
  obtain ⟨j, b, hfloor, hk, hused, hjk, hbetween⟩ := hfrom
  obtain ⟨hj, hja, -⟩ := StdMap.floor?_eq_some.1 hfloor
  simp only at hj hja
  obtain ⟨hlt, htype⟩ := dmem_of_floor? h hfloor hx
  have hne : j ≠ k := by
    rintro rfl
    rw [hj] at hk
    cases hk
    exact hused (htype ▸ hfree)
  have hend := h.separated j b k a hj hk (by omega)
  simp only [area_size] at hend
  refine ⟨(hbetween j b hj le_rfl (by omega)).2, by omega, fun q hq y hy => ?_⟩
  rw [Set.mem_Ico] at hq
  obtain ⟨i, c, hi, hle, hlt', rfl⟩ := StdMap.exists_of_at? hy
  have hji : j ≤ i := by
    by_contra hij
    have := h.separated i c j b hi hj (by omega)
    omega
  exact (hbetween i c hi hji (by omega)).1

end MemoryManager

end Core
