-- SUMMARY: A call that fails leaves the manager as it was, whatever its arguments.
import W7PS4.Memory.System

/-!
# Calls that fail

Every operation makes its checks before its first change. What is left to show is that
an operation that did change something does not report failure: the address that
`Allocate` and `PoolExpand` return is one of direct memory, so it is never `u64(-1)`.
-/

namespace Core

open Outcome (bind_eq_ok pure_eq_ok)

/-- An error code, or the address that stands for a failure. -/
def Reply.Fails : Reply → Prop
  | .physical a => a = U64.max
  | .ok => False
  | .mapped _ => False
  | .error _ => True

namespace MemoryManager

variable {env : Environment} {s s' : MemoryManager} {addr size : Nat} {e : OrbisError}

/-- Carving direct memory fails at `u64(-1)`. -/
theorem carved_ne_max (h : s.Valid env) (hsize : size < 2 ^ 64) {r : PhysMap × Nat}
    (hr : s.dmemMap.carvePhysArea addr size = .ok r) : addr ≠ U64.max := by
  obtain ⟨-, -, -, a, hc, -⟩ := h.dmem.carvePhysArea hsize hr
  have hbounds := h.dmem.bounds _ a hc.mem
  have hfits := hc.fits
  have hhi := directExtent_hi_lt env
  simp only [U64.max]
  omega

theorem poolExpand_eq_max {searchStart searchEnd alignment : Nat} (h : s.Valid env)
    (hsize : size < 2 ^ 64)
    (hr : s.poolExpand searchStart searchEnd size alignment = .ok (s', U64.max)) : s' = s := by
  simp only [poolExpand, bind_eq_ok, deref_eq_ok] at hr
  obtain ⟨⟨k, area⟩, -, hr⟩ := hr
  split at hr
  · cases hr
    rfl
  simp only [bind_eq_ok, pure_eq_ok, Prod.mk.injEq] at hr
  obtain ⟨⟨map, handle⟩, hcarve, -, hmax⟩ := hr
  exact absurd hmax (carved_ne_max h hsize hcarve)

theorem allocate_eq_max {searchStart searchEnd alignment : Nat} {mt : Int} (h : s.Valid env)
    (hsize : size < 2 ^ 64)
    (hr : s.allocate env searchStart searchEnd size alignment mt = .ok (s', U64.max)) :
    s' = s := by
  simp only [allocate, bind_eq_ok, deref_eq_ok] at hr
  obtain ⟨⟨k, area⟩, -, hr⟩ := hr
  split at hr
  · cases hr
    rfl
  split at hr
  · cases hr
    rfl
  simp only [bind_eq_ok, pure_eq_ok, Prod.mk.injEq] at hr
  obtain ⟨⟨map, handle⟩, hcarve, -, hmax⟩ := hr
  exact absurd hmax (carved_ne_max h hsize hcarve)

theorem free_eq_error {checked : Bool} (hr : s.free addr size checked = .ok (s', .error e)) :
    s' = s := by
  simp only [free] at hr
  split at hr
  · simp only [pure_eq_ok, Prod.mk.injEq] at hr
    exact hr.1.symm
  simp only [bind_eq_ok, deref_eq_ok] at hr
  obtain ⟨⟨k, area⟩, -, hr⟩ := hr
  split at hr
  · simp only [pure_eq_ok, Prod.mk.injEq] at hr
    exact hr.1.symm
  simp only [bind_eq_ok, pure_eq_ok, Prod.mk.injEq] at hr
  obtain ⟨_, -, _, -, -, habs⟩ := hr
  cases habs

theorem poolCommit_eq_error {prot : MemoryProt} {mt : Int}
    (hr : s.poolCommit addr size prot mt = .ok (s', .error e)) : s' = s := by
  simp only [poolCommit, VMAMap.findVMA, bind_eq_ok, deref_eq_ok, assertMsg_eq_ok] at hr
  obtain ⟨_, -, -, -, _, -, hr⟩ := hr
  split at hr
  · cases hr
    rfl
  split at hr
  · cases hr
    rfl
  split at hr
  · cases hr
    rfl
  simp only [bind_eq_ok, assertMsg_eq_ok, pure_eq_ok, Prod.mk.injEq] at hr
  obtain ⟨_, -, _, -, -, -, -, habs⟩ := hr
  cases habs

theorem poolDecommit_eq_error (hr : s.poolDecommit addr size = .ok (s', .error e)) : s' = s := by
  simp only [poolDecommit, VMAMap.findVMA, bind_eq_ok, deref_eq_ok, assertMsg_eq_ok] at hr
  obtain ⟨_, -, -, -, _, -, hr⟩ := hr
  split at hr
  · cases hr
    rfl
  simp only [bind_eq_ok, pure_eq_ok, Prod.mk.injEq] at hr
  obtain ⟨_, -, -, habs⟩ := hr
  cases habs

theorem mapMemory_eq_error {prot : MemoryProt} {flags : MemoryMapFlags} {type : VMAType}
    {name : String} {validateDmem : Bool} {phys alignment : Nat}
    (hr : s.mapMemory env addr size prot flags type name validateDmem phys alignment =
      .ok (s', .error e)) : s' = s := by
  simp only [mapMemory, bind_eq_ok] at hr
  obtain ⟨checked, -, hr⟩ := hr
  cases checked with
  | error e =>
    cases hr
    rfl
  | ok a =>
    simp only [bind_eq_ok, pure_eq_ok, Prod.mk.injEq] at hr
    obtain ⟨_, -, -, habs⟩ := hr
    cases habs

theorem mapFile_eq_error {prot : MemoryProt} {flags : MemoryMapFlags} {fd : Int}
    {file : Option MappableFile}
    (hr : s.mapFile env addr size prot flags fd file = .ok (s', .error e)) : s' = s := by
  simp only [mapFile] at hr
  split at hr
  · cases hr
    rfl
  split at hr
  · cases hr
    rfl
  simp only [bind_eq_ok] at hr
  obtain ⟨_, -, -, -, choice, -, hr⟩ := hr
  cases choice with
  | error e =>
    cases hr
    rfl
  | ok a =>
    simp only [bind_eq_ok, pure_eq_ok, Prod.mk.injEq] at hr
    obtain ⟨_, -, -, habs⟩ := hr
    cases habs

theorem unmapMemory_eq_error (hr : s.unmapMemory addr size = .ok (s', .error e)) : s' = s := by
  simp only [unmapMemory] at hr
  split at hr
  · simp only [pure_eq_ok, Prod.mk.injEq] at hr
    exact hr.1.symm
  simp only [bind_eq_ok] at hr
  obtain ⟨_, -, hr⟩ := hr
  split at hr
  · simp only [pure_eq_ok, Prod.mk.injEq] at hr
    exact hr.1.symm
  simp only [bind_eq_ok, pure_eq_ok, Prod.mk.injEq] at hr
  obtain ⟨_, -, -, habs⟩ := hr
  cases habs

/-- A reply that fails comes from an error code. -/
theorem Reply.eq_error_of_fails {r : Except OrbisError Unit} (h : (Reply.ofUnit r).Fails) :
    ∃ e, r = .error e := by
  cases r with
  | ok u => exact h.elim
  | error e => exact ⟨e, rfl⟩

theorem Reply.eq_error_of_addressFails {r : Except OrbisError Nat} (h : (Reply.ofAddress r).Fails) :
    ∃ e, r = .error e := by
  cases r with
  | ok a => exact h.elim
  | error e => exact ⟨e, rfl⟩

/-- Whatever the arguments, a call that fails in a reachable state changes nothing. -/
theorem failed_call_keeps_state {op : Op} {r : Reply} (h : Reachable env anyCall s)
    (hr : s.step env op = .ok (s', r)) (hfail : r.Fails) : s' = s := by
  cases op with
  | setupMemoryRegions flexibleSize ext1 ext2 =>
    simp only [step, bind_eq_ok, pure_eq_ok, Prod.mk.injEq] at hr
    obtain ⟨_, -, -, rfl⟩ := hr
    exact hfail.elim
  | poolExpand searchStart searchEnd size alignment =>
    simp only [step, bind_eq_ok, pure_eq_ok, Prod.mk.injEq] at hr
    obtain ⟨⟨_, a⟩, hr, rfl, rfl⟩ := hr
    obtain rfl : a = U64.max := hfail
    exact poolExpand_eq_max h.valid size.toNat_lt hr
  | allocate searchStart searchEnd size alignment mt =>
    simp only [step, bind_eq_ok, pure_eq_ok, Prod.mk.injEq] at hr
    obtain ⟨⟨_, a⟩, hr, rfl, rfl⟩ := hr
    obtain rfl : a = U64.max := hfail
    exact allocate_eq_max h.valid size.toNat_lt hr
  | free physAddr size checked =>
    simp only [step, bind_eq_ok, pure_eq_ok, Prod.mk.injEq] at hr
    obtain ⟨⟨_, e⟩, hr, rfl, rfl⟩ := hr
    obtain ⟨e, rfl⟩ := Reply.eq_error_of_fails hfail
    exact free_eq_error hr
  | poolCommit virtualAddr size prot mt =>
    simp only [step, bind_eq_ok, pure_eq_ok, Prod.mk.injEq] at hr
    obtain ⟨⟨_, e⟩, hr, rfl, rfl⟩ := hr
    obtain ⟨e, rfl⟩ := Reply.eq_error_of_fails hfail
    exact poolCommit_eq_error hr
  | mapMemory virtualAddr size prot flags type name validateDmem physAddr alignment =>
    simp only [step, bind_eq_ok, pure_eq_ok, Prod.mk.injEq] at hr
    obtain ⟨⟨_, e⟩, hr, rfl, rfl⟩ := hr
    obtain ⟨e, rfl⟩ := Reply.eq_error_of_addressFails hfail
    exact mapMemory_eq_error hr
  | mapFile virtualAddr size prot flags fd file =>
    simp only [step, bind_eq_ok, pure_eq_ok, Prod.mk.injEq] at hr
    obtain ⟨⟨_, e⟩, hr, rfl, rfl⟩ := hr
    obtain ⟨e, rfl⟩ := Reply.eq_error_of_addressFails hfail
    exact mapFile_eq_error hr
  | poolDecommit virtualAddr size =>
    simp only [step, bind_eq_ok, pure_eq_ok, Prod.mk.injEq] at hr
    obtain ⟨⟨_, e⟩, hr, rfl, rfl⟩ := hr
    obtain ⟨e, rfl⟩ := Reply.eq_error_of_fails hfail
    exact poolDecommit_eq_error hr
  | unmapMemory virtualAddr size =>
    simp only [step, bind_eq_ok, pure_eq_ok, Prod.mk.injEq] at hr
    obtain ⟨⟨_, e⟩, hr, rfl, rfl⟩ := hr
    obtain ⟨e, rfl⟩ := Reply.eq_error_of_fails hfail
    exact unmapMemory_eq_error hr
  | protect addr size prot =>
    simp only [step, bind_eq_ok, pure_eq_ok, Prod.mk.injEq] at hr
    obtain ⟨_, -, -, rfl⟩ := hr
    exact hfail.elim
  | setDirectMemoryType addr size mt =>
    simp only [step, bind_eq_ok, pure_eq_ok, Prod.mk.injEq] at hr
    obtain ⟨_, -, -, rfl⟩ := hr
    exact hfail.elim
  | nameVirtualRange virtualAddr size name =>
    simp only [step, bind_eq_ok, pure_eq_ok, Prod.mk.injEq] at hr
    obtain ⟨_, -, -, rfl⟩ := hr
    exact hfail.elim

/-- A mapping that must not replace others, over a direct and a flexible area. -/
theorem failed_mapMemory_keeps_mixed : ∃ s s', run .retail (init .retail) mixedCalls = .ok s ∧
    s.step .retail (.mapMemory 0x200008000 0x10000 .cpuRead
      (MemoryMapFlags.fixed ||| MemoryMapFlags.noOverwrite) .flexible "over" false (-1) 0) =
      .ok (s', .error .ENOMEM) ∧ s' = s := by
  obtain ⟨s, hs, hreach, ht⟩ := exists_reachable .retail mixedCalls
    (fun s => (s.step .retail (.mapMemory 0x200008000 0x10000 .cpuRead
      (MemoryMapFlags.fixed ||| MemoryMapFlags.noOverwrite) .flexible "over" false (-1) 0)).toOption.any
      fun (r : MemoryManager × Reply) => decide (r.2 = .error .ENOMEM))
    issued_mixedCalls (by with_unfolding_all decide)
  obtain ⟨⟨s', r⟩, hr, hfails⟩ := exists_of_any ht
  obtain rfl : r = .error .ENOMEM := of_decide_eq_true hfails
  exact ⟨s, s', hs, hr, failed_call_keeps_state hreach hr trivial⟩

end MemoryManager

end Core
