-- SUMMARY: Which memory a direct mapping accepts, how it refuses the rest, and what backs the new mapping.
import W7PS4.Memory.DirectState
import W7PS4.Memory.Failure
import W7PS4.Memory.Limits

/-!
# Mapping direct memory

`MapMemory` walks over the areas of the requested range twice, first to check them and then to
take them. What it accepts is a range of direct memory that is allocated throughout, and the
bytes of the new mapping are backed by the range in order. What it refuses it refuses before its
first change.
-/

namespace Core

namespace MemoryManager

variable {env : Environment} {s s' : MemoryManager} {phys size : Nat} {validateDmem : Bool}

/-- The range is in direct memory, and allocated or mapped throughout. -/
def Mappable (s : MemoryManager) (phys size : Nat) : Prop :=
  phys + size ≤ s.totalDirectSize ∧ ∀ q ∈ Set.Ico phys (phys + size), s.view.Used q

/-- Section views of the legacy backend cannot start here. -/
def Misaligned (env : Environment) (virtualAddr : Nat) (flags : MemoryMapFlags) (phys : Nat) : Prop :=
  env.isLegacyBackend ∧ (phys % 0x10000 ≠ 0 ∨ flags.has .fixed ∧ virtualAddr % 0x10000 ≠ 0)

/-- Validation meets a mapped byte of the range before one that is not allocated. -/
def MeetsMapped (s : MemoryManager) (phys size : Nat) : Prop :=
  phys + size ≤ s.totalDirectSize ∧ ∃ q ∈ Set.Ico phys (phys + size),
    s.view.dma q = some .mapped ∧ ∀ q' ∈ Set.Ico phys (phys + size), q' < q → s.view.Used q'

/-- The error a direct mapping of a range that is not mappable ends with. -/
def DirectRefusal (env : Environment) (s : MemoryManager) (virtualAddr size : Nat)
    (flags : MemoryMapFlags) (validateDmem : Bool) (phys : Nat) (e : OrbisError) : Prop :=
  Misaligned env virtualAddr flags phys ∧ e = .EINVAL ∨
    ¬Misaligned env virtualAddr flags phys ∧
      (validateDmem ∧ s.MeetsMapped phys size ∧ e = .EBUSY ∨
        ¬(validateDmem ∧ s.MeetsMapped phys size) ∧ e = .ENOMEM)

theorem checkDmemAreas_eq_some {endAddr : Nat} {es : List (Nat × PhysicalMemoryArea)}
    {e : OrbisError} (hr : checkDmemAreas validateDmem endAddr es = some e) :
    e = .ENOMEM ∨ validateDmem ∧ e = .EBUSY := by
  induction es with
  | nil => cases hr
  | cons a es ih =>
    simp only [checkDmemAreas] at hr
    split at hr
    · split at hr
      · exact .inl (Option.some.inj hr).symm
      · split at hr
        · next hmapped =>
          rw [Bool.and_eq_true] at hmapped
          exact .inr ⟨hmapped.1, (Option.some.inj hr).symm⟩
        · exact ih hr
    · cases hr

/-- The check of a range that is not mappable finds its error. -/
theorem checkPhysRange_eq_some (validateDmem : Bool) (h : s.Valid env) (hw : s.DirectWhole) (hpos : 0 < size)
    (hlt : phys + size < 2 ^ 64) (hnot : ¬s.Mappable phys size) :
    ∃ e, s.checkPhysRange size validateDmem phys = .ok (some e) ∧
      (validateDmem ∧ s.MeetsMapped phys size ∧ e = .EBUSY ∨
        ¬(validateDmem ∧ s.MeetsMapped phys size) ∧ e = .ENOMEM) := by
  have hne : phys ≠ U64.max := by
    simp only [U64.max]
    omega
  have hadd := U64.add_of_lt hlt
  by_cases hfits : phys + size ≤ s.totalDirectSize
  · have hsome : ∀ q ∈ Set.Ico phys (phys + size), (s.view.dmem q).isSome := by
      intro q hq
      have := (Set.mem_Ico.1 hq).2
      exact (hw q).2 (by omega)
    obtain ⟨k, a, hfloor, -⟩ := floor?_of_dmem h (hsome phys (Set.mem_Ico.2 ⟨le_rfl, by omega⟩))
    have hcheck : ∀ v, s.checkPhysRange size v phys =
        .ok (checkDmemAreas v (phys + size) (s.dmemMap.startingAt k)) := by
      intro v
      simp only [checkPhysRange, if_neg hne, hadd, if_neg (Nat.not_lt.2 hfits), hfloor]
      rfl
    cases hareas : checkDmemAreas validateDmem (phys + size) (s.dmemMap.startingAt k) with
    | none =>
      have hnone := checkPhysRange_eq_none h.dmem hne hlt (hareas ▸ hcheck validateDmem)
      refine absurd ⟨hfits, fun q hq => ?_⟩ hnot
      obtain ⟨b, hb⟩ := Option.isSome_iff_exists.1 (hsome q hq)
      exact (hnone q hq b hb).imp (fun ht => Memory.dma_eq_some.2 ⟨b, hb, ht⟩)
        fun ht => Memory.dma_eq_some.2 ⟨b, hb, ht⟩
    | some e =>
      refine ⟨e, hareas ▸ hcheck validateDmem, ?_⟩
      have hmeets : validateDmem ∧ s.MeetsMapped phys size ↔ validateDmem ∧ e = .EBUSY := by
        refine and_congr_right fun hv => ?_
        have hbusy := checkPhysRange_eq_busy_iff h hpos hsome (hadd ▸ hfits)
        rw [hcheck, ← hv, hareas] at hbusy
        simp only [MeetsMapped, hfits, true_and, ← hbusy, Except.ok.injEq, Option.some.injEq]
      rcases checkDmemAreas_eq_some hareas with he | ⟨hv, he⟩
      · subst he
        exact .inr ⟨(fun hmeet => by cases (hmeets.1 hmeet).2), rfl⟩
      · subst he
        exact .inl ⟨hv, (hmeets.2 ⟨hv, rfl⟩).2, rfl⟩
  · refine ⟨.ENOMEM, ?_, .inr ⟨fun hmeet => hfits hmeet.2.1, rfl⟩⟩
    simp only [checkPhysRange, if_neg hne, hadd, if_pos (Nat.lt_of_not_le hfits)]
    rfl

/-- A range that is not mappable is refused with nothing changed. -/
theorem mapMemory_refused (h : s.Valid env) (hw : s.DirectWhole) (hpos : 0 < size)
    (hlt : phys + size < 2 ^ 64) (hnot : ¬s.Mappable phys size) (virtualAddr alignment : Nat)
    (prot : MemoryProt) (flags : MemoryMapFlags) (name : String) (validateDmem : Bool) :
    ∃ e, DirectRefusal env s virtualAddr size flags validateDmem phys e ∧
      s.mapMemory env virtualAddr size prot flags .direct name validateDmem phys alignment =
        .ok (s, .error e) := by
  have hne : phys ≠ U64.max := by
    simp only [U64.max]
    omega
  obtain ⟨e, hcheck, hwhich⟩ := checkPhysRange_eq_some validateDmem h hw hpos hlt hnot
  by_cases hmis : Misaligned env virtualAddr flags phys
  · refine ⟨.EINVAL, .inl ⟨hmis, rfl⟩, ?_⟩
    obtain ⟨hlegacy, hbad⟩ := hmis
    by_cases hphys : phys % 0x10000 = 0
    · obtain ⟨hfixed, hvirt⟩ := hbad.resolve_left (not_not.2 hphys)
      simp only [mapMemory, mapMemoryChecks, hlegacy, hphys, hfixed, hvirt, hne, Bool.true_and,
        decide_true, decide_false, ne_eq, not_true_eq_false, not_false_eq_true, Bool.and_false,
        Bool.false_eq_true, if_false, if_true]
      rfl
    · simp only [mapMemory, mapMemoryChecks, hlegacy, hphys, hne, Bool.true_and, decide_true,
        ne_eq, not_false_eq_true, if_true]
      rfl
  · refine ⟨e, .inr ⟨hmis, hwhich⟩, ?_⟩
    refine mapMemory_of_checkPhysRange (fun hbad => hmis ⟨hbad.1, hbad.2.2⟩)
      (fun habs => by cases habs) hcheck

/-- A mapping has its bytes from the range, which was mappable. -/
theorem mapMemory_mapped (h : s.Valid env) (hw : s.DirectWhole) {virtualAddr alignment a : Nat}
    {prot : MemoryProt} {flags : MemoryMapFlags} {name : String} (haddr : virtualAddr < 2 ^ 64)
    (hpos : 0 < size) (hsize : size < 2 ^ 64) (hphys : phys < 2 ^ 64)
    (hr : s.mapMemory env virtualAddr size prot flags .direct name validateDmem phys alignment =
      .ok (s', .ok a)) :
    s.Mappable phys size ∧ ∀ i, i < size → s'.BackedAt .direct (a + i) (phys + i) := by
  obtain ⟨e, habs, -⟩ | ⟨a', ha, hmaps⟩ :=
    mapMemory_eq_ok h haddr hsize hphys (by decide) (by decide) hr
  · cases habs
  · cases ha
    obtain ⟨s₁, -, -, harea⟩ := hmaps.result
    constructor
    · refine ⟨?_, fun q hq => ?_⟩
      · obtain ⟨b, hb, -⟩ := hmaps.used rfl (phys + size - 1) (Set.mem_Ico.2 ⟨by omega, by omega⟩)
        have := (hw _).1 (Option.isSome_iff_exists.2 ⟨b, hb⟩)
        omega
      · obtain ⟨b, hb, ht⟩ := hmaps.used rfl q hq
        exact ht.imp (fun ht => Memory.dma_eq_some.2 ⟨b, hb, ht⟩)
          fun ht => Memory.dma_eq_some.2 ⟨b, hb, ht⟩
    · intro i hi
      rw [hmaps.valid.backedAt_iff rfl]
      have hbytes := harea.direct_bytes rfl
      generalize s'.view = m' at harea ⊢
      cases harea with
      | plain hplain => cases hplain
      | flexible hflexible => cases hflexible
      | direct => exact (Memory.maps_mapDirect hbytes).2 (.inl ⟨by omega, rfl, by omega⟩)

/-- `MapMemory` of direct memory: what it maps was mappable and backs the mapping in order, and
    what is not mappable it refuses, unless the end of the range wraps around. -/
theorem mapDirect_correct {virtualAddr size physAddr alignment : UInt64} {prot : MemoryProt}
    {flags : MemoryMapFlags} {name : String} {validateDmem : Bool}
    (h : Reachable env (setupFirst env) s) (hpos : 0 < size) :
    (∀ s' a, s.step env (.mapMemory virtualAddr size prot flags .direct name validateDmem physAddr
        alignment) = .ok (s', .mapped a) → s.Mappable physAddr.toNat size.toNat ∧
      ∀ i, i < size.toNat → s'.BackedAt .direct (a + i) (physAddr.toNat + i)) ∧
    (physAddr.toNat + size.toNat < 2 ^ 64 → ¬s.Mappable physAddr.toNat size.toNat →
      ∃ e, DirectRefusal env s virtualAddr.toNat size.toNat flags validateDmem physAddr.toNat e ∧
        s.step env (.mapMemory virtualAddr size prot flags .direct name validateDmem physAddr
          alignment) = .ok (s, .error e)) := by
  have hpos : 0 < size.toNat := hpos
  constructor
  · intro s' a hr
    simp only [step, Outcome.bind_eq_ok, Outcome.pure_eq_ok, Prod.mk.injEq] at hr
    obtain ⟨⟨s₁, r⟩, hr, rfl, hreply⟩ := hr
    cases r with
    | error e => cases hreply
    | ok a =>
      cases hreply
      exact mapMemory_mapped h.valid h.directWhole virtualAddr.toNat_lt hpos size.toNat_lt
        physAddr.toNat_lt hr
  · intro hlt hnot
    obtain ⟨e, hrefusal, hr⟩ := mapMemory_refused h.valid h.directWhole hpos hlt hnot
      virtualAddr.toNat alignment.toNat prot flags name validateDmem
    refine ⟨e, hrefusal, ?_⟩
    simp only [step, hr]
    rfl

/-- Two blocks of direct memory, of which the first is mapped and the second released. -/
def releasedBlockCalls : List Op :=
  [.allocate 0 0x100000000 0x8000 0 0,
   .mapMemory 0x200000000 0x4000 .cpuReadWrite .fixed .direct "a" true 0 0,
   .free 0x4000 0x4000 false]

theorem reachable_of_releasedBlockCalls {s : MemoryManager}
    (hr : run .retail (init .retail) releasedBlockCalls = .ok s) :
    Reachable .retail (setupFirst .retail) s := by
  refine reachable_of_run .refl hr ?_
  intro op hop
  refine ⟨by revert op; decide, fun s => ?_⟩
  simp only [releasedBlockCalls, List.mem_cons, List.not_mem_nil, or_false] at hop
  rcases hop with rfl | rfl | rfl <;> exact trivial

theorem mapDirect_correct_of_run : ∃ s, run .retail (init .retail) releasedBlockCalls = .ok s ∧
    (∀ s' a, s.step .retail (.mapMemory 0x300000000 0x4000 .cpuReadWrite .fixed .direct "b" false
        0 0) = .ok (s', .mapped a) → s.Mappable 0 0x4000 ∧
      ∀ i, i < 0x4000 → s'.BackedAt .direct (a + i) (0 + i)) := by
  have hrun : (run .retail (init .retail) releasedBlockCalls).isOk = true := by with_unfolding_all decide
  cases hs : run .retail (init .retail) releasedBlockCalls with
  | error e =>
    rw [hs] at hrun
    cases hrun
  | ok s => exact ⟨s, rfl, (mapDirect_correct (reachable_of_releasedBlockCalls hs) (by decide)).1⟩

/-- A validated mapping of the two blocks fails because the first is mapped, not because the
    second is free. -/
theorem not_mapDirect_correct_of_busy : ∃ s, run .retail (init .retail) releasedBlockCalls = .ok s ∧
    Reachable .retail (setupFirst .retail) s ∧ ¬s.Mappable 0 0x8000 ∧
    s.step .retail (.mapMemory 0x300000000 0x8000 .cpuReadWrite .fixed .direct "b" true 0 0) =
      .ok (s, .error .EBUSY) := by
  have hrun : (match run .retail (init .retail) releasedBlockCalls with
      | .ok s => decide ((s.dmemMap.at? 0x4000).map PhysByte.dmaType = some .free ∧
          (s.mapMemory .retail 0x300000000 0x8000 .cpuReadWrite .fixed .direct "b" true 0 0).map
            Prod.snd = .ok (.error .EBUSY))
      | .error _ => false) = true := by with_unfolding_all decide
  split at hrun
  · next s hs =>
    obtain ⟨hfree, hreply⟩ := of_decide_eq_true hrun
    refine ⟨s, hs, reachable_of_releasedBlockCalls hs, fun hmap => ?_, ?_⟩
    · rcases hmap.2 0x4000 (by decide) with ht | ht
      · cases hfree.symm.trans ht
      · cases hfree.symm.trans ht
    · cases hcall : s.mapMemory .retail 0x300000000 0x8000 .cpuReadWrite .fixed .direct "b" true 0 0 with
      | error e =>
        rw [hcall] at hreply
        cases hreply
      | ok out =>
        obtain ⟨s₁, r⟩ := out
        rw [hcall] at hreply
        have hbusy : r = .error .EBUSY := Except.ok.inj hreply
        subst hbusy
        obtain rfl := mapMemory_eq_error hcall
        exact step_eq_busy.2 hcall
  · cases hrun

end MemoryManager

end Core
