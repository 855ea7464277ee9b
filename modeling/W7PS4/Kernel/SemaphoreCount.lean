-- SUMMARY: The semaphore system calls, and when they keep every token count between zero and its maximum.
import W7PS4.Common.SlotVector
import W7PS4.Kernel.Semaphore

/-!
# The range of the token count

A semaphore is created with a count between zero and its maximum. The other calls pass
the guest's counts on unchecked: a negative need or signal moves the count the wrong
way, `Cancel` may set any count, and the sum that `Signal` compares with the maximum
may wrap. `Fits` names the arguments for which none of this happens.
-/

namespace Kernel

open Common
open Int32 (le_iff_toInt_le lt_iff_toInt_lt toInt_zero)

/-! ## The system calls -/

abbrev OrbisSems := SlotVector SemState

namespace OrbisSems

/-- `ORBIS_OK` comes with the handle. -/
def sceKernelCreateSema (sems : OrbisSems) (named : Bool) (attr : UInt32) (initCount maxCount : Int32) :
    OrbisSems × SemResult × Option Nat :=
  if !named ∨ attr > 2 ∨ initCount < 0 ∨ maxCount ≤ 0 ∨ initCount > maxCount then
    (sems, .einval, none)
  else
    let (sem, sems) := sems.insert (SemState.create initCount maxCount (attr = 1))
    (sems, .ok, some sem)

/-- The code the call returned with, if it has returned. -/
def resultOf (events : List SemEvent) : Option SemResult :=
  events.findSome? fun
    | .returned _ result => some result
    | _ => none

/-- No code: the call sleeps. -/
def sceKernelWaitSema (sems : OrbisSems) (sem : Nat) (needCount : Int32) (timeout : Option UInt32)
    (threadPriority : Nat) : OrbisSems × Option SemResult :=
  match sems.get? sem with
  | none => (sems, some .esrch)
  | some s =>
    let (s, events) := s.wait true needCount timeout threadPriority
    (sems.assign sem s, resultOf events)

def sceKernelSignalSema (sems : OrbisSems) (sem : Nat) (signalCount : Int32) :
    OrbisSems × Option SemResult :=
  match sems.get? sem with
  | none => (sems, some .esrch)
  | some s =>
    let (accepted, s, _) := s.signal signalCount
    (sems.assign sem s, some (if !accepted then .einval else .ok))

def sceKernelPollSema (sems : OrbisSems) (sem : Nat) (needCount : Int32) :
    OrbisSems × Option SemResult :=
  match sems.get? sem with
  | none => (sems, some .esrch)
  | some s =>
    let (s, events) := s.wait false needCount none 0
    (sems.assign sem s, resultOf events)

def sceKernelCancelSema (sems : OrbisSems) (sem : Nat) (setCount : Int32) :
    OrbisSems × Option SemResult :=
  match sems.get? sem with
  | none => (sems, some .esrch)
  | some s =>
    let (_, s, _) := s.cancel setCount
    (sems.assign sem s, some .ok)

/-- A sleeping `sceKernelWaitSema` goes on. -/
def resumeWait (sems : OrbisSems) (sem call : Nat) (elapsed : UInt32) :
    Option (OrbisSems × Option SemResult) :=
  match sems.get? sem with
  | none => none
  | some s => (s.wake call elapsed).map fun (s, events) => (sems.assign sem s, resultOf events)

end OrbisSems

inductive SemCall where
  | create (named : Bool) (attr : UInt32) (initCount maxCount : Int32)
  | wait (sem : Nat) (needCount : Int32) (timeout : Option UInt32) (threadPriority : Nat)
  | poll (sem : Nat) (needCount : Int32)
  | signal (sem : Nat) (signalCount : Int32)
  | cancel (sem : Nat) (setCount : Int32)
  | resume (sem call : Nat) (elapsed : UInt32)
deriving DecidableEq, Repr

/-- The semaphore that a call looks up. -/
def SemCall.sem : SemCall → Option Nat
  | .create .. => none
  | .wait sem .. | .poll sem _ | .signal sem _ | .cancel sem _ | .resume sem .. => some sem

/-- The history keeps each call with the code it returned. -/
def OrbisSems.call (sems : OrbisSems) (c : SemCall) :
    Option (OrbisSems × List (SemCall × Option SemResult)) :=
  let done := fun (r : OrbisSems × Option SemResult) => (r.1, [(c, r.2)])
  match c with
  | .create named attr initCount maxCount =>
    let r := sems.sceKernelCreateSema named attr initCount maxCount
    some (done (r.1, some r.2.1))
  | .wait sem needCount timeout threadPriority =>
    some (done (sems.sceKernelWaitSema sem needCount timeout threadPriority))
  | .poll sem needCount => some (done (sems.sceKernelPollSema sem needCount))
  | .signal sem signalCount => some (done (sems.sceKernelSignalSema sem signalCount))
  | .cancel sem setCount => some (done (sems.sceKernelCancelSema sem setCount))
  | .resume sem call elapsed => (sems.resumeWait sem call elapsed).map done

/-- A call that looks up a handle beyond the storage does something undefined. -/
def OrbisSems.step (sems : OrbisSems) (c : SemCall) :
    Option (OrbisSems × List (SemCall × Option SemResult)) :=
  if c.sem.all (sems.InStorage ·) then sems.call c else none

theorem OrbisSems.call_of_step {sems : OrbisSems} {c : SemCall}
    {r : OrbisSems × List (SemCall × Option SemResult)} (h : sems.step c = some r) : sems.call c = some r := by
  unfold step at h
  split at h
  · exact h
  · cases h

/-! ## One semaphore -/

namespace OrbisSem

def InRange (sem : OrbisSem) : Prop := 0 ≤ sem.tokenCount ∧ sem.tokenCount ≤ sem.maxCount

/-- A need that takes the count to at most the maximum. -/
def NeedFits (sem : OrbisSem) (needCount : Int32) : Prop :=
  sem.tokenCount.toInt - needCount.toInt ≤ sem.maxCount.toInt

/-- The sum is neither negative nor beyond the largest `s32`. -/
def SignalFits (sem : OrbisSem) (signalCount : Int32) : Prop :=
  0 ≤ sem.tokenCount.toInt + signalCount.toInt ∧ sem.tokenCount.toInt + signalCount.toInt < 2 ^ 31

def CancelFits (sem : OrbisSem) (setCount : Int32) : Prop := setCount ≤ sem.maxCount

instance {sem : OrbisSem} {needCount : Int32} : Decidable (sem.NeedFits needCount) :=
  inferInstanceAs (Decidable (_ ≤ _))

instance {sem : OrbisSem} {signalCount : Int32} : Decidable (sem.SignalFits signalCount) :=
  inferInstanceAs (Decidable (_ ∧ _))

instance {sem : OrbisSem} {setCount : Int32} : Decidable (sem.CancelFits setCount) :=
  inferInstanceAs (Decidable (_ ≤ _))

end OrbisSem

namespace SemState

/-- The count is in range, and every queued waiter needs something. -/
structure Ranged (s : SemState) : Prop where
  inRange : s.sem.InRange
  initCount : s.sem.initCount ≤ s.sem.maxCount ∧ 0 ≤ s.sem.initCount
  nodup : s.sem.waitList.Nodup
  known : ∀ call ∈ s.sem.waitList, call < s.nextCall
  needs : ∀ call ∈ s.sem.waitList, 0 < (s.frames call).waiter.needCount

theorem ranged_create {initCount maxCount : Int32} {isFifo : Bool} (hlow : 0 ≤ initCount)
    (hhigh : initCount ≤ maxCount) : (create initCount maxCount isFifo).Ranged :=
  ⟨⟨hlow, hhigh⟩, ⟨hhigh, hlow⟩, List.nodup_nil, nofun, nofun⟩

variable {s : SemState} {signalCount : Int32}

theorem Ranged.bounds (hs : s.Ranged) :
    0 ≤ s.sem.tokenCount.toInt ∧ s.sem.tokenCount.toInt ≤ s.sem.maxCount.toInt := by
  have h := hs.inRange
  rwa [OrbisSem.InRange, le_iff_toInt_le, le_iff_toInt_le, toInt_zero] at h

theorem wait_inRange_iff {s : SemState} (hs : s.Ranged) {canBlock : Bool} {needCount : Int32}
    {timeout : Option UInt32} {threadPriority : Nat} :
    (s.wait canBlock needCount timeout threadPriority).1.sem.InRange ↔ s.sem.NeedFits needCount := by
  have hbounds := hs.bounds
  have hmax := s.sem.maxCount.toInt_lt
  have hneed := needCount.le_toInt
  obtain ⟨htake, heq⟩ | ⟨htake, _, -, heq⟩ | ⟨htake, _, _, -, heq⟩ :=
    wait_cases s canBlock needCount timeout threadPriority
  · simp only [heq, OrbisSem.InRange, OrbisSem.NeedFits, le_iff_toInt_le, toInt_zero,
      Int32.toInt_sub] at *
    by_cases hfits : s.sem.tokenCount.toInt - needCount.toInt < 2 ^ 31
    · rw [Int.bmod_eq_of_le (by omega) (by omega)]
      omega
    · -- The difference wraps to a negative count.
      have hwraps : (s.sem.tokenCount.toInt - needCount.toInt).bmod (2 ^ 32) =
          s.sem.tokenCount.toInt - needCount.toInt - 2 ^ 32 := by
        rw [← Int.sub_bmod_right]
        exact Int.bmod_eq_of_le (by omega) (by omega)
      omega
  · rw [le_iff_toInt_le] at htake
    rw [heq]
    exact ⟨fun _ => by unfold OrbisSem.NeedFits; omega, fun _ => hs.inRange⟩
  · rw [le_iff_toInt_le] at htake
    rw [heq]
    exact ⟨fun _ => by unfold OrbisSem.NeedFits; omega, fun _ => hs.inRange⟩

theorem wait_ranged (hs : s.Ranged) {canBlock : Bool} {needCount : Int32}
    {timeout : Option UInt32} {threadPriority : Nat} (hfits : s.sem.NeedFits needCount) :
    (s.wait canBlock needCount timeout threadPriority).1.Ranged := by
  have hrange := (@wait_inRange_iff s hs canBlock needCount timeout threadPriority).mpr hfits
  have hknown : ∀ call ∈ s.sem.waitList, call < s.nextCall + 1 := fun call hcall =>
    Nat.lt_succ_of_lt (hs.known call hcall)
  obtain ⟨-, heq⟩ | ⟨-, _, -, heq⟩ | ⟨htake, waitList, priority, hperm, heq⟩ :=
    wait_cases s canBlock needCount timeout threadPriority
  · rw [heq] at hrange ⊢
    exact ⟨hrange, hs.initCount, hs.nodup, hknown, hs.needs⟩
  · rw [heq] at hrange ⊢
    exact ⟨hrange, hs.initCount, hs.nodup, hknown, hs.needs⟩
  · rw [heq] at hrange ⊢
    have hnew : s.nextCall ∉ s.sem.waitList := fun h => absurd (hs.known _ h) (lt_irrefl _)
    refine ⟨hrange, hs.initCount, ?_, ?_, ?_⟩
    · exact hperm.nodup_iff.mpr (List.nodup_cons.mpr ⟨hnew, hs.nodup⟩)
    · intro call hcall
      cases List.mem_cons.mp (hperm.subset hcall) with
      | inl h =>
        subst h
        exact Nat.lt_succ_self _
      | inr h => exact hknown call h
    · intro call hcall
      cases List.mem_cons.mp (hperm.subset hcall) with
      | inl h =>
        subst h
        have hbounds := hs.bounds
        rw [le_iff_toInt_le] at htake
        simp only [enqueue, Function.update_self, lt_iff_toInt_lt, toInt_zero]
        omega
      | inr h =>
        simp only [enqueue, Function.update_of_ne (fun heq => hnew (heq ▸ h) : call ≠ s.nextCall)]
        exact hs.needs call h

theorem wake_ranged {s s' : SemState} (hs : s.Ranged) {call : Nat} {elapsed : UInt32}
    {events : List SemEvent} (hwake : s.wake call elapsed = some (s', events)) : s'.Ranged := by
  obtain ⟨-, -, hcases⟩ := wake_cases hwake
  have hneeds : ∀ c ∈ s.sem.waitList,
      0 < (Function.update s.frames call ((s.frames call).finish elapsed) c).waiter.needCount := by
    intro c hc
    by_cases hcall : c = call
    · subst hcall
      rw [Function.update_self]
      exact hs.needs c hc
    · rw [Function.update_of_ne hcall]
      exact hs.needs c hc
  obtain ⟨-, rfl, -⟩ | ⟨-, rfl, -⟩ := hcases
  · have hsub : ∀ c ∈ s.sem.waitList.erase call, c ∈ s.sem.waitList := fun c hc =>
      List.mem_of_mem_erase hc
    exact ⟨hs.inRange, hs.initCount, hs.nodup.erase _, fun c hc => hs.known c (hsub c hc),
      fun c hc => hneeds c (hsub c hc)⟩
  · exact ⟨hs.inRange, hs.initCount, hs.nodup, hs.known, hneeds⟩

/-- `Signal` fails exactly when the sum, computed without wrapping, exceeds the maximum. -/
def SignalRight (s : SemState) (signalCount : Int32) : Prop :=
  (s.signal signalCount).1 = false ↔
    s.sem.tokenCount.toInt + signalCount.toInt > s.sem.maxCount.toInt

theorem signalRight_iff (hs : s.Ranged) :
    s.SignalRight signalCount ↔ s.sem.tokenCount.toInt + signalCount.toInt < 2 ^ 31 := by
  have hbounds := hs.bounds
  have hmax := s.sem.maxCount.toInt_lt
  have hcount := signalCount.le_toInt
  have hcount' := signalCount.toInt_lt
  have hfalse : (s.signal signalCount).1 = false ↔
      s.sem.maxCount.toInt < (s.sem.tokenCount.toInt + signalCount.toInt).bmod (2 ^ 32) := by
    rw [← Int32.toInt_add, ← lt_iff_toInt_lt, signal]
    split <;> simp_all
  rw [SignalRight, hfalse]
  by_cases hfits : s.sem.tokenCount.toInt + signalCount.toInt < 2 ^ 31
  · rw [Int.bmod_eq_of_le (by omega) (by omega)]
    exact ⟨fun _ => hfits, fun _ => Iff.rfl⟩
  · -- The wrapped sum is negative, so the signal is accepted.
    have hwraps : (s.sem.tokenCount.toInt + signalCount.toInt).bmod (2 ^ 32) =
        s.sem.tokenCount.toInt + signalCount.toInt - 2 ^ 32 := by
      rw [← Int.sub_bmod_right]
      exact Int.bmod_eq_of_le (by omega) (by omega)
    omega

theorem signal_ranged (hs : s.Ranged)
    (hfits : s.sem.SignalFits signalCount) : (s.signal signalCount).2.1.Ranged := by
  have hsum : (s.sem.tokenCount + signalCount).toInt = s.sem.tokenCount.toInt + signalCount.toInt :=
    toInt_add_of_fits (le_trans (by decide) hfits.1) hfits.2
  simp only [signal]
  split
  · exact hs
  rename_i haccepted
  have hserves := @signalLoop_serves s.sem.waitList (s.sem.tokenCount + signalCount) s.frames
    hs.nodup hs.needs
  have hle := hserves.le hs.needs
  refine ⟨⟨hserves.nonneg ?_, ?_⟩, hs.initCount, hs.nodup.sublist hserves.skipped, ?_, ?_⟩
  · rw [le_iff_toInt_le, hsum, toInt_zero]
    exact hfits.1
  · simp only [gt_iff_lt, lt_iff_toInt_lt, le_iff_toInt_le] at haccepted hle ⊢
    omega
  · exact fun call hcall => hs.known call (hserves.skipped.subset hcall)
  · intro call hcall
    have hneed := hs.needs call (hserves.skipped.subset hcall)
    have hother := hserves.notMem_granted hs.nodup hcall
    simpa only [hserves.frames_other call hother] using hneed

theorem signalFits_iff (hs : s.Ranged) : (s.signal signalCount).2.1.sem.InRange ∧ s.SignalRight signalCount ↔
      s.sem.SignalFits signalCount := by
  constructor
  · rintro ⟨hrange, hright⟩
    have hhigh := (signalRight_iff hs).mp hright
    refine ⟨?_, hhigh⟩
    have hbounds := hs.bounds
    have hcount := signalCount.le_toInt
    have hsum : (s.sem.tokenCount + signalCount).toInt =
        s.sem.tokenCount.toInt + signalCount.toInt := toInt_add_of_fits (by omega) hhigh
    simp only [signal] at hrange
    split at hrange
    · next hrejected =>
      rw [gt_iff_lt, lt_iff_toInt_lt, hsum] at hrejected
      omega
    · -- The pass over the queue only lowers the count.
      have hle := (@signalLoop_serves s.sem.waitList (s.sem.tokenCount + signalCount) s.frames
        hs.nodup hs.needs).le hs.needs
      have hlow := hrange.1
      rw [le_iff_toInt_le, hsum] at hle
      rw [le_iff_toInt_le, toInt_zero] at hlow
      exact le_trans hlow hle
  · exact fun hfits => ⟨(signal_ranged hs hfits).inRange, (signalRight_iff hs).mpr hfits.2⟩

theorem cancel_inRange_iff (hs : s.Ranged) {setCount : Int32} :
    (s.cancel setCount).2.1.sem.InRange ↔ s.sem.CancelFits setCount := by
  have hinit := hs.initCount
  have hbounds := hs.bounds
  simp only [cancel, OrbisSem.InRange, OrbisSem.CancelFits, le_iff_toInt_le,
    lt_iff_toInt_lt, toInt_zero] at *
  split
  · omega
  · omega

theorem cancel_ranged (hs : s.Ranged) {setCount : Int32}
    (hfits : s.sem.CancelFits setCount) : (s.cancel setCount).2.1.Ranged :=
  ⟨(cancel_inRange_iff hs).mpr hfits, hs.initCount, List.nodup_nil, nofun, nofun⟩

end SemState

/-! ## All semaphores -/

namespace OrbisSems

def AllInRange (sems : OrbisSems) : Prop := ∀ sem s, sems.get? sem = some s → s.sem.InRange

def AllRanged (sems : OrbisSems) : Prop := ∀ sem s, sems.get? sem = some s → s.Ranged

/-- The counts a call passes on fit the semaphore it is for. -/
def Fits (sems : OrbisSems) : SemCall → Prop
  | .wait sem needCount _ _ => ∀ s ∈ sems.get? sem, s.sem.NeedFits needCount
  | .poll sem needCount => ∀ s ∈ sems.get? sem, s.sem.NeedFits needCount
  | .signal sem signalCount => ∀ s ∈ sems.get? sem, s.sem.SignalFits signalCount
  | .cancel sem setCount => ∀ s ∈ sems.get? sem, s.sem.CancelFits setCount
  | .create .. | .resume .. => True

/-- A `sceKernelSignalSema` on a semaphore failed exactly when the sum exceeds the maximum. -/
def SignalRight (sems : OrbisSems) (c : SemCall) (result : Option SemResult) : Prop :=
  match c with
  | .signal sem signalCount => ∀ s ∈ sems.get? sem,
    (result ≠ some .ok ↔ s.sem.tokenCount.toInt + signalCount.toInt > s.sem.maxCount.toInt)
  | _ => True

variable {sems : OrbisSems}

theorem AllRanged.assign (hsems : sems.AllRanged) {sem : Nat} {s : SemState}
    (hs : s.Ranged) : AllRanged (sems.assign sem s) := by
  intro i t ht
  cases SlotVector.get?_assign ht with
  | inl h => exact h.1 ▸ hs
  | inr h => exact hsems i t h

theorem AllRanged.allInRange (hsems : sems.AllRanged) : sems.AllInRange :=
  fun sem s hs => (hsems sem s hs).inRange

theorem AllRanged.assign_iff (hsems : sems.AllRanged) {sem : Nat} {s s' : SemState}
    (hs : sems.get? sem = some s) : AllInRange (sems.assign sem s') ↔ s'.sem.InRange := by
  constructor
  · exact fun h => h sem s' (SlotVector.get?_assign_self hs)
  · intro h i t ht
    cases SlotVector.get?_assign ht with
    | inl heq => exact heq.1 ▸ h
    | inr hget => exact (hsems i t hget).inRange

theorem create_allRanged (hsems : sems.AllRanged) {named : Bool} {attr : UInt32} {initCount maxCount : Int32} :
    AllRanged (sems.sceKernelCreateSema named attr initCount maxCount).1 := by
  simp only [sceKernelCreateSema]
  split
  · exact hsems
  rename_i hvalid
  simp only [not_or, Int32.not_lt, gt_iff_lt] at hvalid
  intro i t ht
  cases SlotVector.get?_insert ht with
  | inl h => exact h ▸ SemState.ranged_create hvalid.2.2.1 hvalid.2.2.2.2
  | inr h => exact hsems i t h

theorem resume_allRanged (hsems : sems.AllRanged) {sem call : Nat} {elapsed : UInt32}
    {r : OrbisSems × Option SemResult} (h : sems.resumeWait sem call elapsed = some r) :
    AllRanged r.1 := by
  simp only [resumeWait] at h
  split at h
  · cases h
  rename_i s hs
  obtain ⟨⟨s', events⟩, hwake, rfl⟩ := Option.map_eq_some_iff.mp h
  exact hsems.assign (SemState.wake_ranged (hsems sem s hs) hwake)

/-- A call whose counts fit keeps every semaphore's invariant. -/
theorem step_allRanged {sems sems' : OrbisSems} {c : SemCall} {events : List (SemCall × Option SemResult)}
    (hsems : sems.AllRanged) (hfits : sems.Fits c) (hstep : sems.step c = some (sems', events)) :
    sems'.AllRanged := by
  replace hstep := call_of_step hstep
  cases c with
  | create named attr initCount maxCount =>
    cases hstep
    exact create_allRanged hsems
  | wait sem needCount timeout threadPriority =>
    cases hstep
    simp only [sceKernelWaitSema]
    split
    · exact hsems
    · next s hs => exact hsems.assign (SemState.wait_ranged (hsems sem s hs) (hfits s hs))
  | poll sem needCount =>
    cases hstep
    simp only [sceKernelPollSema]
    split
    · exact hsems
    · next s hs => exact hsems.assign (SemState.wait_ranged (hsems sem s hs) (hfits s hs))
  | signal sem signalCount =>
    cases hstep
    simp only [sceKernelSignalSema]
    split
    · exact hsems
    · next s hs => exact hsems.assign (SemState.signal_ranged (hsems sem s hs) (hfits s hs))
  | cancel sem setCount =>
    cases hstep
    simp only [sceKernelCancelSema]
    split
    · exact hsems
    · next s hs => exact hsems.assign (SemState.cancel_ranged (hsems sem s hs) (hfits s hs))
  | resume sem call elapsed =>
    obtain ⟨r, hr, heq⟩ := Option.map_eq_some_iff.mp hstep
    cases heq
    exact resume_allRanged hsems hr

/-- A call keeps every count in range, and a signal is decided by the true sum, exactly when the
    counts fit. -/
theorem step_inRange_iff {sems sems' : OrbisSems} {c : SemCall}
    {events : List (SemCall × Option SemResult)} (hsems : sems.AllRanged)
    (hstep : sems.step c = some (sems', events)) :
    (sems'.AllInRange ∧ ∀ e ∈ events, sems.SignalRight e.1 e.2) ↔ sems.Fits c := by
  have hranged := fun hfits => step_allRanged hsems hfits hstep
  replace hstep := call_of_step hstep
  have hnone : ∀ {sem : Nat} {P : SemState → Prop}, sems.get? sem = none →
      ∀ s ∈ sems.get? sem, P s := fun h s hs => by rw [h] at hs; cases hs
  have hsome : ∀ {sem : Nat} {s : SemState} {P : SemState → Prop}, sems.get? sem = some s →
      ((∀ t ∈ sems.get? sem, P t) ↔ P s) := fun h => by simp [h]
  cases c with
  | create named attr initCount maxCount =>
    have := (hranged trivial).allInRange
    cases hstep
    simpa [Fits, SignalRight] using this
  | wait sem needCount timeout threadPriority =>
    cases hstep
    simp only [sceKernelWaitSema, SignalRight, Fits, List.mem_singleton, forall_eq, and_true]
    split
    · next hs => exact ⟨fun _ => hnone hs, fun _ => hsems.allInRange⟩
    rename_i s hs
    rw [hsome hs]
    exact (hsems.assign_iff hs).trans (SemState.wait_inRange_iff (hsems sem s hs))
  | poll sem needCount =>
    cases hstep
    simp only [sceKernelPollSema, SignalRight, Fits, List.mem_singleton, forall_eq, and_true]
    split
    · next hs => exact ⟨fun _ => hnone hs, fun _ => hsems.allInRange⟩
    rename_i s hs
    rw [hsome hs]
    exact (hsems.assign_iff hs).trans (SemState.wait_inRange_iff (hsems sem s hs))
  | signal sem signalCount =>
    cases hstep
    simp only [sceKernelSignalSema, SignalRight, Fits, List.mem_singleton, forall_eq]
    split
    · next hs => exact ⟨fun _ => hnone hs, fun _ => ⟨hsems.allInRange, hnone hs⟩⟩
    rename_i s hs
    have hresult : (some (if !(s.signal signalCount).1 then SemResult.einval else SemResult.ok) ≠ some .ok) ↔
        (s.signal signalCount).1 = false := by
      cases (s.signal signalCount).1 <;> simp
    rw [hsome hs, hsome hs, ← SemState.signalFits_iff (hsems sem s hs), SemState.SignalRight]
    exact and_congr (hsems.assign_iff hs) (iff_congr hresult Iff.rfl)
  | cancel sem setCount =>
    cases hstep
    simp only [sceKernelCancelSema, SignalRight, Fits, List.mem_singleton, forall_eq, and_true]
    split
    · next hs => exact ⟨fun _ => hnone hs, fun _ => hsems.allInRange⟩
    rename_i s hs
    rw [hsome hs]
    exact (hsems.assign_iff hs).trans (SemState.cancel_inRange_iff (hsems sem s hs))
  | resume sem call elapsed =>
    have := (hranged trivial).allInRange
    obtain ⟨r, hr, heq⟩ := Option.map_eq_some_iff.mp hstep
    cases heq
    simpa [Fits, SignalRight] using this

/-- In a run whose calls all pass counts that fit, every count stays in range, and whether the next
    call keeps it so and decides a signal by the true sum is whether its counts fit. -/
theorem inRange_of_fits {sems : OrbisSems} {history : List (SemCall × Option SemResult)}
    (hreach : Reaches OrbisSems.step OrbisSems.Fits .empty sems history) :
    sems.AllInRange ∧ ∀ c sems' events, sems.step c = some (sems', events) →
      ((sems'.AllInRange ∧ ∀ e ∈ events, sems.SignalRight e.1 e.2) ↔ sems.Fits c) := by
  have hsems : sems.AllRanged := by
    refine hreach.invariant (P := fun sems _ => sems.AllRanged) ?_ ?_
    · intro sem s hs
      rw [SlotVector.get?_empty] at hs
      cases hs
    · exact fun _ _ _ _ _ hsems hfits hstep => step_allRanged hsems hfits hstep
  exact ⟨hsems.allInRange, fun c sems' events hstep => step_inRange_iff hsems hstep⟩

instance {sems : OrbisSems} {c : SemCall} : Decidable (sems.Fits c) :=
  match c with
  | .wait sem needCount _ _ =>
    inferInstanceAs (Decidable (∀ s ∈ sems.get? sem, s.sem.NeedFits needCount))
  | .poll sem needCount => inferInstanceAs (Decidable (∀ s ∈ sems.get? sem, s.sem.NeedFits needCount))
  | .signal sem signalCount =>
    inferInstanceAs (Decidable (∀ s ∈ sems.get? sem, s.sem.SignalFits signalCount))
  | .cancel sem setCount => inferInstanceAs (Decidable (∀ s ∈ sems.get? sem, s.sem.CancelFits setCount))
  | .create .. | .resume .. => inferInstanceAs (Decidable True)

/-- One thread sleeps on a semaphore until another one signals it. -/
def handOver : List SemCall :=
  [.create true 1 0 4, .wait 0 3 none 700, .signal 0 4, .resume 0 0 0]

theorem inRange_handOver : ∃ sems history, runAllowed step Fits .empty [] handOver = some (sems, history) ∧
    history.map Prod.snd = [some .ok, none, some .ok, some .ok] ∧ sems.AllInRange := by
  have hrun : (match runAllowed step Fits .empty [] handOver with
      | some (_, history) => decide (history.map Prod.snd = [some .ok, none, some .ok, some .ok])
      | none => false) = true := by decide +kernel
  split at hrun
  · next sems history heq =>
    exact ⟨sems, history, heq, of_decide_eq_true hrun,
      (inRange_of_fits (Reaches.of_runAllowed .start heq)).1⟩
  · cases hrun

/-- The sum of one and the largest `s32` wraps: the signal is accepted and the count is negative. -/
theorem signal_wraps : ¬∀ sems history,
    Reaches OrbisSems.step (fun _ _ => True) .empty sems history →
    sems.AllInRange ∧ ∀ c sems' events, sems.step c = some (sems', events) →
      ∀ e ∈ events, sems.SignalRight e.1 e.2 := by
  intro hall
  have hrun : (match runAllowed step (fun _ _ => True) .empty []
        [.create true 1 1 0x7fffffff, .signal 0 0x7fffffff] with
      | some (sems, _) => decide (((sems.get? 0).map fun s => s.sem.tokenCount) = some (-2 ^ 31))
      | none => false) = true := by decide +kernel
  split at hrun
  · next sems history heq =>
    obtain ⟨s, hs, hcount⟩ := Option.map_eq_some_iff.mp (of_decide_eq_true hrun)
    have hrange := (hall sems history (Reaches.of_runAllowed .start heq)).1 0 s hs
    rw [OrbisSem.InRange, hcount] at hrange
    exact absurd hrange.1 (by decide)
  · cases hrun

end OrbisSems

end Kernel
