-- SUMMARY: The kernel semaphore `OrbisSem`: its waiters and its mutex-protected steps.
import W7PS4.Lib.Queue
import W7PS4.Lib.Reaches
import Mathlib

/-!
# Kernel semaphores

`OrbisSem` counts tokens. A call of `Wait` takes the tokens it needs or queues a
`WaitingThread`, which lives in the frame of the call, and sleeps on that waiter's own
binary semaphore with the mutex released. `Signal`, `Cancel` and `Delete` take waiters
off the queue and release them; a waiter whose time is up takes itself off, once it has
the mutex again.

Everything between two points where the mutex is free is one action. The counts are
`s32`, so they are `Int32` and wrap.
-/

namespace Kernel

inductive SemResult where
  | ok
  | ebusy
  | etimedout
  | eacces
  | ecanceled
  | esrch
  | einval
deriving DecidableEq, Repr

/-! ## Waiters -/

structure WaitingThread where
  /-- The count of its `BinarySemaphore`. -/
  sem : Nat
  priority : Nat
  needCount : Int32
  wasSignaled : Bool
  wasDeleted : Bool
  wasCanceled : Bool
deriving DecidableEq, Repr

namespace WaitingThread

def create (needCount : Int32) (isFifo : Bool) (threadPriority : Nat) : WaitingThread :=
  ⟨0, if isFifo then 0 else threadPriority, needCount, false, false, false⟩

def getResult (w : WaitingThread) : SemResult :=
  if w.wasSignaled then .ok
  else if w.wasDeleted then .eacces
  else if w.wasCanceled then .ecanceled
  else .etimedout

def signaled (w : WaitingThread) : WaitingThread :=
  { w with wasSignaled := true, sem := w.sem + 1 }

def canceled (w : WaitingThread) : WaitingThread :=
  { w with wasCanceled := true, sem := w.sem + 1 }

def deleted (w : WaitingThread) : WaitingThread :=
  { w with wasDeleted := true, sem := w.sem + 1 }

end WaitingThread

/-- The frame of a `Wait` call that queued a waiter. -/
structure WaitFrame where
  waiter : WaitingThread
  /-- `*timeout`, for a call with a timeout. -/
  timeout : Option UInt32
  /-- The call has not returned. -/
  live : Bool
deriving DecidableEq, Repr

def WaitFrame.modify (frame : WaitFrame) (f : WaitingThread → WaitingThread) : WaitFrame :=
  { frame with waiter := f frame.waiter }

variable {frame : WaitFrame}

@[simp] theorem WaitFrame.modify_waiter {f : WaitingThread → WaitingThread} :
    (frame.modify f).waiter = f frame.waiter := rfl

@[simp] theorem WaitFrame.modify_live {f : WaitingThread → WaitingThread} :
    (frame.modify f).live = frame.live := rfl

/-- The call returns; `*timeout` keeps what is left of the time, or nothing. -/
def WaitFrame.finish (frame : WaitFrame) (elapsed : UInt32) : WaitFrame :=
  { frame with
    timeout := frame.timeout.map fun t => if frame.waiter.wasSignaled then t - elapsed else 0
    live := false }

@[simp] theorem WaitFrame.finish_waiter {elapsed : UInt32} : (frame.finish elapsed).waiter = frame.waiter := rfl

@[simp] theorem WaitFrame.finish_live {elapsed : UInt32} : (frame.finish elapsed).live = false := rfl

def WaitFrame.unused : WaitFrame := ⟨WaitingThread.create 0 true 0, none, false⟩

/-! ## The semaphore -/

structure OrbisSem where
  /-- Pointers to waiters, by the call whose frame holds the waiter. -/
  waitList : List Nat
  tokenCount : Int32
  maxCount : Int32
  initCount : Int32
  isFifo : Bool
deriving DecidableEq, Repr

/-- A semaphore with the frames of the calls on it. -/
structure SemState where
  sem : OrbisSem
  frames : Nat → WaitFrame
  /-- Calls of `Wait` are numbered in the order in which they get the mutex. -/
  nextCall : Nat

def SemState.create (initCount maxCount : Int32) (isFifo : Bool) : SemState :=
  ⟨⟨[], initCount, maxCount, initCount, isFifo⟩, fun _ => .unused, 0⟩

/-- What a step decides. The numbers are those of the calls. -/
inductive SemEvent where
  /-- A signal was accepted. -/
  | accepted (count : Int32)
  /-- `Cancel` sets the count. -/
  | reset (count : Int32)
  | queued (call : Nat)
  /-- The call took its tokens: it has returned or will return `ORBIS_OK`. -/
  | granted (call : Nat) (needCount : Int32)
  | canceled (call : Nat)
  | deleted (call : Nat)
  | timedOut (call : Nat)
  | returned (call : Nat) (result : SemResult)
deriving DecidableEq, Repr

namespace SemState

/-- A waiter goes to the end, or right before the first one with lower priority (a greater number). -/
def addWaiter (isFifo : Bool) (priorityOf : Nat → Nat) (waitList : List Nat) (call : Nat) : List Nat :=
  if isFifo then waitList ++ [call]
  else
    waitList.takeWhile (fun it => priorityOf it ≤ priorityOf call) ++
      call :: waitList.dropWhile (fun it => priorityOf it ≤ priorityOf call)

/-- `Wait` up to the point where it returns or sleeps. -/
def wait (s : SemState) (canBlock : Bool) (needCount : Int32) (timeout : Option UInt32)
    (threadPriority : Nat) : SemState × List SemEvent :=
  let call := s.nextCall
  let s := { s with nextCall := call + 1 }
  if s.sem.tokenCount ≥ needCount then
    ({ s with sem := { s.sem with tokenCount := s.sem.tokenCount - needCount } },
      [.granted call needCount, .returned call .ok])
  else if !canBlock then
    (s, [.returned call .ebusy])
  else if timeout = some 0 then
    (s, [.returned call .etimedout])
  else
    let waiter := WaitingThread.create needCount s.sem.isFifo threadPriority
    let frames := Function.update s.frames call ⟨waiter, timeout, true⟩
    let waitList := addWaiter s.sem.isFifo (fun it => (frames it).waiter.priority) s.sem.waitList call
    ({ s with sem := { s.sem with waitList := waitList }, frames := frames }, [.queued call])

/-- The rest of `Wait` for a call that slept, from the point where it has the mutex again.
    A call without a timeout gets there only once its waiter has been released. -/
def wake (s : SemState) (call : Nat) (elapsed : UInt32) : Option (SemState × List SemEvent) :=
  let frame := s.frames call
  if frame.live ∧ (frame.timeout = none → 0 < frame.waiter.sem) then
    let result := frame.waiter.getResult
    let s := { s with frames := Function.update s.frames call (frame.finish elapsed) }
    if result = .etimedout then
      some ({ s with sem := { s.sem with waitList := s.sem.waitList.erase call } },
        [.timedOut call, .returned call result])
    else
      some (s, [.returned call result])
  else none

/-- The state of the loop in `Signal`; the waiters it skipped and those it took off the list. -/
structure SignalPass where
  skipped : List Nat
  tokenCount : Int32
  frames : Nat → WaitFrame
  granted : List (Nat × Int32)

def signalLoop : List Nat → Int32 → (Nat → WaitFrame) → SignalPass
  | [], tokenCount, frames => ⟨[], tokenCount, frames, []⟩
  | it :: rest, tokenCount, frames =>
    let frame := frames it
    if frame.waiter.needCount > tokenCount then
      let pass := signalLoop rest tokenCount frames
      { pass with skipped := it :: pass.skipped }
    else
      let pass := signalLoop rest (tokenCount - frame.waiter.needCount)
        (Function.update frames it (frame.modify .signaled))
      { pass with granted := (it, frame.waiter.needCount) :: pass.granted }

/-- The `bool` that `Signal` returns comes first. -/
def signal (s : SemState) (signalCount : Int32) : Bool × SemState × List SemEvent :=
  if s.sem.tokenCount + signalCount > s.sem.maxCount then
    (false, s, [])
  else
    let pass := signalLoop s.sem.waitList (s.sem.tokenCount + signalCount) s.frames
    (true,
      { s with
        sem := { s.sem with waitList := pass.skipped, tokenCount := pass.tokenCount }
        frames := pass.frames },
      .accepted signalCount :: pass.granted.map fun g => .granted g.1 g.2)

/-- `Cancel` and `Delete` mark and release every queued waiter. -/
def releaseAll (mark : WaitingThread → WaitingThread) (waitList : List Nat)
    (frames : Nat → WaitFrame) : Nat → WaitFrame :=
  updateEach (WaitFrame.modify · mark) waitList frames

/-- `*num_waiters` comes first. -/
def cancel (s : SemState) (setCount : Int32) : Int32 × SemState × List SemEvent :=
  let tokenCount := if setCount < 0 then s.sem.initCount else setCount
  (Int32.ofNat s.sem.waitList.length, { s with
      sem := { s.sem with waitList := [], tokenCount := tokenCount }
      frames := releaseAll .canceled s.sem.waitList s.frames },
    s.sem.waitList.map .canceled ++ [.reset tokenCount])

def delete (s : SemState) : SemState × List SemEvent :=
  ({ s with
      sem := { s.sem with waitList := [] }
      frames := releaseAll .deleted s.sem.waitList s.frames },
    s.sem.waitList.map .deleted)

end SemState

/-! ## Actions -/

inductive SemAction where
  /-- A call of `Wait` or `Poll` gets the mutex. -/
  | wait (canBlock : Bool) (needCount : Int32) (timeout : Option UInt32) (threadPriority : Nat)
  /-- A sleeping call, released or out of time, gets the mutex again. -/
  | wake (call : Nat) (elapsed : UInt32)
  | signal (signalCount : Int32)
  | cancel (setCount : Int32)
  | delete
deriving DecidableEq, Repr

def SemState.step (s : SemState) : SemAction → Option (SemState × List SemEvent)
  | .wait canBlock needCount timeout threadPriority =>
    some (s.wait canBlock needCount timeout threadPriority)
  | .wake call elapsed => s.wake call elapsed
  | .signal signalCount => some (s.signal signalCount).2
  | .cancel setCount => some (s.cancel setCount).2
  | .delete => some s.delete

/-! ## Signed 32-bit counts -/

theorem toInt_add_of_fits {a b : Int32} (hlow : -2 ^ 31 ≤ a.toInt + b.toInt)
    (hhigh : a.toInt + b.toInt < 2 ^ 31) : (a + b).toInt = a.toInt + b.toInt := by
  rw [Int32.toInt_add]
  exact Int.bmod_eq_of_le (by omega) (by omega)

theorem toInt_sub_of_fits {a b : Int32} (hlow : -2 ^ 31 ≤ a.toInt - b.toInt)
    (hhigh : a.toInt - b.toInt < 2 ^ 31) : (a - b).toInt = a.toInt - b.toInt := by
  rw [Int32.toInt_sub]
  exact Int.bmod_eq_of_le (by omega) (by omega)

/-! ## What the loops do -/

namespace SemState

/-- A pass over the queue takes some waiters off, pays for them out of the count and
    leaves no waiter behind that the rest of the count would satisfy. -/
structure SignalPass.Serves (pass : SignalPass) (waitList : List Nat) (tokenCount : Int32)
    (frames : Nat → WaitFrame) : Prop where
  perm : (pass.skipped ++ pass.granted.map Prod.fst).Perm waitList
  skipped : pass.skipped.Sublist waitList
  need : ∀ g ∈ pass.granted, g.2 = (frames g.1).waiter.needCount
  nonneg : 0 ≤ tokenCount → 0 ≤ pass.tokenCount
  paid : pass.tokenCount.toInt + (pass.granted.map fun g => g.2.toInt).sum = tokenCount.toInt
  left : ∀ it ∈ pass.skipped, pass.tokenCount < (frames it).waiter.needCount
  frames_granted : ∀ it ∈ pass.granted.map Prod.fst,
    pass.frames it = (frames it).modify .signaled
  frames_other : ∀ it ∉ pass.granted.map Prod.fst, pass.frames it = frames it

/-- The count only falls, as every waiter needs something. -/
theorem SignalPass.Serves.le {pass : SignalPass} {waitList : List Nat} {tokenCount : Int32}
    {frames : Nat → WaitFrame} (hserves : pass.Serves waitList tokenCount frames)
    (hneed : ∀ it ∈ waitList, 0 < (frames it).waiter.needCount) :
    pass.tokenCount ≤ tokenCount := by
  have hsum : 0 ≤ (pass.granted.map fun g => g.2.toInt).sum := by
    apply List.sum_nonneg
    intro n hn
    obtain ⟨g, hg, rfl⟩ := List.mem_map.mp hn
    have hmem : g.1 ∈ waitList :=
      hserves.perm.subset (List.mem_append_right _ (List.mem_map_of_mem hg))
    have hpos := hneed g.1 hmem
    rw [← hserves.need g hg, Int32.lt_iff_toInt_lt] at hpos
    exact hpos.le
  rw [Int32.le_iff_toInt_le]
  have := hserves.paid
  omega

variable {call : Nat}

theorem SignalPass.Serves.notMem_granted {pass : SignalPass} {waitList : List Nat} {tokenCount : Int32}
    {frames : Nat → WaitFrame} (hserves : pass.Serves waitList tokenCount frames)
    (hnodup : waitList.Nodup) (hcall : call ∈ pass.skipped) : call ∉ pass.granted.map Prod.fst := fun h =>
  (List.nodup_append.mp (hserves.perm.nodup_iff.mpr hnodup)).2.2 call hcall call h rfl

theorem signalLoop_serves {waitList : List Nat} {tokenCount : Int32} {frames : Nat → WaitFrame}
    (hnodup : waitList.Nodup) (hneed : ∀ it ∈ waitList, 0 < (frames it).waiter.needCount) :
    (signalLoop waitList tokenCount frames).Serves waitList tokenCount frames := by
  induction waitList generalizing tokenCount frames with
  | nil =>
    exact ⟨.refl _, List.Sublist.refl _, by simp [signalLoop], id, by simp [signalLoop],
      by simp [signalLoop], by simp [signalLoop], fun _ _ => rfl⟩
  | cons it rest ih =>
    obtain ⟨hit, hnodup⟩ := List.nodup_cons.mp hnodup
    have hrest : ∀ i ∈ rest, 0 < (frames i).waiter.needCount := fun i hi =>
      hneed i (List.mem_cons_of_mem _ hi)
    simp only [signalLoop]
    split
    · next hmore =>
      have hserves := @ih tokenCount frames hnodup hrest
      refine ⟨hserves.perm.cons it, hserves.skipped.cons_cons it, hserves.need, hserves.nonneg,
        hserves.paid, ?_, hserves.frames_granted, hserves.frames_other⟩
      intro i hi
      cases List.mem_cons.mp hi with
      | inl h =>
        subst h
        have := hserves.le hrest
        simp only [gt_iff_lt, Int32.lt_iff_toInt_lt, Int32.le_iff_toInt_le] at *
        omega
      | inr h => exact hserves.left i h
    · next hmore =>
      -- The loop goes on with this waiter's frame changed, which no later waiter shares.
      have hother : ∀ i ≠ it, Function.update frames it
          ((frames it).modify .signaled) i = frames i := fun i hi =>
        Function.update_of_ne hi _ _
      have hne : ∀ i ∈ rest, i ≠ it := fun i hi h => hit (h ▸ hi)
      have hserves := @ih (tokenCount - (frames it).waiter.needCount)
        (Function.update frames it ((frames it).modify .signaled)) hnodup
         (fun i hi => by rw [hother i (hne i hi)]; exact hrest i hi)
      have hpos := hneed it (List.mem_cons_self ..)
      generalize signalLoop rest _ _ = pass at hserves
      have hgranted : ∀ g ∈ pass.granted, g.1 ∈ rest := fun g hg =>
        hserves.perm.subset (List.mem_append_right _ (List.mem_map_of_mem hg))
      have hrest : (tokenCount - (frames it).waiter.needCount).toInt =
          tokenCount.toInt - (frames it).waiter.needCount.toInt := by
        rw [gt_iff_lt, Int32.lt_iff_toInt_lt] at hmore
        rw [Int32.lt_iff_toInt_lt, Int32.toInt_zero] at hpos
        have := tokenCount.toInt_lt
        exact toInt_sub_of_fits (by omega) (by omega)
      refine ⟨?_, hserves.skipped.cons it, ?_, ?_, ?_, ?_, ?_, ?_⟩
      · exact List.perm_middle.trans (hserves.perm.cons it)
      · intro g hg
        cases List.mem_cons.mp hg with
        | inl h => rw [h]
        | inr h => rw [hserves.need g h, hother g.1 (hne g.1 (hgranted g h))]
      · intro _
        apply hserves.nonneg
        rw [gt_iff_lt, Int32.lt_iff_toInt_lt] at hmore
        rw [Int32.le_iff_toInt_le, hrest, Int32.toInt_zero]
        omega
      · have hpaid := hserves.paid
        simp only [List.map_cons, List.sum_cons]
        omega
      · intro i hi
        have hmem : i ∈ rest := hserves.skipped.subset hi
        have hleft := hserves.left i hi
        rwa [hother i (hne i hmem)] at hleft
      · intro i hi
        simp only [List.map_cons, List.mem_cons] at hi
        by_cases hi' : i ∈ pass.granted.map Prod.fst
        · have hmem : i ∈ rest := hserves.perm.subset (List.mem_append_right _ hi')
          rw [hserves.frames_granted i hi', hother i (hne i hmem)]
        have : i = it := by tauto
        subst this
        rw [hserves.frames_other i hi', Function.update_self]
      · intro i hi
        simp only [List.map_cons, List.mem_cons, not_or] at hi
        rw [hserves.frames_other i hi.2, hother i hi.1]

theorem addWaiter_perm {isFifo : Bool} {priorityOf : Nat → Nat} {waitList : List Nat} :
    (addWaiter isFifo priorityOf waitList call).Perm (call :: waitList) := by
  unfold addWaiter
  split
  · exact List.perm_append_singleton call waitList
  · exact perm_insert_after

/-! ## What the steps do -/

/-- A call that queues has a fresh waiter, somewhere in the queue. -/
def enqueue (s : SemState) (waitList : List Nat) (needCount : Int32) (priority : Nat)
    (timeout : Option UInt32) : SemState :=
  { sem := { s.sem with waitList := waitList }
    frames := Function.update s.frames s.nextCall
      ⟨⟨0, priority, needCount, false, false, false⟩, timeout, true⟩
    nextCall := s.nextCall + 1 }

/-- A call of `Wait` takes its tokens, fails at once, or queues. -/
theorem wait_cases (s : SemState) (canBlock : Bool) (needCount : Int32) (timeout : Option UInt32)
    (threadPriority : Nat) :
    (needCount ≤ s.sem.tokenCount ∧ s.wait canBlock needCount timeout threadPriority =
      ({ s with
          sem := { s.sem with tokenCount := s.sem.tokenCount - needCount }
          nextCall := s.nextCall + 1 },
        [.granted s.nextCall needCount, .returned s.nextCall .ok])) ∨
    (¬needCount ≤ s.sem.tokenCount ∧ ∃ result ∈ [SemResult.ebusy, SemResult.etimedout],
      s.wait canBlock needCount timeout threadPriority =
        ({ s with nextCall := s.nextCall + 1 }, [.returned s.nextCall result])) ∨
    (¬needCount ≤ s.sem.tokenCount ∧ ∃ waitList priority,
      waitList.Perm (s.nextCall :: s.sem.waitList) ∧
      s.wait canBlock needCount timeout threadPriority =
        (s.enqueue waitList needCount priority timeout, [.queued s.nextCall])) := by
  simp only [wait]
  split
  · next h => exact .inl ⟨h, rfl⟩
  rename_i h
  split
  · exact .inr (.inl ⟨h, .ebusy, by simp, rfl⟩)
  split
  · exact .inr (.inl ⟨h, .etimedout, by simp, rfl⟩)
  · exact .inr (.inr ⟨h, _, _, addWaiter_perm, rfl⟩)

/-- A call that goes on returns its waiter's result; out of time, it leaves the queue. -/
theorem wake_cases {s s' : SemState} {elapsed : UInt32} {events : List SemEvent}
    (hwake : s.wake call elapsed = some (s', events)) :
    (s.frames call).live = true ∧
    ((s.frames call).timeout = none → 0 < (s.frames call).waiter.sem) ∧
    (((s.frames call).waiter.getResult = .etimedout ∧
      s' = { s with
        sem := { s.sem with waitList := s.sem.waitList.erase call }
        frames := Function.update s.frames call ((s.frames call).finish elapsed) } ∧
      events = [.timedOut call, .returned call .etimedout]) ∨
    ((s.frames call).waiter.getResult ≠ .etimedout ∧
      s' = { s with frames := Function.update s.frames call ((s.frames call).finish elapsed) } ∧
      events = [.returned call (s.frames call).waiter.getResult])) := by
  simp only [wake] at hwake
  split at hwake
  · next hcan =>
    refine ⟨hcan.1, hcan.2, ?_⟩
    split at hwake
    · next hresult =>
      cases hwake
      exact .inl ⟨hresult, rfl, by rw [hresult]⟩
    rename_i hresult
    cases hwake
    exact .inr ⟨hresult, rfl, rfl⟩
  · cases hwake

end SemState

end Kernel
