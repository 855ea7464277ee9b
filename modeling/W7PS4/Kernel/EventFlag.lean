-- SUMMARY: Event flags: a bit pattern that threads wait for; when each wait consumes its event once.
import W7PS4.Lib.Queue
import W7PS4.Lib.Reaches

/-!
# Event flags

`EventFlagInternal` holds a pattern of bits. A call of `Wait` whose condition is met
takes the pattern as its result and clears bits by its clear mode. Otherwise it queues a
`Waiter`, which lives in its frame, and sleeps. `Set` does the same on behalf of the
queued waiters it satisfies and marks them ready; `Cancel` and the destructor mark them
too. Only the woken call itself takes its waiter off the queue, once it has the mutex
again, so until then later calls still see the waiter.

Everything between two points where the mutex is free is one action. `Poll` is a `Wait`
that is out of time from the start.
-/

namespace Kernel

inductive EvfResult where
  | ok
  | eacces
  | eperm
  | etimedout
  | ecanceled
  | ebusy
deriving DecidableEq, Repr

inductive ClearMode where
  | none
  | all
  | bits
deriving DecidableEq, Repr

inductive WaitMode where
  | and
  | or
deriving DecidableEq, Repr

inductive ThreadMode where
  | single
  | multi
deriving DecidableEq, Repr

inductive QueueMode where
  | fifo
  | threadPrio
deriving DecidableEq, Repr

/-! ## Waiters -/

structure Waiter where
  bits : UInt64
  waitMode : WaitMode
  clearMode : ClearMode
  result : UInt64
  ready : Bool
  canceled : Bool
  deleted : Bool
  timedOut : Bool
  priority : Int
deriving DecidableEq, Repr

namespace Waiter

def create (bits : UInt64) (waitMode : WaitMode) (clearMode : ClearMode) (priority : Int) : Waiter :=
  ⟨bits, waitMode, clearMode, 0, false, false, false, false, priority⟩

/-- `ConditionMet` for the pattern `mBits`. -/
def conditionMet (mBits : UInt64) (w : Waiter) : Bool :=
  match w.waitMode with
  | .and => (mBits &&& w.bits) == w.bits
  | .or => (mBits &&& w.bits) != 0

/-- `ApplyClear` to the pattern `mBits`. -/
def applyClear (mBits : UInt64) (w : Waiter) : UInt64 :=
  match w.clearMode with
  | .none => mBits
  | .all => 0
  | .bits => mBits &&& ~~~w.bits

/-- The predicate a sleeping call waits for. -/
def wake (w : Waiter) : Bool := w.ready || w.canceled || w.deleted || w.timedOut

def code (w : Waiter) : EvfResult :=
  if w.canceled then .ecanceled
  else if w.deleted then .eacces
  else if w.timedOut then .etimedout
  else .ok

/-- `Set` satisfies the waiter with the pattern `mBits`. -/
def satisfy (mBits : UInt64) (w : Waiter) : Waiter := { w with result := mBits, ready := true }

def cancel (pattern : UInt64) (w : Waiter) : Waiter := { w with result := pattern, canceled := true }

def delete (w : Waiter) : Waiter := { w with deleted := true }

end Waiter

/-- The frame of a call that queued a waiter. -/
structure EvfFrame where
  waiter : Waiter
  /-- The caller passed a place for the result. -/
  wantsResult : Bool
  /-- `*ptr_micros`, for a call with a timeout. -/
  micros : Option UInt32
  /-- The call comes from `Poll`. -/
  isPoll : Bool
  /-- The call has not returned. -/
  live : Bool
deriving DecidableEq, Repr

def EvfFrame.unused : EvfFrame := ⟨.create 0 .and .none 0, false, none, false, false⟩

def EvfFrame.modify (frame : EvfFrame) (f : Waiter → Waiter) : EvfFrame :=
  { frame with waiter := f frame.waiter }

@[simp] theorem EvfFrame.modify_waiter {frame : EvfFrame} {f : Waiter → Waiter} :
    (frame.modify f).waiter = f frame.waiter := rfl

@[simp] theorem EvfFrame.modify_live {frame : EvfFrame} {f : Waiter → Waiter} :
    (frame.modify f).live = frame.live := rfl

/-! ## The event flag -/

structure EventFlagInternal where
  /-- Pointers to waiters, by the call whose frame holds the waiter. -/
  mWaiters : List Nat
  mThreadMode : ThreadMode
  mQueueMode : QueueMode
  mDeleted : Bool
  mBits : UInt64
deriving DecidableEq, Repr

/-- An event flag with the frames of the calls on it. -/
structure EvfState where
  flag : EventFlagInternal
  frames : Nat → EvfFrame
  /-- Calls are numbered in the order in which they get the mutex. -/
  nextCall : Nat

/-- What a step does for a call. -/
inductive EvfEvent where
  | queued (call : Nat)
  /-- The call's clear mode was applied to the pattern, which was `mBits` before. -/
  | applied (call : Nat) (mBits : UInt64)
  | returned (call : Nat) (code : EvfResult) (result : Option UInt64)
deriving DecidableEq, Repr

namespace EvfState

def create (threadMode : ThreadMode) (queueMode : QueueMode) (bits : UInt64) : EvfState :=
  ⟨⟨[], threadMode, queueMode, false, bits⟩, fun _ => .unused, 0⟩

def addWaiter (queueMode : QueueMode) (priorityOf : Nat → Int) (mWaiters : List Nat) (call : Nat) :
    List Nat :=
  match queueMode with
  | .fifo => mWaiters ++ [call]
  | .threadPrio =>
    mWaiters.takeWhile (fun it => priorityOf it ≥ priorityOf call) ++
      call :: mWaiters.dropWhile (fun it => priorityOf it ≥ priorityOf call)

/-- The arguments of a call of `Wait`. -/
structure WaitArgs where
  bits : UInt64
  waitMode : WaitMode
  clearMode : ClearMode
  wantsResult : Bool
  micros : Option UInt32
  isPoll : Bool
  priority : Int
deriving DecidableEq, Repr

def WaitArgs.waiter (args : WaitArgs) : Waiter :=
  .create args.bits args.waitMode args.clearMode args.priority

/-- `*result`, where the caller gave a place for it. -/
def store (wantsResult : Bool) (result : UInt64) : Option UInt64 :=
  if wantsResult then some result else none

/-- `Wait` up to the point where it returns or sleeps. -/
def wait (s : EvfState) (args : WaitArgs) : EvfState × List EvfEvent :=
  let call := s.nextCall
  let s := { s with nextCall := call + 1 }
  if s.flag.mDeleted then
    (s, [.returned call .eacces none])
  else if s.flag.mThreadMode = .single ∧ !s.flag.mWaiters.isEmpty then
    (s, [.returned call .eperm none])
  else if args.waiter.conditionMet s.flag.mBits then
    ({ s with flag := { s.flag with mBits := args.waiter.applyClear s.flag.mBits } },
      [.applied call s.flag.mBits, .returned call .ok (store args.wantsResult s.flag.mBits)])
  else
    let frame : EvfFrame := ⟨args.waiter, args.wantsResult, args.micros, args.isPoll, true⟩
    let frames := Function.update s.frames call frame
    let mWaiters := addWaiter s.flag.mQueueMode (fun it => (frames it).waiter.priority) s.flag.mWaiters call
    ({ s with flag := { s.flag with mWaiters := mWaiters }, frames := frames }, [.queued call])

/-- `Poll` returns `EBUSY` where `Wait` is out of time. -/
def pollCode (isPoll : Bool) (code : EvfResult) : EvfResult :=
  if isPoll ∧ code = .etimedout then .ebusy else code

/-- The call takes its waiter off the queue and returns. -/
def finish (s : EvfState) (call : Nat) (micros : Option UInt32) (code : EvfResult) (result : UInt64) :
    EvfState × List EvfEvent :=
  let frame := s.frames call
  ({ s with
      flag := { s.flag with mWaiters := s.flag.mWaiters.filter (· ≠ call) }
      frames := Function.update s.frames call { frame with micros := micros, live := false } },
    [.returned call (pollCode frame.isPoll code) (store frame.wantsResult result)])

/-- The rest of `Wait` for a call that slept, from the point where it has the mutex again and does
    not go back to sleep: it was marked, or its time is up. -/
def wake (s : EvfState) (call : Nat) : Option (EvfState × List EvfEvent) :=
  let frame := s.frames call
  if frame.live then
    if frame.waiter.wake then
      some (s.finish call frame.micros frame.waiter.code frame.waiter.result)
    else if frame.micros.isSome then
      some (s.finish call (some 0) .etimedout s.flag.mBits)
    else none
  else none

/-- The state of the loop in `Set`; the events are those of the rest of the loop. -/
def setLoop : List Nat → UInt64 → (Nat → EvfFrame) → UInt64 × (Nat → EvfFrame) × List EvfEvent
  | [], mBits, frames => (mBits, frames, [])
  | it :: rest, mBits, frames =>
    let frame := frames it
    if !frame.waiter.conditionMet mBits then setLoop rest mBits frames
    else
      let (mBits', frames', events) := setLoop rest (frame.waiter.applyClear mBits)
        (Function.update frames it (frame.modify (.satisfy mBits)))
      (mBits', frames', .applied it mBits :: events)

def set (s : EvfState) (bits : UInt64) : EvfState × List EvfEvent :=
  let (mBits, frames, events) := setLoop s.flag.mWaiters (s.flag.mBits ||| bits) s.frames
  ({ s with flag := { s.flag with mBits := mBits }, frames := frames }, events)

def clear (s : EvfState) (bits : UInt64) : EvfState :=
  { s with flag := { s.flag with mBits := s.flag.mBits &&& bits } }

/-- `Cancel` and the destructor mark every queued waiter. -/
def markAll (mark : Waiter → Waiter) (mWaiters : List Nat) (frames : Nat → EvfFrame) : Nat → EvfFrame :=
  updateEach (EvfFrame.modify · mark) mWaiters frames

/-- `*num_waiters` comes first. -/
def cancel (s : EvfState) (pattern : UInt64) : Nat × EvfState :=
  (s.flag.mWaiters.length,
    { s with
      flag := { s.flag with mBits := pattern }
      frames := markAll (.cancel pattern) s.flag.mWaiters s.frames })

/-- The destructor up to the point where it waits for the queue to be empty. -/
def destroy (s : EvfState) : EvfState :=
  { s with
    flag := { s.flag with mDeleted := true }
    frames := markAll .delete s.flag.mWaiters s.frames }

end EvfState

inductive EvfAction where
  /-- A call of `Wait` or `Poll` gets the mutex. -/
  | wait (args : EvfState.WaitArgs)
  /-- A sleeping call, marked or out of time, gets the mutex again. -/
  | wake (call : Nat)
  | set (bits : UInt64)
  | clear (bits : UInt64)
  | cancel (pattern : UInt64)
  | destroy
deriving DecidableEq, Repr

/-- What the action asks of the pattern. -/
def EvfAction.pattern (mBits : UInt64) : EvfAction → UInt64
  | .set bits => mBits ||| bits
  | .clear bits => mBits &&& bits
  | .cancel pattern => pattern
  | .wait _ | .wake _ | .destroy => mBits

def EvfState.step (s : EvfState) : EvfAction → Option (EvfState × List EvfEvent)
  | .wait args => some (s.wait args)
  | .wake call => s.wake call
  | .set bits => some (s.set bits)
  | .clear bits => some (s.clear bits, [])
  | .cancel pattern => some ((s.cancel pattern).2, [])
  | .destroy => some (s.destroy, [])

/-! ## Events about one call -/

def EvfEvent.appliedFor (call : Nat) : EvfEvent → Option UInt64
  | .applied c mBits => if c = call then some mBits else none
  | _ => none

def EvfEvent.returnedTo (call : Nat) : EvfEvent → Option (EvfResult × Option UInt64)
  | .returned c code result => if c = call then some (code, result) else none
  | _ => none

namespace EvfState

/-- The patterns to which the call's clear mode was applied. -/
def applications (call : Nat) (history : List EvfEvent) : List UInt64 :=
  history.filterMap (EvfEvent.appliedFor call)

def returns (call : Nat) (history : List EvfEvent) : List (EvfResult × Option UInt64) :=
  history.filterMap (EvfEvent.returnedTo call)

section

variable {call : Nat} {h es : List EvfEvent} {e : EvfEvent}

@[simp] theorem applications_nil : applications call [] = [] := rfl

@[simp] theorem returns_nil : returns call [] = [] := rfl

@[simp] theorem applications_append :
    applications call (h ++ es) = applications call h ++ applications call es := List.filterMap_append

@[simp] theorem returns_append : returns call (h ++ es) = returns call h ++ returns call es :=
  List.filterMap_append

@[simp] theorem applications_cons :
    applications call (e :: es) = (e.appliedFor call).toList ++ applications call es := by
  rw [applications, List.filterMap_cons]
  cases e.appliedFor call <;> rfl

@[simp] theorem returns_cons :
    returns call (e :: es) = (e.returnedTo call).toList ++ returns call es := by
  rw [returns, List.filterMap_cons]
  cases e.returnedTo call <;> rfl

end

/-! ## Undisturbed waiters -/

/-- The loop of `Set` satisfies no waiter that is marked already. -/
def MeetsOnlyPending : List Nat → UInt64 → (Nat → EvfFrame) → Prop
  | [], _, _ => True
  | it :: rest, mBits, frames =>
    if (frames it).waiter.conditionMet mBits then
      (frames it).waiter.wake = false ∧ MeetsOnlyPending rest ((frames it).waiter.applyClear mBits) frames
    else MeetsOnlyPending rest mBits frames

/-- A step that leaves the waiters alone that were marked but have not returned: `Set` satisfies
    none of them, `Cancel` and the destructor find none that is ready. -/
def Undisturbed (s : EvfState) : EvfAction → Prop
  | .set bits => MeetsOnlyPending s.flag.mWaiters (s.flag.mBits ||| bits) s.frames
  | .cancel _ | .destroy => ∀ call ∈ s.flag.mWaiters, (s.frames call).waiter.ready = false
  | .wait _ | .wake _ | .clear _ => True

variable {l : List Nat} {mBits : UInt64}

theorem MeetsOnlyPending.congr {frames frames' : Nat → EvfFrame}
    (h : MeetsOnlyPending l mBits frames) (heq : ∀ it ∈ l, frames' it = frames it) :
    MeetsOnlyPending l mBits frames' := by
  induction l generalizing mBits with
  | nil => trivial
  | cons it rest ih =>
    have hrest : ∀ i ∈ rest, frames' i = frames i := fun i hi => heq i (List.mem_cons_of_mem _ hi)
    -- the conditions see the frames of the list only
    simp only [MeetsOnlyPending, heq it (List.mem_cons_self ..)] at h ⊢
    split
    · next hmet =>
      rw [if_pos hmet] at h
      exact ⟨h.1, ih h.2 hrest⟩
    rename_i hmet
    rw [if_neg hmet] at h
    exact ih h hrest

/-- What the loop of `Set` does to one call: nothing, or it satisfies a pending waiter once. -/
theorem setLoop_cases {frames : Nat → EvfFrame} (hnodup : l.Nodup)
    (hpending : MeetsOnlyPending l mBits frames) (call : Nat) :
    (applications call (setLoop l mBits frames).2.2 = [] ∧
      (setLoop l mBits frames).2.1 call = frames call) ∨
    (∃ b, applications call (setLoop l mBits frames).2.2 = [b] ∧
      (setLoop l mBits frames).2.1 call = (frames call).modify (.satisfy b) ∧ call ∈ l ∧
      (frames call).waiter.wake = false) := by
  induction l generalizing mBits frames with
  | nil => exact .inl ⟨rfl, rfl⟩
  | cons it rest ih =>
    obtain ⟨hit, hnodup⟩ := List.nodup_cons.mp hnodup
    simp only [MeetsOnlyPending] at hpending
    simp only [setLoop]
    split
    · next hmet =>
      rw [Bool.not_eq_true', Bool.eq_false_iff] at hmet
      rw [if_neg hmet] at hpending
      cases ih hnodup hpending with
      | inl h => exact .inl h
      | inr h =>
        obtain ⟨b, happlied, hframe, hmem, hwake⟩ := h
        exact .inr ⟨b, happlied, hframe, List.mem_cons_of_mem _ hmem, hwake⟩
    · next hmet =>
      have hmet : (frames it).waiter.conditionMet mBits = true := by simpa using hmet
      rw [if_pos hmet] at hpending
      -- the head is satisfied; the rest of the loop does not come to it again
      have hother : ∀ i ≠ it, Function.update frames it ((frames it).modify (.satisfy mBits)) i = frames i :=
        fun i hi => Function.update_of_ne hi _ _
      have hpending' : MeetsOnlyPending rest ((frames it).waiter.applyClear mBits)
          (Function.update frames it ((frames it).modify (.satisfy mBits))) :=
        hpending.2.congr fun i hi => hother i (fun heq => hit (heq ▸ hi))
      have hrest := ih hnodup hpending'
      generalize setLoop rest _ _ = pass at hrest
      by_cases hcall : call = it
      · subst hcall
        cases hrest with
        | inl h =>
          refine .inr ⟨mBits, ?_, ?_, List.mem_cons_self .., hpending.1⟩
          · simp [EvfEvent.appliedFor, h.1]
          · rw [h.2, Function.update_self]
        | inr h =>
          obtain ⟨_, -, -, hmem, -⟩ := h
          exact absurd hmem hit
      · have hevent : (EvfEvent.applied it mBits).appliedFor call = none := by
          simp [EvfEvent.appliedFor, Ne.symm hcall]
        cases hrest with
        | inl h =>
          refine .inl ⟨?_, ?_⟩
          · simp [hevent, h.1]
          · rw [h.2, hother call hcall]
        | inr h =>
          obtain ⟨b, happlied, hframe, hmem, hwake⟩ := h
          rw [hother call hcall] at hframe hwake
          refine .inr ⟨b, ?_, hframe, List.mem_cons_of_mem _ hmem, hwake⟩
          simp [hevent, happlied]

/-- The loop of `Set` makes no call return. -/
theorem returns_setLoop {frames : Nat → EvfFrame} {call : Nat} :
    returns call (setLoop l mBits frames).2.2 = [] := by
  induction l generalizing mBits frames with
  | nil => rfl
  | cons it rest ih =>
    simp only [setLoop]
    split
    · exact ih
    · simp [EvfEvent.returnedTo, ih]

/-! ## What happens to the pattern -/

/-- The waiter whose clear mode a step applies for a call; that of a call that begins is not in its
    frame yet. -/
def waiterOf (s : EvfState) : EvfAction → Nat → Waiter
  | .wait args, _ => args.waiter
  | _, call => (s.frames call).waiter

/-- The events take the pattern from the first value to the second. An application tells the
    pattern it finds and leaves what the clear mode of the call leaves; nothing else changes it. -/
def Clears (waiterOf : Nat → Waiter) : UInt64 → List EvfEvent → UInt64 → Prop
  | mBits, [], mBits' => mBits' = mBits
  | mBits, .applied call found :: es, mBits' =>
    found = mBits ∧ Clears waiterOf ((waiterOf call).applyClear mBits) es mBits'
  | mBits, .queued _ :: es, mBits' | mBits, .returned .. :: es, mBits' => Clears waiterOf mBits es mBits'

/-- The step changes the pattern as the action asks and then only as its events tell, and not at
    all where a call fails. -/
structure Accounts (s : EvfState) (a : EvfAction) (s' : EvfState) (es : List EvfEvent) : Prop where
  clears : Clears (s.waiterOf a) (a.pattern s.flag.mBits) es s'.flag.mBits
  failed : ∀ call code result, .returned call code result ∈ es → code ≠ .ok → s'.flag.mBits = s.flag.mBits

theorem clears_setLoop {waiterOf : Nat → Waiter} {frames : Nat → EvfFrame}
    (hsame : ∀ call b, (frames call).waiter.applyClear b = (waiterOf call).applyClear b) :
    Clears waiterOf mBits (setLoop l mBits frames).2.2 (setLoop l mBits frames).1 := by
  induction l generalizing mBits frames with
  | nil => rfl
  | cons it rest ih =>
    simp only [setLoop]
    split
    · exact ih hsame
    · simp only [Clears, true_and]
      -- satisfying a waiter does not change its clear mode
      rw [hsame it mBits]
      refine ih fun call b => ?_
      by_cases hcall : call = it
      · subst hcall
        rw [Function.update_self]
        exact hsame call b
      · rw [Function.update_of_ne hcall]
        exact hsame call b

theorem accounts_wait {s : EvfState} {args : WaitArgs} :
    s.Accounts (.wait args) (s.wait args).1 (s.wait args).2 := by
  simp only [EvfState.wait]
  split
  · exact ⟨rfl, fun _ _ _ _ _ => rfl⟩
  split
  · exact ⟨rfl, fun _ _ _ _ _ => rfl⟩
  split
  · refine ⟨⟨rfl, rfl⟩, fun call code result hmem hfailed => ?_⟩
    simp only [List.mem_cons, List.not_mem_nil, or_false, reduceCtorEq, false_or,
      EvfEvent.returned.injEq] at hmem
    exact absurd hmem.2.1 hfailed
  · exact ⟨rfl, fun _ _ _ _ _ => rfl⟩

theorem accounts_wake {s s' : EvfState} {call : Nat} {es : List EvfEvent}
    (hwake : s.wake call = some (s', es)) : s.Accounts (.wake call) s' es := by
  have hfinish : ∀ micros code result,
      s.Accounts (.wake call) (s.finish call micros code result).1 (s.finish call micros code result).2 :=
    fun _ _ _ => ⟨rfl, fun _ _ _ _ _ => rfl⟩
  simp only [EvfState.wake] at hwake
  split at hwake
  · split at hwake
    · cases hwake
      exact hfinish ..
    split at hwake
    · cases hwake
      exact hfinish ..
    · cases hwake
  · cases hwake

theorem accounts_of_step {s s' : EvfState} {a : EvfAction} {es : List EvfEvent}
    (hstep : s.step a = some (s', es)) : s.Accounts a s' es := by
  cases a with
  | wait args =>
    obtain ⟨rfl, rfl⟩ := Prod.mk.inj (Option.some.inj hstep)
    exact accounts_wait
  | wake call => exact accounts_wake hstep
  | set bits =>
    cases hstep
    refine ⟨clears_setLoop fun _ _ => rfl, fun call code result hmem => ?_⟩
    have hreturned : (code, result) ∈ returns call (s.set bits).2 :=
      List.mem_filterMap.mpr ⟨_, hmem, by simp [EvfEvent.returnedTo]⟩
    have hnone : returns call (s.set bits).2 = [] := returns_setLoop
    rw [hnone] at hreturned
    cases hreturned
  | clear bits =>
    cases hstep
    exact ⟨rfl, nofun⟩
  | cancel pattern =>
    cases hstep
    exact ⟨rfl, nofun⟩
  | destroy =>
    cases hstep
    exact ⟨rfl, nofun⟩

/-! ## Where a call stands -/

inductive Stage (s : EvfState) (h : List EvfEvent) (call : Nat) : Prop
  /-- Asleep and not marked. -/
  | pending (mem : call ∈ s.flag.mWaiters) (live : (s.frames call).live = true)
      (unmarked : (s.frames call).waiter.wake = false) (applications : applications call h = [])
      (returns : returns call h = [])
  /-- Satisfied by `Set`, with the pattern it will return. -/
  | ready (mBits : UInt64) (mem : call ∈ s.flag.mWaiters) (live : (s.frames call).live = true)
      (isReady : (s.frames call).waiter.ready = true) (code : (s.frames call).waiter.code = .ok)
      (result : (s.frames call).waiter.result = mBits) (applications : applications call h = [mBits])
      (returns : returns call h = [])
  /-- Marked by `Cancel` or the destructor, with the error it will return. -/
  | failing (mem : call ∈ s.flag.mWaiters) (live : (s.frames call).live = true)
      (marked : (s.frames call).waiter.wake = true) (code : (s.frames call).waiter.code ≠ .ok)
      (applications : applications call h = []) (returns : returns call h = [])
  /-- Returned `ORBIS_OK` with the pattern it consumed. -/
  | served (mBits : UInt64) (result : Option UInt64) (notMem : call ∉ s.flag.mWaiters)
      (live : (s.frames call).live = false) (stored : ∀ v ∈ result, v = mBits)
      (applications : applications call h = [mBits]) (returns : returns call h = [(.ok, result)])
  | failed (code : EvfResult) (result : Option UInt64) (notMem : call ∉ s.flag.mWaiters)
      (live : (s.frames call).live = false) (error : code ≠ .ok)
      (applications : applications call h = []) (returns : returns call h = [(code, result)])

structure Consistent (s : EvfState) (h : List EvfEvent) : Prop where
  nodup : s.flag.mWaiters.Nodup
  stage : ∀ call < s.nextCall, Stage s h call
  fresh : ∀ call, s.nextCall ≤ call → call ∉ s.flag.mWaiters ∧ (s.frames call).live = false ∧
    applications call h = [] ∧ returns call h = []

/-- A step that does not touch a call leaves it where it stands. -/
theorem Stage.frame {s s' : EvfState} {h es : List EvfEvent} {call : Nat} (hstage : Stage s h call)
    (hmem : call ∈ s'.flag.mWaiters ↔ call ∈ s.flag.mWaiters)
    (hframe : s'.frames call = s.frames call) (happlied : applications call es = [])
    (hreturns : returns call es = []) : Stage s' (h ++ es) call := by
  cases hstage with
  | pending mem live unmarked as rs =>
    exact .pending (hmem.mpr mem) (hframe ▸ live) (hframe ▸ unmarked) (by simp [as, happlied])
      (by simp [rs, hreturns])
  | ready mBits mem live isReady code result as rs =>
    exact .ready mBits (hmem.mpr mem) (hframe ▸ live) (hframe ▸ isReady) (hframe ▸ code)
      (hframe ▸ result) (by simp [as, happlied]) (by simp [rs, hreturns])
  | failing mem live marked code as rs =>
    exact .failing (hmem.mpr mem) (hframe ▸ live) (hframe ▸ marked) (hframe ▸ code)
      (by simp [as, happlied]) (by simp [rs, hreturns])
  | served mBits result notMem live stored as rs =>
    exact .served mBits result (mt hmem.mp notMem) (hframe ▸ live) stored (by simp [as, happlied])
      (by simp [rs, hreturns])
  | failed code result notMem live error as rs =>
    exact .failed code result (mt hmem.mp notMem) (hframe ▸ live) error (by simp [as, happlied])
      (by simp [rs, hreturns])

section

variable {s s' : EvfState} {h : List EvfEvent} {call : Nat} {es : List EvfEvent}

theorem Consistent.fresh_append (hs : s.Consistent h)
    (hcall : s.nextCall ≤ call) (hmem : call ∉ s'.flag.mWaiters)
    (hframe : s'.frames call = s.frames call) (happlied : applications call es = [])
    (hreturns : returns call es = []) :
    call ∉ s'.flag.mWaiters ∧ (s'.frames call).live = false ∧ applications call (h ++ es) = [] ∧
      returns call (h ++ es) = [] := by
  obtain ⟨-, hlive, ha, hr⟩ := hs.fresh call hcall
  exact ⟨hmem, hframe ▸ hlive, by simp [ha, happlied], by simp [hr, hreturns]⟩

theorem consistent_create {threadMode : ThreadMode} {queueMode : QueueMode} {bits : UInt64} :
    (create threadMode queueMode bits).Consistent [] where
  nodup := List.nodup_nil
  stage := fun call hcall => absurd hcall (Nat.not_lt_zero call)
  fresh := fun _ _ => ⟨nofun, rfl, rfl, rfl⟩

/-- A call returns without sleeping: only its own number is new. -/
theorem Consistent.atOnce (hs : s.Consistent h) {mBits : UInt64}
    (hother : ∀ call ≠ s.nextCall, applications call es = [] ∧ returns call es = [])
    (hown : (∃ b result, applications s.nextCall es = [b] ∧ returns s.nextCall es = [(.ok, result)] ∧
        ∀ v ∈ result, v = b) ∨
      ∃ code result, code ≠ .ok ∧ applications s.nextCall es = [] ∧
        returns s.nextCall es = [(code, result)]) :
    Consistent { s with flag := { s.flag with mBits := mBits }, nextCall := s.nextCall + 1 } (h ++ es) := by
  obtain ⟨hmem, hlive, ha, hr⟩ := hs.fresh s.nextCall (Nat.le_refl _)
  refine ⟨hs.nodup, ?_, ?_⟩
  · intro call hcall
    by_cases hnew : call = s.nextCall
    · subst hnew
      obtain ⟨b, result, has, hrs, hstored⟩ | ⟨code, result, herror, has, hrs⟩ := hown
      · exact .served b result hmem hlive hstored (by simp [ha, has]) (by simp [hr, hrs])
      · exact .failed code result hmem hlive herror (by simp [ha, has]) (by simp [hr, hrs])
    · exact (hs.stage call (by simp only at hcall; omega)).frame Iff.rfl rfl (hother call hnew).1
        (hother call hnew).2
  · intro call hcall
    have hne : call ≠ s.nextCall := by simp only at hcall; omega
    have hle : s.nextCall ≤ call := by simp only at hcall; omega
    exact hs.fresh_append hle (hs.fresh call hle).1 rfl (hother call hne).1 (hother call hne).2

theorem addWaiter_perm {queueMode : QueueMode} {priorityOf : Nat → Int} {mWaiters : List Nat} :
    (addWaiter queueMode priorityOf mWaiters call).Perm (call :: mWaiters) := by
  cases queueMode with
  | fifo => exact List.perm_append_singleton call mWaiters
  | threadPrio => exact perm_insert_after

/-- A call queues a fresh waiter. -/
theorem Consistent.enqueue (hs : s.Consistent h) {mWaiters : List Nat} {frame : EvfFrame}
    (hperm : mWaiters.Perm (s.nextCall :: s.flag.mWaiters)) (hlive : frame.live = true)
    (hunmarked : frame.waiter.wake = false) :
    Consistent
      { s with
        flag := { s.flag with mWaiters := mWaiters }
        frames := Function.update s.frames s.nextCall frame
        nextCall := s.nextCall + 1 }
      (h ++ [.queued s.nextCall]) := by
  obtain ⟨hnew, -, ha, hr⟩ := hs.fresh s.nextCall (Nat.le_refl _)
  have hmem : ∀ call, call ∈ mWaiters ↔ call = s.nextCall ∨ call ∈ s.flag.mWaiters := fun call =>
    hperm.mem_iff.trans List.mem_cons
  refine ⟨hperm.nodup_iff.mpr (List.nodup_cons.mpr ⟨hnew, hs.nodup⟩), ?_, ?_⟩
  · intro call hcall
    by_cases hcall' : call = s.nextCall
    · subst hcall'
      -- the new call sleeps, all others stand where they did
      refine .pending ((hmem _).mpr (.inl rfl)) ?_ ?_ (by simp [ha, EvfEvent.appliedFor])
        (by simp [hr, EvfEvent.returnedTo])
      · simp only [Function.update_self, hlive]
      · simp only [Function.update_self, hunmarked]
    · have hlt : call < s.nextCall := by simp only at hcall; omega
      exact (hs.stage call hlt).frame ((hmem call).trans (or_iff_right hcall'))
        (Function.update_of_ne hcall' _ _) rfl rfl
  · intro call hcall
    have hle : s.nextCall ≤ call := by simp only at hcall; omega
    have hne : call ≠ s.nextCall := by simp only at hcall; omega
    refine hs.fresh_append hle ?_ (Function.update_of_ne hne _ _) rfl rfl
    exact fun h => ((hmem call).mp h).elim hne (hs.fresh call hle).1

theorem Consistent.wait (hs : s.Consistent h) {args : WaitArgs} :
    (s.wait args).1.Consistent (h ++ (s.wait args).2) := by
  have hrefused : ∀ code : EvfResult, code ≠ .ok →
      Consistent { s with nextCall := s.nextCall + 1 } (h ++ [.returned s.nextCall code none]) := by
    intro code hcode
    refine hs.atOnce (fun call hne => ?_) (.inr ⟨code, none, hcode, rfl, ?_⟩)
    · simp [EvfEvent.appliedFor, EvfEvent.returnedTo, Ne.symm hne]
    · simp [EvfEvent.returnedTo]
  simp only [EvfState.wait]
  split
  · exact hrefused .eacces (by decide)
  split
  · exact hrefused .eperm (by decide)
  split
  · refine hs.atOnce (fun call hne => ?_)
      (.inl ⟨s.flag.mBits, store args.wantsResult s.flag.mBits, ?_, ?_, ?_⟩)
    · simp [EvfEvent.appliedFor, EvfEvent.returnedTo, Ne.symm hne]
    · simp [EvfEvent.appliedFor]
    · simp [EvfEvent.returnedTo]
    · simp [store]
  · exact hs.enqueue addWaiter_perm rfl rfl

/-- A sleeping call leaves the queue and returns. -/
theorem Consistent.finish (hs : s.Consistent h) {micros : Option UInt32}
    {code : EvfResult} {result : UInt64} (hlive : (s.frames call).live = true)
    (hown : (∃ b, applications call h = [b] ∧ returns call h = [] ∧ code = .ok ∧ result = b) ∨
      (applications call h = [] ∧ returns call h = [] ∧ code ≠ .ok)) :
    (s.finish call micros code result).1.Consistent (h ++ (s.finish call micros code result).2) := by
  have hother : ∀ c ≠ call, returns c (s.finish call micros code result).2 = [] := by
    intro c hne
    simp [EvfState.finish, EvfEvent.returnedTo, Ne.symm hne]
  have hmem : ∀ c ≠ call, (c ∈ s.flag.mWaiters.filter (· ≠ call) ↔ c ∈ s.flag.mWaiters) := by
    intro c hne
    simp [hne]
  refine ⟨hs.nodup.filter _, ?_, ?_⟩
  · intro c hc
    by_cases hcall : c = call
    · subst hcall
      have hnotMem : c ∉ s.flag.mWaiters.filter (· ≠ c) := by simp
      have hdead : ((s.finish c micros code result).1.frames c).live = false := by
        simp only [EvfState.finish, Function.update_self]
      -- the call ends with what it was marked with
      obtain ⟨b, has, hrs, rfl, rfl⟩ | ⟨has, hrs, herror⟩ := hown
      · refine .served result (store (s.frames c).wantsResult result) hnotMem hdead ?_ ?_ ?_
        · simp [store]
        · simp [has, EvfState.finish, EvfEvent.appliedFor]
        · simp [hrs, EvfState.finish, EvfEvent.returnedTo, pollCode]
      · refine .failed (pollCode (s.frames c).isPoll code) (store (s.frames c).wantsResult result) hnotMem
          hdead ?_ ?_ ?_
        · unfold pollCode
          split
          · decide
          · exact herror
        · simp [has, EvfState.finish, EvfEvent.appliedFor]
        · simp [hrs, EvfState.finish, EvfEvent.returnedTo]
    · exact (hs.stage c hc).frame (hmem c hcall) (Function.update_of_ne hcall _ _) rfl (hother c hcall)
  · intro c hc
    have hne : c ≠ call := by
      rintro rfl
      rw [(hs.fresh c hc).2.1] at hlive
      cases hlive
    exact hs.fresh_append hc (mt (hmem c hne).mp (hs.fresh c hc).1) (Function.update_of_ne hne _ _) rfl
      (hother c hne)

theorem Consistent.wake (hs : s.Consistent h)
    (hwake : s.wake call = some (s', es)) : s'.Consistent (h ++ es) := by
  simp only [EvfState.wake] at hwake
  split at hwake
  · next hlive =>
    have hknown : call < s.nextCall := by
      by_contra hge
      rw [(hs.fresh call (Nat.le_of_not_lt hge)).2.1] at hlive
      cases hlive
    split at hwake
    · next hmarked =>
      cases hwake
      -- marked: by a Set, or by Cancel or the destructor
      refine hs.finish hlive ?_
      cases hs.stage call hknown with
      | pending mem live unmarked as rs => rw [unmarked] at hmarked; cases hmarked
      | ready mBits mem live isReady code result as rs => exact .inl ⟨mBits, as, rs, code, result⟩
      | failing mem live marked code as rs => exact .inr ⟨as, rs, code⟩
      | served mBits result notMem live stored as rs => rw [live] at hlive; cases hlive
      | failed code result notMem live error as rs => rw [live] at hlive; cases hlive
    · next hunmarked =>
      split at hwake
      · cases hwake
        -- out of time: nothing was applied for the call
        refine hs.finish hlive (.inr ?_)
        cases hs.stage call hknown with
        | pending mem live unmarked as rs => exact ⟨as, rs, by decide⟩
        | ready mBits mem live isReady code result as rs => simp [Waiter.wake, isReady] at hunmarked
        | failing mem live marked code as rs => exact absurd marked hunmarked
        | served mBits result notMem live stored as rs => rw [live] at hlive; cases hlive
        | failed code result notMem live error as rs => rw [live] at hlive; cases hlive
      · cases hwake
  · cases hwake

/-- `Set`, when it satisfies only pending waiters. -/
theorem Consistent.set (hs : s.Consistent h) {bits : UInt64}
    (hpending : MeetsOnlyPending s.flag.mWaiters (s.flag.mBits ||| bits) s.frames) :
    (s.set bits).1.Consistent (h ++ (s.set bits).2) := by
  have hcases := setLoop_cases hs.nodup hpending
  have hreturns : ∀ call, returns call (s.set bits).2 = [] := fun call => returns_setLoop
  refine ⟨hs.nodup, ?_, ?_⟩
  · intro call hcall
    obtain ⟨happlied, hframe⟩ | ⟨b, happlied, hframe, hmem, hunmarked⟩ := hcases call
    · exact (hs.stage call hcall).frame Iff.rfl hframe happlied (hreturns call)
    · have hframe' : (s.set bits).1.frames call = (s.frames call).modify (.satisfy b) := hframe
      have happlied' : applications call (s.set bits).2 = [b] := happlied
      cases hs.stage call hcall with
      | pending mem live unmarked as rs =>
        -- a pending call becomes ready with the pattern the loop has come to
        simp only [Waiter.wake, Bool.or_eq_false_iff] at hunmarked
        refine .ready b hmem ?_ ?_ ?_ ?_ (by simp [as, happlied']) (by simp [rs, hreturns])
        · rw [hframe', EvfFrame.modify_live, live]
        · rw [hframe', EvfFrame.modify_waiter, Waiter.satisfy]
        · simp [hframe', Waiter.satisfy, Waiter.code, hunmarked]
        · rw [hframe', EvfFrame.modify_waiter, Waiter.satisfy]
      | ready mBits mem live isReady code result as rs => simp [Waiter.wake, isReady] at hunmarked
      | failing mem live marked code as rs => rw [marked] at hunmarked; cases hunmarked
      | served mBits result notMem live stored as rs => exact absurd hmem notMem
      | failed code result notMem live error as rs => exact absurd hmem notMem
  · intro call hcall
    have hnotMem := (hs.fresh call hcall).1
    obtain ⟨happlied, hframe⟩ | ⟨_, -, -, hmem, -⟩ := hcases call
    · exact hs.fresh_append hcall hnotMem hframe happlied (hreturns call)
    · exact absurd hmem hnotMem

/-- `Cancel` and the destructor, when no queued waiter is ready. -/
theorem Consistent.markAll (hs : s.Consistent h) {mark : Waiter → Waiter} {mBits : UInt64} {mDeleted : Bool}
    (hready : ∀ call ∈ s.flag.mWaiters, (s.frames call).waiter.ready = false)
    (hmark : ∀ w, (mark w).wake = true ∧ (mark w).code ≠ .ok) :
    Consistent
      { s with
        flag := { s.flag with mBits := mBits, mDeleted := mDeleted }
        frames := EvfState.markAll mark s.flag.mWaiters s.frames } h := by
  have hmarked : ∀ call ∈ s.flag.mWaiters,
      EvfState.markAll mark s.flag.mWaiters s.frames call = (s.frames call).modify mark :=
    fun call hmem => updateEach_of_mem hs.nodup hmem s.frames
  have hother : ∀ call ∉ s.flag.mWaiters,
      EvfState.markAll mark s.flag.mWaiters s.frames call = s.frames call :=
    fun call hmem => updateEach_of_notMem hmem s.frames
  -- a queued call without an application fails now
  have hfails : ∀ call ∈ s.flag.mWaiters, (s.frames call).live = true → applications call h = [] →
      returns call h = [] → Stage
        { s with
          flag := { s.flag with mBits := mBits, mDeleted := mDeleted }
          frames := EvfState.markAll mark s.flag.mWaiters s.frames } h call := by
    intro call hmem live as rs
    refine .failing hmem ?_ ?_ ?_ as rs
    · simp only [hmarked call hmem, EvfFrame.modify_live, live]
    · simp only [hmarked call hmem, EvfFrame.modify_waiter, (hmark _).1]
    · simp only [hmarked call hmem, EvfFrame.modify_waiter]
      exact (hmark _).2
  refine ⟨hs.nodup, ?_, ?_⟩
  · intro call hcall
    cases hs.stage call hcall with
    | pending mem live unmarked as rs => exact hfails call mem live as rs
    | ready mBits mem live isReady code result as rs =>
      rw [hready call mem] at isReady
      cases isReady
    | failing mem live marked code as rs => exact hfails call mem live as rs
    | served mBits result notMem live stored as rs =>
      refine .served mBits result notMem ?_ stored as rs
      rw [← live]
      exact congrArg EvfFrame.live (hother call notMem)
    | failed code result notMem live error as rs =>
      refine .failed code result notMem ?_ error as rs
      rw [← live]
      exact congrArg EvfFrame.live (hother call notMem)
  · intro call hcall
    obtain ⟨hnotMem, hlive, ha, hr⟩ := hs.fresh call hcall
    refine ⟨hnotMem, ?_, ha, hr⟩
    rw [← hlive]
    exact congrArg EvfFrame.live (hother call hnotMem)

theorem Consistent.step (hs : s.Consistent h) {a : EvfAction} {es : List EvfEvent}
    (hundisturbed : s.Undisturbed a) (hstep : s.step a = some (s', es)) : s'.Consistent (h ++ es) := by
  cases a with
  | wait args =>
    obtain ⟨rfl, rfl⟩ := Prod.mk.inj (Option.some.inj hstep)
    exact hs.wait
  | wake call => exact hs.wake hstep
  | set bits =>
    cases hstep
    exact hs.set hundisturbed
  | clear bits =>
    cases hstep
    refine ⟨hs.nodup, fun call hcall => (hs.stage call hcall).frame Iff.rfl rfl rfl rfl, fun call hcall => ?_⟩
    exact hs.fresh_append hcall (hs.fresh call hcall).1 rfl rfl rfl
  | cancel pattern =>
    cases hstep
    rw [List.append_nil]
    refine hs.markAll hundisturbed fun w => ⟨?_, ?_⟩
    · simp [Waiter.wake, Waiter.cancel]
    · simp [Waiter.code, Waiter.cancel]
  | destroy =>
    cases hstep
    rw [List.append_nil]
    refine hs.markAll hundisturbed fun w => ⟨?_, ?_⟩
    · simp [Waiter.wake, Waiter.delete]
    · simp only [Waiter.code, Waiter.delete]
      split <;> simp

/-- What a history must say of a call: its clear mode was applied at most once, if it was applied
    the call returns `ORBIS_OK` with the pattern before the clear, and a call that fails has not
    applied it. -/
def ConsumesOnce (h : List EvfEvent) (call : Nat) : Prop :=
  (applications call h).length ≤ 1 ∧
  ∀ code result, (code, result) ∈ returns call h →
    (∀ mBits ∈ applications call h, code = .ok ∧ ∀ v ∈ result, v = mBits) ∧
    (code ≠ .ok → applications call h = [])

theorem Consistent.consumesOnce (hs : s.Consistent h) : ConsumesOnce h call := by
  by_cases hcall : call < s.nextCall
  · cases hs.stage call hcall with
    | pending mem live unmarked as rs => simp [ConsumesOnce, as, rs]
    | ready mBits mem live isReady code result as rs => simp [ConsumesOnce, as, rs]
    | failing mem live marked code as rs => simp [ConsumesOnce, as, rs]
    | served mBits result notMem live stored as rs => simpa [ConsumesOnce, as, rs] using stored
    | failed code result notMem live error as rs => simp [ConsumesOnce, as, rs]
  · obtain ⟨-, -, as, rs⟩ := hs.fresh call (Nat.le_of_not_lt hcall)
    simp [ConsumesOnce, as, rs]

/-- In every run that leaves marked waiters alone every call consumes its event once, and the
    pattern changes only as the events tell. -/
theorem consumesOnce_of_run {threadMode : ThreadMode} {queueMode : QueueMode} {bits : UInt64}
    (hreach : Reaches EvfState.step Undisturbed (create threadMode queueMode bits) s h) :
    (∀ call, ConsumesOnce h call) ∧ ∀ a s' es, s.step a = some (s', es) → s.Accounts a s' es := by
  have hs : s.Consistent h := by
    refine hreach.invariant (P := fun s h => s.Consistent h) consistent_create ?_
    exact fun _ _ _ _ _ hs hundisturbed hstep => hs.step hundisturbed hstep
  exact ⟨fun _ => hs.consumesOnce, fun _ _ _ hstep => accounts_of_step hstep⟩

end

instance decidableMeetsOnlyPending : (l : List Nat) → (mBits : UInt64) → (frames : Nat → EvfFrame) →
    Decidable (MeetsOnlyPending l mBits frames)
  | [], _, _ => inferInstanceAs (Decidable True)
  | it :: rest, mBits, frames =>
    have := decidableMeetsOnlyPending rest ((frames it).waiter.applyClear mBits) frames
    have := decidableMeetsOnlyPending rest mBits frames
    inferInstanceAs (Decidable (if (frames it).waiter.conditionMet mBits then
      (frames it).waiter.wake = false ∧ MeetsOnlyPending rest ((frames it).waiter.applyClear mBits) frames
      else MeetsOnlyPending rest mBits frames))

instance (s : EvfState) : DecidablePred s.Undisturbed
  | .set bits =>
    inferInstanceAs (Decidable (MeetsOnlyPending s.flag.mWaiters (s.flag.mBits ||| bits) s.frames))
  | .cancel _ | .destroy =>
    inferInstanceAs (Decidable (∀ call ∈ s.flag.mWaiters, (s.frames call).waiter.ready = false))
  | .wait _ | .wake _ | .clear _ => inferInstanceAs (Decidable True)

/-- Wait for the lowest bit and clear it. -/
def takeBit : WaitArgs := ⟨1, .or, .bits, true, none, false, 700⟩

/-- Two calls wait for one bit. The first `Set` serves the first call, which returns before the
    second `Set`; the second call finds the pattern that is left. -/
theorem consumesOnce_inTurn : ∃ s h,
    runAllowed EvfState.step Undisturbed (create .multi .fifo 0) []
      [.wait takeBit, .wait takeBit, .set 3, .wake 0, .set 1, .wake 1] = some (s, h) ∧
    returns 0 h = [(.ok, some 3)] ∧ returns 1 h = [(.ok, some 3)] ∧ s.flag.mBits = 2 ∧
    ConsumesOnce h 0 ∧ ConsumesOnce h 1 ∧
    s.Accounts (.wait { takeBit with bits := 2 }) (s.wait { takeBit with bits := 2 }).1
      (s.wait { takeBit with bits := 2 }).2 := by
  have hrun : (match runAllowed EvfState.step Undisturbed (create .multi .fifo 0) []
        [.wait takeBit, .wait takeBit, .set 3, .wake 0, .set 1, .wake 1] with
      | some (s, h) =>
        decide (returns 0 h = [(.ok, some 3)] ∧ returns 1 h = [(.ok, some 3)] ∧ s.flag.mBits = 2)
      | none => false) = true := by decide
  split at hrun
  · next s h heq =>
    obtain ⟨hfirst, hsecond, hleft⟩ := of_decide_eq_true hrun
    obtain ⟨honce, haccounts⟩ := consumesOnce_of_run (Reaches.of_runAllowed .start heq)
    exact ⟨s, h, heq, hfirst, hsecond, hleft, honce 0, honce 1, haccounts _ _ _ rfl⟩
  · cases hrun

/-- A second `Set` before the woken call gets the mutex is swallowed by the same call. -/
theorem set_swallowed : ¬∀ (threadMode : ThreadMode) (queueMode : QueueMode) (bits : UInt64) s h,
    Reaches EvfState.step (fun _ a => a ≠ .destroy) (create threadMode queueMode bits) s h →
    ∀ call, ConsumesOnce h call := by
  intro hall
  have hrun : (match runAllowed EvfState.step (fun _ a => a ≠ .destroy) (create .multi .fifo 0) []
        [.wait takeBit, .wait takeBit, .set 1, .set 1] with
      | some (_, h) => decide (applications 0 h = [1, 1])
      | none => false) = true := by decide
  split at hrun
  · next s h heq =>
    have honce := (hall .multi .fifo 0 s h (Reaches.of_runAllowed .start heq) 0).1
    rw [of_decide_eq_true hrun] at honce
    exact absurd honce (by decide)
  · cases hrun

end EvfState

end Kernel
