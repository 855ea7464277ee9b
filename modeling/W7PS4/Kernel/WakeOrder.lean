-- SUMMARY: The order in which event flags and semaphores queue and serve their waiters.
import W7PS4.Kernel.EventFlag
import W7PS4.Kernel.Semaphore

/-!
# The order of waiters

Both keep their waiters in one list, served from the front, and both insert a waiter by
the `attr.prio` of its thread or, in FIFO mode, at the end. A smaller number is a higher
priority. A semaphore sorts the numbers upwards as `u32`; an event flag sorts them
downwards, so that the waiters with the lowest priority come first.
-/

namespace Kernel

open Function (update_of_ne update_self)

/-! ## Event flags -/

namespace EvfState

/-- What the waiters are to be ordered by: `attr.prio`, and in FIFO mode the arrival alone. -/
def rank (s : EvfState) (call : Nat) : Int :=
  match s.flag.mQueueMode with
  | .fifo => 0
  | .threadPrio => (s.frames call).waiter.priority

/-- What `AddWaiter` sorts by. -/
def sortKey (s : EvfState) (call : Nat) : Int := -s.rank call

/-- The calls whose waiters a step satisfies, in order. -/
def served (events : List EvfEvent) : List Nat :=
  events.filterMap fun
    | .applied call _ => some call
    | _ => none

/-- The queue is in the order of priority, and `Set` serves the waiters in this order. -/
def InWakeOrder (s : EvfState) : Prop :=
  s.flag.mWaiters.Pairwise (Before s.rank) ∧ ∀ bits, (served (s.set bits).2).Pairwise (Before s.rank)

/-- A call of `Wait` with these arguments queues a waiter. -/
def Sleeps (s : EvfState) (args : WaitArgs) : Prop :=
  s.flag.mDeleted = false ∧ ¬(s.flag.mThreadMode = .single ∧ !s.flag.mWaiters.isEmpty) ∧
    args.waiter.conditionMet s.flag.mBits = false

instance (s : EvfState) (args : WaitArgs) : Decidable (s.Sleeps args) :=
  inferInstanceAs (Decidable (_ ∧ _ ∧ _))

/-- In the mode `ThreadPrio`, a call that sleeps has the priority of all that are queued. -/
def EqualPriority (s : EvfState) : EvfAction → Prop
  | .wait args => s.flag.mQueueMode = .threadPrio → s.Sleeps args →
      ∀ call ∈ s.flag.mWaiters, (s.frames call).waiter.priority = args.priority
  | _ => True

instance (s : EvfState) : DecidablePred s.EqualPriority
  | .wait _ => inferInstanceAs (Decidable (_ → _ → ∀ call ∈ s.flag.mWaiters, _))
  | .wake _ | .set _ | .clear _ | .cancel _ | .destroy => inferInstanceAs (Decidable True)

variable {s s' : EvfState}

theorem served_setLoop_sublist {l : List Nat} {mBits : UInt64} {frames : Nat → EvfFrame} :
    (served (setLoop l mBits frames).2.2).Sublist l := by
  induction l generalizing mBits frames with
  | nil => exact List.Sublist.refl _
  | cons it rest ih =>
    simp only [setLoop]
    split
    · exact ih.cons it
    · exact ih.cons_cons it

/-- `Set` serves waiters in the order of the queue. -/
theorem inWakeOrder_iff : s.InWakeOrder ↔ s.flag.mWaiters.Pairwise (Before s.rank) :=
  ⟨And.left, fun h => ⟨h, fun _ => h.sublist served_setLoop_sublist⟩⟩

theorem priority_setLoop {l : List Nat} {mBits : UInt64} {frames : Nat → EvfFrame} (call : Nat) :
    ((setLoop l mBits frames).2.1 call).waiter.priority = (frames call).waiter.priority := by
  induction l generalizing mBits frames with
  | nil => rfl
  | cons it rest ih =>
    simp only [setLoop]
    split
    · exact ih
    refine ih.trans ?_
    by_cases hcall : call = it
    · subst hcall
      rw [update_self]
      rfl
    · rw [update_of_ne hcall]

theorem priority_markAll (mark : Waiter → Waiter) (hmark : ∀ w, (mark w).priority = w.priority)
    (l : List Nat) (frames : Nat → EvfFrame) (call : Nat) :
    (markAll mark l frames call).waiter.priority = (frames call).waiter.priority :=
  updateEach_proj (fun frame => frame.waiter.priority) (fun frame => hmark frame.waiter) l frames call

theorem addWaiter_eq (s : EvfState) (call : Nat) :
    addWaiter s.flag.mQueueMode (fun it => (s.frames it).waiter.priority) s.flag.mWaiters call =
      insertByKey s.sortKey s.flag.mWaiters call := by
  cases hmode : s.flag.mQueueMode with
  | fifo =>
    simp only [addWaiter, insertByKey, sortKey, rank, hmode, le_refl, decide_true]
    rw [List.takeWhile_eq_self_iff.mpr (by simp), List.dropWhile_eq_nil_iff.mpr (by simp)]
  | threadPrio =>
    simp only [addWaiter, insertByKey, sortKey, rank, hmode, neg_le_neg_iff, ge_iff_le]

/-- What a step does to the queue and to the priorities of the calls so far. -/
structure StepQueue (s : EvfState) (a : EvfAction) (s' : EvfState) : Prop where
  mode : s'.flag.mQueueMode = s.flag.mQueueMode
  priority : ∀ call < s.nextCall, (s'.frames call).waiter.priority = (s.frames call).waiter.priority
  nextCall : s.nextCall ≤ s'.nextCall
  queue : (s'.flag.mWaiters.Sublist s.flag.mWaiters ∧ ∀ args, a = .wait args → ¬s.Sleeps args) ∨
    ∃ args, a = .wait args ∧ s.Sleeps args ∧ s'.nextCall = s.nextCall + 1 ∧
      (s'.frames s.nextCall).waiter.priority = args.priority ∧
      s'.flag.mWaiters = insertByKey s'.sortKey s.flag.mWaiters s.nextCall

theorem stepQueue_wait (s : EvfState) (args : WaitArgs) : StepQueue s (.wait args) (s.wait args).1 := by
  have hawake : ¬s.Sleeps args → ∀ other, EvfAction.wait args = .wait other → ¬s.Sleeps other := by
    intro h other heq
    cases heq
    exact h
  simp only [wait]
  split
  · next hdeleted =>
    refine ⟨rfl, fun _ _ => rfl, Nat.le_succ _, .inl ⟨List.Sublist.refl _, hawake fun h => ?_⟩⟩
    rw [h.1] at hdeleted
    cases hdeleted
  · next hdeleted =>
    split
    · next hsingle =>
      exact ⟨rfl, fun _ _ => rfl, Nat.le_succ _, .inl ⟨List.Sublist.refl _, hawake fun h => h.2.1 hsingle⟩⟩
    rename_i hsingle
    split
    · next hmet =>
      refine ⟨rfl, fun _ _ => rfl, Nat.le_succ _, .inl ⟨List.Sublist.refl _, hawake fun h => ?_⟩⟩
      rw [h.2.2] at hmet
      cases hmet
    · next hmet =>
      refine ⟨rfl, fun call hcall => ?_, Nat.le_succ _, .inr ⟨args, rfl, ?_, rfl, ?_, ?_⟩⟩
      · simp only [update_of_ne (Nat.ne_of_lt hcall)]
      · exact ⟨by simpa using hdeleted, hsingle, by simpa using hmet⟩
      · simp only [update_self]
        rfl
      · exact addWaiter_eq { s with frames := Function.update s.frames s.nextCall _ } s.nextCall

theorem stepQueue_of_step {a : EvfAction} {es : List EvfEvent} (hstep : s.step a = some (s', es)) :
    StepQueue s a s' := by
  cases a with
  | wait args =>
    obtain ⟨rfl, -⟩ := Prod.mk.inj (Option.some.inj hstep)
    exact stepQueue_wait s args
  | wake call =>
    have hfinish : ∀ {micros code result}, s.finish call micros code result = (s', es) →
        StepQueue s (.wake call) s' := by
      intro micros code result heq
      obtain rfl : (s.finish call micros code result).1 = s' := congrArg Prod.fst heq
      refine ⟨rfl, fun c _ => ?_, Nat.le_refl _, .inl ⟨List.filter_sublist, fun _ h => by cases h⟩⟩
      by_cases hcall : c = call
      · subst hcall
        simp only [finish, update_self]
      · simp only [finish, update_of_ne hcall]
    simp only [EvfState.step, EvfState.wake] at hstep
    split at hstep
    · split at hstep
      · exact hfinish (Option.some.inj hstep)
      · split at hstep
        · exact hfinish (Option.some.inj hstep)
        · cases hstep
    · cases hstep
  | set bits =>
    cases hstep
    exact ⟨rfl, fun call _ => priority_setLoop call, Nat.le_refl _,
      .inl ⟨List.Sublist.refl _, fun _ h => by cases h⟩⟩
  | clear bits =>
    cases hstep
    exact ⟨rfl, fun _ _ => rfl, Nat.le_refl _, .inl ⟨List.Sublist.refl _, fun _ h => by cases h⟩⟩
  | cancel pattern =>
    cases hstep
    exact ⟨rfl, fun call _ => priority_markAll (.cancel pattern) (fun _ => rfl) _ _ call, Nat.le_refl _,
      .inl ⟨List.Sublist.refl _, fun _ h => by cases h⟩⟩
  | destroy =>
    cases hstep
    exact ⟨rfl, fun call _ => priority_markAll .delete (fun _ => rfl) _ _ call, Nat.le_refl _,
      .inl ⟨List.Sublist.refl _, fun _ h => by cases h⟩⟩

/-- The queue is sorted both by what `AddWaiter` sorts by and by priority. -/
def OrderedBoth (s : EvfState) : Prop := Ordered s.sortKey s.rank s.flag.mWaiters s.nextCall

/-- One step keeps the order exactly when a new waiter has the priority of the others. -/
theorem OrderedBoth.step (hs : s.OrderedBoth) {a : EvfAction} (h : StepQueue s a s') :
    (s'.InWakeOrder ↔ s.EqualPriority a) ∧ (s.EqualPriority a → s'.OrderedBoth) := by
  have hrank : ∀ call < s.nextCall, s'.rank call = s.rank call := by
    intro call hcall
    unfold rank
    rw [h.mode, h.priority call hcall]
  have hkey : ∀ call < s.nextCall, s'.sortKey call = s.sortKey call := fun call hcall =>
    congrArg Neg.neg (hrank call hcall)
  have hmoved := Ordered.congr hs hkey hrank
  rw [inWakeOrder_iff]
  cases h.queue with
  | inl hqueue =>
    obtain ⟨hsub, hawake⟩ := hqueue
    have hequal : s.EqualPriority a := by
      cases a with
      | wait args => exact fun _ hsleeps => absurd hsleeps (hawake args rfl)
      | _ => trivial
    exact ⟨iff_of_true (hmoved.sublist hsub).inOrder hequal, fun _ => (hmoved.sublist hsub).mono h.nextCall⟩
  | inr hqueue =>
    obtain ⟨args, rfl, hsleeps, hnext, hown, hqueue⟩ := hqueue
    have hagree : (∀ c ∈ s.flag.mWaiters,
        (s'.sortKey c ≤ s'.sortKey s.nextCall ↔ s'.rank c ≤ s'.rank s.nextCall)) ↔ s.EqualPriority (.wait args) := by
      simp only [EqualPriority, hsleeps, forall_const, sortKey, neg_le_neg_iff]
      cases hmode : s.flag.mQueueMode with
      | fifo => simp [rank, h.mode, hmode]
      | threadPrio =>
        simp only [rank, h.mode, hmode, hown, forall_const]
        refine forall₂_congr fun c hc => ?_
        rw [h.priority c (hs.arrived c hc)]
        omega
    unfold OrderedBoth
    rw [hqueue, hnext, hmoved.insert_inOrder_iff]
    exact ⟨hagree, fun hequal => hmoved.insert (hagree.mpr hequal)⟩

/-- A run keeps the queue in order exactly when no waiter joins others of a different priority. -/
theorem reaches_inWakeOrder_iff {threadMode : ThreadMode} {queueMode : QueueMode} {bits : UInt64}
    {h : List EvfEvent} :
    Reaches EvfState.step (StepInto EvfState.step InWakeOrder) (create threadMode queueMode bits) s h ↔
      Reaches EvfState.step EqualPriority (create threadMode queueMode bits) s h := by
  have hstart : OrderedBoth (create threadMode queueMode bits) :=
    ⟨List.Pairwise.nil, List.Pairwise.nil, fun _ h => by cases h⟩
  constructor
  · intro hreach
    refine (hreach.of_invariant hstart fun s a s' es hs hinto hstep => ?_).1
    obtain ⟨hiff, hordered⟩ := hs.step (stepQueue_of_step hstep)
    have hequal := hiff.mp (hinto s' es hstep)
    exact ⟨hequal, hordered hequal⟩
  · intro hreach
    refine (hreach.of_invariant hstart fun s a s' es hs hequal hstep => ?_).1
    have hinto : StepInto EvfState.step InWakeOrder s a := fun t es' hstep' =>
      (hs.step (stepQueue_of_step hstep')).1.mpr hequal
    exact ⟨hinto, (hs.step (stepQueue_of_step hstep)).2 hequal⟩

end EvfState

/-! ## Semaphores -/

namespace SemState

/-- The `attr.prio` that was converted to the `u32` of a waiter. -/
def attrPrio (priority : Nat) : Int :=
  if priority < 2 ^ 31 then priority else priority - 2 ^ 32

/-- What the waiters are to be ordered by: `attr.prio`, and in FIFO mode the arrival alone. -/
def rank (s : SemState) (call : Nat) : Int :=
  if s.sem.isFifo then 0 else attrPrio (s.frames call).waiter.priority

/-- What `AddWaiter` sorts by. -/
def sortKey (s : SemState) (call : Nat) : Int :=
  if s.sem.isFifo then 0 else (s.frames call).waiter.priority

/-- The calls to which a step grants tokens, in order. -/
def served (events : List SemEvent) : List Nat :=
  events.filterMap fun
    | .granted call _ => some call
    | _ => none

/-- The list is in the order of priority, and `Signal` serves the waiters in this order. -/
def InWakeOrder (s : SemState) : Prop :=
  s.sem.waitList.Pairwise (Before s.rank) ∧
    ∀ signalCount, (served (s.signal signalCount).2.2).Pairwise (Before s.rank)

/-- A call of `Wait` with these arguments queues a waiter. -/
def Sleeps (s : SemState) (canBlock : Bool) (needCount : Int32) (timeout : Option UInt32) : Prop :=
  s.sem.tokenCount < needCount ∧ canBlock = true ∧ timeout ≠ some 0

/-- In priority mode, a call that sleeps has an `attr.prio` of the sign of all that are queued. -/
def SameSign (s : SemState) : SemAction → Prop
  | .wait canBlock needCount timeout threadPriority =>
    s.sem.isFifo = false → s.Sleeps canBlock needCount timeout →
      ∀ call ∈ s.sem.waitList, (attrPrio (s.frames call).waiter.priority < 0 ↔ attrPrio threadPriority < 0)
  | _ => True

/-- The priorities that calls pass are `u32`. -/
def IsU32 : SemAction → Prop
  | .wait _ _ _ threadPriority => threadPriority < 2 ^ 32
  | _ => True

variable {s s' : SemState}

theorem served_granted (granted : List (Nat × Int32)) :
    served (granted.map fun g => .granted g.1 g.2) = granted.map Prod.fst := by
  unfold served
  rw [List.filterMap_map]
  exact congrFun List.filterMap_eq_map granted

theorem signalLoop_sublist {l : List Nat} {tokenCount : Int32} {frames : Nat → WaitFrame} :
    (signalLoop l tokenCount frames).skipped.Sublist l ∧
      ((signalLoop l tokenCount frames).granted.map Prod.fst).Sublist l := by
  induction l generalizing tokenCount frames with
  | nil => exact ⟨List.Sublist.refl _, List.Sublist.refl _⟩
  | cons it rest ih =>
    simp only [signalLoop]
    split
    · exact ⟨ih.1.cons_cons it, ih.2.cons it⟩
    · exact ⟨ih.1.cons it, ih.2.cons_cons it⟩

/-- `Signal` serves waiters in the order of the list. -/
theorem inWakeOrder_iff : s.InWakeOrder ↔ s.sem.waitList.Pairwise (Before s.rank) := by
  refine ⟨And.left, fun h => ⟨h, fun signalCount => ?_⟩⟩
  unfold signal
  split
  · exact List.Pairwise.nil
  refine h.sublist ?_
  have hgranted : served (.accepted signalCount :: (signalLoop s.sem.waitList (s.sem.tokenCount + signalCount)
      s.frames).granted.map fun g => .granted g.1 g.2) = _ := served_granted _
  rw [hgranted]
  exact signalLoop_sublist.2

theorem priority_signalLoop {l : List Nat} {tokenCount : Int32} {frames : Nat → WaitFrame} (call : Nat) :
    ((signalLoop l tokenCount frames).frames call).waiter.priority = (frames call).waiter.priority := by
  induction l generalizing tokenCount frames with
  | nil => rfl
  | cons it rest ih =>
    simp only [signalLoop]
    split
    · exact ih
    refine ih.trans ?_
    by_cases hcall : call = it
    · subst hcall
      rw [update_self]
      rfl
    · rw [update_of_ne hcall]

theorem priority_releaseAll (mark : WaitingThread → WaitingThread) (hmark : ∀ w, (mark w).priority = w.priority)
    (l : List Nat) (frames : Nat → WaitFrame) (call : Nat) :
    (releaseAll mark l frames call).waiter.priority = (frames call).waiter.priority :=
  updateEach_proj (fun frame => frame.waiter.priority) (fun frame => hmark frame.waiter) l frames call

theorem addWaiter_eq (s : SemState) (call : Nat) :
    addWaiter s.sem.isFifo (fun it => (s.frames it).waiter.priority) s.sem.waitList call =
      insertByKey s.sortKey s.sem.waitList call := by
  cases hmode : s.sem.isFifo with
  | true =>
    simp only [addWaiter, insertByKey, sortKey, hmode, if_true, le_refl, decide_true]
    rw [List.takeWhile_eq_self_iff.mpr (by simp), List.dropWhile_eq_nil_iff.mpr (by simp)]
  | false =>
    simp only [addWaiter, insertByKey, sortKey, hmode, Bool.false_eq_true, if_false, Nat.cast_le]

/-- What a step does to the list and to the priorities of the calls so far. -/
structure StepQueue (s : SemState) (a : SemAction) (s' : SemState) : Prop where
  mode : s'.sem.isFifo = s.sem.isFifo
  priority : ∀ call < s.nextCall, (s'.frames call).waiter.priority = (s.frames call).waiter.priority
  nextCall : s.nextCall ≤ s'.nextCall
  queue : (s'.sem.waitList.Sublist s.sem.waitList ∧ ∀ canBlock needCount timeout threadPriority,
      a = .wait canBlock needCount timeout threadPriority → ¬s.Sleeps canBlock needCount timeout) ∨
    ∃ canBlock needCount timeout threadPriority, a = .wait canBlock needCount timeout threadPriority ∧
      s.Sleeps canBlock needCount timeout ∧ s'.nextCall = s.nextCall + 1 ∧
      (s.sem.isFifo = false → (s'.frames s.nextCall).waiter.priority = threadPriority) ∧
      s'.sem.waitList = insertByKey s'.sortKey s.sem.waitList s.nextCall

theorem stepQueue_wait (s : SemState) (canBlock : Bool) (needCount : Int32) (timeout : Option UInt32)
    (threadPriority : Nat) :
    StepQueue s (.wait canBlock needCount timeout threadPriority)
      (s.wait canBlock needCount timeout threadPriority).1 := by
  have hawake : ¬s.Sleeps canBlock needCount timeout → ∀ canBlock' needCount' timeout' threadPriority',
      SemAction.wait canBlock needCount timeout threadPriority =
        .wait canBlock' needCount' timeout' threadPriority' → ¬s.Sleeps canBlock' needCount' timeout' := by
    intro h _ _ _ _ heq
    cases heq
    exact h
  simp only [wait]
  split
  · next henough =>
    exact ⟨rfl, fun _ _ => rfl, Nat.le_succ _, .inl ⟨List.Sublist.refl _, hawake fun h =>
      absurd h.1 (Int32.not_lt.mpr henough)⟩⟩
  rename_i hfew
  split
  · next hblock =>
    refine ⟨rfl, fun _ _ => rfl, Nat.le_succ _, .inl ⟨List.Sublist.refl _, hawake fun h => ?_⟩⟩
    rw [h.2.1] at hblock
    cases hblock
  · next hblock =>
    split
    · next hzero =>
      exact ⟨rfl, fun _ _ => rfl, Nat.le_succ _, .inl ⟨List.Sublist.refl _, hawake fun h => h.2.2 hzero⟩⟩
    rename_i hzero
    refine ⟨rfl, fun call hcall => ?_, Nat.le_succ _,
      .inr ⟨canBlock, needCount, timeout, threadPriority, rfl, ?_, rfl, fun hmode => ?_, ?_⟩⟩
    · simp only [update_of_ne (Nat.ne_of_lt hcall)]
    · exact ⟨Int32.not_le.mp hfew, by simpa using hblock, hzero⟩
    · simp only [update_self, WaitingThread.create, hmode]
      rfl
    · exact addWaiter_eq { s with frames := Function.update s.frames s.nextCall _ } s.nextCall

theorem stepQueue_of_step {a : SemAction} {es : List SemEvent} (hstep : s.step a = some (s', es)) :
    StepQueue s a s' := by
  cases a with
  | wait canBlock needCount timeout threadPriority =>
    obtain ⟨rfl, -⟩ := Prod.mk.inj (Option.some.inj hstep)
    exact stepQueue_wait s canBlock needCount timeout threadPriority
  | wake call elapsed =>
    have hother : ∀ c, (Function.update s.frames call ((s.frames call).finish elapsed) c).waiter.priority =
        (s.frames c).waiter.priority := by
      intro c
      by_cases hcall : c = call
      · subst hcall
        rw [update_self, WaitFrame.finish_waiter]
      · rw [update_of_ne hcall]
    obtain ⟨-, -, ⟨-, rfl, -⟩ | ⟨-, rfl, -⟩⟩ := wake_cases hstep
    · exact ⟨rfl, fun c _ => hother c, Nat.le_refl _, .inl ⟨List.erase_sublist, fun _ _ _ _ h => by cases h⟩⟩
    · exact ⟨rfl, fun c _ => hother c, Nat.le_refl _, .inl ⟨List.Sublist.refl _, fun _ _ _ _ h => by cases h⟩⟩
  | signal signalCount =>
    simp only [SemState.step, signal] at hstep
    split at hstep
    · cases hstep
      exact ⟨rfl, fun _ _ => rfl, Nat.le_refl _, .inl ⟨List.Sublist.refl _, fun _ _ _ _ h => by cases h⟩⟩
    cases hstep
    exact ⟨rfl, fun call _ => priority_signalLoop call, Nat.le_refl _,
      .inl ⟨signalLoop_sublist.1, fun _ _ _ _ h => by cases h⟩⟩
  | cancel setCount =>
    cases hstep
    exact ⟨rfl, fun call _ => priority_releaseAll .canceled (fun _ => rfl) _ _ call, Nat.le_refl _,
      .inl ⟨List.nil_sublist _, fun _ _ _ _ h => by cases h⟩⟩
  | delete =>
    cases hstep
    exact ⟨rfl, fun call _ => priority_releaseAll .deleted (fun _ => rfl) _ _ call, Nat.le_refl _,
      .inl ⟨List.nil_sublist _, fun _ _ _ _ h => by cases h⟩⟩

theorem attrPrio_le_iff {a b : Nat} (ha : a < 2 ^ 32) (hb : b < 2 ^ 32) :
    ((a : Int) ≤ b ↔ attrPrio a ≤ attrPrio b) ↔ (attrPrio a < 0 ↔ attrPrio b < 0) := by
  unfold attrPrio
  split <;> split <;> omega

/-- The list is sorted both by what `AddWaiter` sorts by and by priority. -/
structure OrderedBoth (s : SemState) : Prop where
  ordered : Ordered s.sortKey s.rank s.sem.waitList s.nextCall
  isU32 : s.sem.isFifo = false → ∀ call ∈ s.sem.waitList, (s.frames call).waiter.priority < 2 ^ 32

/-- One step keeps the order exactly when a new waiter has the sign of the others. -/
theorem OrderedBoth.step (hs : s.OrderedBoth) {a : SemAction} (ha : IsU32 a) (h : StepQueue s a s') :
    (s'.InWakeOrder ↔ s.SameSign a) ∧ (s.SameSign a → s'.OrderedBoth) := by
  have hrank : ∀ call < s.nextCall, s'.rank call = s.rank call := by
    intro call hcall
    unfold rank
    rw [h.mode, h.priority call hcall]
  have hkey : ∀ call < s.nextCall, s'.sortKey call = s.sortKey call := by
    intro call hcall
    unfold sortKey
    rw [h.mode, h.priority call hcall]
  have hmoved := hs.ordered.congr hkey hrank
  have hbound : s'.sem.isFifo = false → ∀ call ∈ s.sem.waitList, (s'.frames call).waiter.priority < 2 ^ 32 := by
    intro hmode call hcall
    rw [h.priority call (hs.ordered.arrived call hcall)]
    exact hs.isU32 (h.mode ▸ hmode) call hcall
  rw [inWakeOrder_iff]
  cases h.queue with
  | inl hqueue =>
    obtain ⟨hsub, hawake⟩ := hqueue
    have hsame : s.SameSign a := by
      cases a with
      | wait canBlock needCount timeout threadPriority =>
        exact fun _ hsleeps => absurd hsleeps (hawake _ _ _ _ rfl)
      | _ => trivial
    exact ⟨iff_of_true (hmoved.sublist hsub).inOrder hsame, fun _ => ⟨(hmoved.sublist hsub).mono h.nextCall,
      fun hmode call hcall => hbound hmode call (hsub.subset hcall)⟩⟩
  | inr hqueue =>
    obtain ⟨canBlock, needCount, timeout, threadPriority, rfl, hsleeps, hnext, hown, hqueue⟩ := hqueue
    have hagree : (∀ c ∈ s.sem.waitList,
        (s'.sortKey c ≤ s'.sortKey s.nextCall ↔ s'.rank c ≤ s'.rank s.nextCall)) ↔
          s.SameSign (.wait canBlock needCount timeout threadPriority) := by
      simp only [SameSign, hsleeps, forall_const]
      cases hmode : s.sem.isFifo with
      | true => simp [rank, sortKey, h.mode, hmode]
      | false =>
        simp only [rank, sortKey, h.mode, hmode, hown hmode, forall_const, Bool.false_eq_true, if_false]
        refine forall₂_congr fun c hc => ?_
        rw [h.priority c (hs.ordered.arrived c hc)]
        exact attrPrio_le_iff (hs.isU32 hmode c hc) ha
    refine ⟨?_, fun hsame => ⟨?_, fun hmode call hcall => ?_⟩⟩
    · rw [hqueue, hmoved.insert_inOrder_iff]
      exact hagree
    · rw [hqueue, hnext]
      exact hmoved.insert (hagree.mpr hsame)
    · rw [hqueue] at hcall
      cases mem_insertByKey.mp hcall with
      | inl heq =>
        rw [heq, hown (h.mode ▸ hmode)]
        exact ha
      | inr hin => exact hbound hmode call hin

/-- A run keeps the list in order exactly when no waiter joins others whose `attr.prio` has another sign. -/
theorem reaches_inWakeOrder_iff {initCount maxCount : Int32} {isFifo : Bool} {h : List SemEvent} :
    Reaches SemState.step (fun s a => IsU32 a ∧ StepInto SemState.step InWakeOrder s a)
        (create initCount maxCount isFifo) s h ↔
      Reaches SemState.step (fun s a => IsU32 a ∧ s.SameSign a) (create initCount maxCount isFifo) s h := by
  have hstart : OrderedBoth (create initCount maxCount isFifo) :=
    ⟨⟨List.Pairwise.nil, List.Pairwise.nil, fun _ h => by cases h⟩, fun _ _ h => by cases h⟩
  constructor
  · intro hreach
    refine (hreach.of_invariant hstart fun s a s' es hs hallowed hstep => ?_).1
    obtain ⟨hiff, hordered⟩ := hs.step hallowed.1 (stepQueue_of_step hstep)
    have hsame := hiff.mp (hallowed.2 s' es hstep)
    exact ⟨⟨hallowed.1, hsame⟩, hordered hsame⟩
  · intro hreach
    refine (hreach.of_invariant hstart fun s a s' es hs hallowed hstep => ?_).1
    have hinto : StepInto SemState.step InWakeOrder s a := fun t es' hstep' =>
      (hs.step hallowed.1 (stepQueue_of_step hstep')).1.mpr hallowed.2
    exact ⟨⟨hallowed.1, hinto⟩, (hs.step hallowed.1 (stepQueue_of_step hstep)).2 hallowed.2⟩

end SemState

/-! ## Both -/

/-- A run keeps the waiters of an event flag in the order of priority, state after state, exactly when
    in the mode `ThreadPrio` no call sleeps beside one of another priority; on a semaphore in priority
    mode the signs of the priorities have to be the same. -/
theorem wakeOrder_iff (threadMode : ThreadMode) (queueMode : QueueMode) (bits : UInt64)
    (initCount maxCount : Int32) (isFifo : Bool) (s : EvfState) (h : List EvfEvent) (t : SemState)
    (k : List SemEvent) :
    (Reaches EvfState.step (StepInto EvfState.step EvfState.InWakeOrder)
        (EvfState.create threadMode queueMode bits) s h ↔
      Reaches EvfState.step EvfState.EqualPriority (EvfState.create threadMode queueMode bits) s h) ∧
    (Reaches SemState.step
        (fun t a => SemState.IsU32 a ∧ StepInto SemState.step SemState.InWakeOrder t a)
        (SemState.create initCount maxCount isFifo) t k ↔
      Reaches SemState.step (fun t a => SemState.IsU32 a ∧ t.SameSign a)
        (SemState.create initCount maxCount isFifo) t k) :=
  ⟨EvfState.reaches_inWakeOrder_iff, SemState.reaches_inWakeOrder_iff⟩

/-- A call with the highest priority queues, then one with the default priority gets before it. -/
theorem evf_lowest_first : ¬∀ (threadMode : ThreadMode) (queueMode : QueueMode) (bits : UInt64) (s : EvfState)
    (h : List EvfEvent), Reaches EvfState.step (fun _ _ => True) (EvfState.create threadMode queueMode bits) s h →
      s.InWakeOrder := by
  intro hall
  let high : EvfState.WaitArgs := ⟨1, .or, .bits, true, none, false, 256⟩
  let low : EvfState.WaitArgs := ⟨1, .or, .bits, true, none, false, 700⟩
  obtain ⟨s, h, hreach, hstate⟩ := Reaches.exists_of_runAllowed EvfState.step (fun _ _ => True)
    (EvfState.create .multi .threadPrio 0) [.wait high, .wait low]
    (fun s _ => s.flag.mWaiters = [1, 0] ∧ s.rank 1 = 700 ∧ s.rank 0 = 256) (by decide)
  obtain ⟨hqueue, hlow, hhigh⟩ := of_decide_eq_true hstate
  have horder := (hall .multi .threadPrio 0 s h hreach).1
  rw [hqueue] at horder
  have hle := (List.rel_of_pairwise_cons horder (List.mem_singleton_self 0)).le
  omega

end Kernel
