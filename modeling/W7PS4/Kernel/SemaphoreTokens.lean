-- SUMMARY: Over every interleaving, a semaphore neither makes nor loses tokens and completes each waiter once.
import W7PS4.Kernel.Semaphore

/-!
# Tokens and waiters

The history of a run records what each step decided. `ledger` adds up the tokens put in
and taken out since the last `Cancel`; a call counts from the step that decides that it
returns `ORBIS_OK`, which for a sleeping call is the signal that serves it.
`Stage` says where a call stands: queued, completed but still asleep, returned, or
refused without ever having been queued.
-/

namespace Kernel

/-! ## The ledger -/

/-- The count since the last `Cancel`, the accepted signals and the granted needs. -/
structure Ledger where
  start : Int
  accepted : Int
  granted : Int

namespace Ledger

def record (l : Ledger) : SemEvent → Ledger
  | .accepted count => { l with accepted := l.accepted + count.toInt }
  | .reset count => ⟨count.toInt, 0, 0⟩
  | .granted _ needCount => { l with granted := l.granted + needCount.toInt }
  | _ => l

/-- What the count must be. -/
def balance (l : Ledger) : Int := l.start + l.accepted - l.granted

end Ledger

def ledger (initCount : Int32) (history : List SemEvent) : Ledger :=
  history.foldl .record ⟨initCount.toInt, 0, 0⟩

variable {h es : List SemEvent} {call : Nat}

theorem ledger_append {initCount : Int32} :
    ledger initCount (h ++ es) = es.foldl .record (ledger initCount h) := List.foldl_append

/-- Events that do not touch the ledger. -/
theorem Ledger.foldl_record_of_const {l : Ledger} {es : List SemEvent}
    (h : ∀ e ∈ es, ∀ l : Ledger, l.record e = l) : es.foldl .record l = l := by
  induction es with
  | nil => rfl
  | cons e es ih =>
    rw [List.foldl_cons, h e (List.mem_cons_self ..) l]
    exact ih fun e he => h e (List.mem_cons_of_mem _ he)

theorem Ledger.balance_foldl_granted {l : Ledger} {granted : List (Nat × Int32)} :
    ((granted.map fun g => SemEvent.granted g.1 g.2).foldl .record l).balance =
      l.balance - (granted.map fun g => g.2.toInt).sum := by
  induction granted generalizing l with
  | nil => simp
  | cons g granted ih =>
    simp only [List.map_cons, List.foldl_cons, List.sum_cons, ih]
    simp only [record, balance]
    omega

/-! ## Calls -/

/-- The result that the event decides for the call. -/
def SemEvent.completion (call : Nat) : SemEvent → Option SemResult
  | .granted c _ => if c = call then some .ok else none
  | .canceled c => if c = call then some .ecanceled else none
  | .deleted c => if c = call then some .eacces else none
  | .timedOut c => if c = call then some .etimedout else none
  | _ => none

def SemEvent.returnedTo (call : Nat) : SemEvent → Option SemResult
  | .returned c result => if c = call then some result else none
  | _ => none

def completions (call : Nat) (history : List SemEvent) : List SemResult :=
  history.filterMap (SemEvent.completion call)

def returns (call : Nat) (history : List SemEvent) : List SemResult :=
  history.filterMap (SemEvent.returnedTo call)

@[simp] theorem completions_append :
    completions call (h ++ es) = completions call h ++ completions call es := List.filterMap_append

@[simp] theorem returns_append :
    returns call (h ++ es) = returns call h ++ returns call es := List.filterMap_append

@[simp] theorem completions_nil : completions call [] = [] := rfl

@[simp] theorem returns_nil : returns call [] = [] := rfl

@[simp] theorem completions_cons {e : SemEvent} {es : List SemEvent} :
    completions call (e :: es) = (e.completion call).toList ++ completions call es := by
  rw [completions, List.filterMap_cons]
  cases e.completion call <;> rfl

@[simp] theorem returns_cons {e : SemEvent} {es : List SemEvent} :
    returns call (e :: es) = (e.returnedTo call).toList ++ returns call es := by
  rw [returns, List.filterMap_cons]
  cases e.returnedTo call <;> rfl

/-- No flag is set and nobody has released it. -/
def WaitingThread.Untouched (w : WaitingThread) : Prop :=
  w.sem = 0 ∧ w.wasSignaled = false ∧ w.wasDeleted = false ∧ w.wasCanceled = false

inductive Stage (s : SemState) (h : List SemEvent) (call : Nat) : Prop
  /-- Asleep, and nothing has been decided. -/
  | queued (mem : call ∈ s.sem.waitList) (live : (s.frames call).live = true)
      (untouched : (s.frames call).waiter.Untouched) (completions : completions call h = [])
      (returns : returns call h = [])
  /-- Released once, with a result the call will return. -/
  | completed (result : SemResult) (notMem : call ∉ s.sem.waitList)
      (live : (s.frames call).live = true) (released : (s.frames call).waiter.sem = 1)
      (getResult : (s.frames call).waiter.getResult = result) (notTimedOut : result ≠ .etimedout)
      (completions : completions call h = [result]) (returns : returns call h = [])
  | returned (result : SemResult) (notMem : call ∉ s.sem.waitList)
      (live : (s.frames call).live = false) (completions : completions call h = [result])
      (returns : returns call h = [result])
  /-- Failed at once; there never was a waiter. -/
  | refused (result : SemResult) (notMem : call ∉ s.sem.waitList)
      (live : (s.frames call).live = false) (notQueued : SemEvent.queued call ∉ h)
      (completions : completions call h = []) (failed : result ≠ .ok)
      (returns : returns call h = [result])

structure SemState.Conserves (s : SemState) (initCount : Int32) (h : List SemEvent) : Prop where
  balance : s.sem.tokenCount.toInt = (ledger initCount h).balance
  nodup : s.sem.waitList.Nodup
  needs : ∀ call ∈ s.sem.waitList, 0 < (s.frames call).waiter.needCount
  waits : ∀ call ∈ s.sem.waitList, s.sem.tokenCount < (s.frames call).waiter.needCount
  stage : ∀ call < s.nextCall, Stage s h call
  fresh : ∀ call, s.nextCall ≤ call → call ∉ s.sem.waitList ∧ (s.frames call).live = false ∧
    completions call h = [] ∧ returns call h = [] ∧ SemEvent.queued call ∉ h

/-! ## Events about one call -/

/-- Among events with different keys at most one is about the call. -/
theorem filterMap_key {β : Type} {l : List β} {key : β → Nat} {call : Nat} {result : SemResult}
    (hnodup : (l.map key).Nodup) :
    (l.filterMap fun b => if key b = call then some result else none) =
      if call ∈ l.map key then [result] else [] := by
  induction l with
  | nil => rfl
  | cons b l ih =>
    rw [List.map_cons, List.nodup_cons] at hnodup
    by_cases hkey : key b = call
    · have hnotMem : call ∉ l.map key := hkey ▸ hnodup.1
      rw [List.filterMap_cons_some (by rw [if_pos hkey]), ih hnodup.2, if_neg hnotMem,
        if_pos (by simp [hkey])]
    · rw [List.filterMap_cons_none (by rw [if_neg hkey]), ih hnodup.2]
      simp only [List.map_cons, List.mem_cons, Ne.symm hkey, false_or]

theorem completions_granted {granted : List (Nat × Int32)} (hnodup : (granted.map Prod.fst).Nodup) :
    completions call (granted.map fun g => .granted g.1 g.2) =
      if call ∈ granted.map Prod.fst then [.ok] else [] := by
  rw [completions, List.filterMap_map]
  exact filterMap_key hnodup

theorem completions_map {waitList : List Nat} {event : Nat → SemEvent} {result : SemResult}
    (hnodup : waitList.Nodup)
    (hevent : ∀ c, (event c).completion call = if c = call then some result else none) :
    completions call (waitList.map event) = if call ∈ waitList then [result] else [] := by
  have hkey := @filterMap_key _ waitList id call result (by simpa using hnodup)
  rw [List.map_id] at hkey
  rw [completions, List.filterMap_map, ← hkey]
  exact List.filterMap_congr fun c _ => hevent c

theorem returns_map_eq_nil {β : Type} {l : List β} {event : β → SemEvent}
    (hevent : ∀ b, (event b).returnedTo call = none) : returns call (l.map event) = [] := by
  rw [returns, List.filterMap_map, List.filterMap_eq_nil_iff]
  exact fun b _ => hevent b

/-- A step that does not touch a call leaves it where it stands. -/
theorem Stage.frame {s s' : SemState} (hstage : Stage s h call)
    (hmem : call ∈ s'.sem.waitList ↔ call ∈ s.sem.waitList) (hframe : s'.frames call = s.frames call)
    (hcompletions : completions call es = []) (hreturns : returns call es = [])
    (hqueued : SemEvent.queued call ∉ es) : Stage s' (h ++ es) call := by
  cases hstage with
  | queued mem live untouched cs rs =>
    exact .queued (hmem.mpr mem) (hframe ▸ live) (hframe ▸ untouched) (by simp [cs, hcompletions])
      (by simp [rs, hreturns])
  | completed result notMem live released getResult notTimedOut cs rs =>
    exact .completed result (mt hmem.mp notMem) (hframe ▸ live) (hframe ▸ released)
      (hframe ▸ getResult) notTimedOut (by simp [cs, hcompletions]) (by simp [rs, hreturns])
  | returned result notMem live cs rs =>
    exact .returned result (mt hmem.mp notMem) (hframe ▸ live) (by simp [cs, hcompletions])
      (by simp [rs, hreturns])
  | refused result notMem live notQueued cs failed rs =>
    exact .refused result (mt hmem.mp notMem) (hframe ▸ live) (by simp [notQueued, hqueued])
      (by simp [cs, hcompletions]) failed (by simp [rs, hreturns])

/-- What marking a queued waiter must do to it. -/
def Completes (mark : WaitingThread → WaitingThread) (result : SemResult) : Prop :=
  ∀ w : WaitingThread, w.Untouched → (mark w).sem = 1 ∧ (mark w).getResult = result

theorem completes_signaled : Completes .signaled .ok := by
  rintro w ⟨hsem, -, -, -⟩
  exact ⟨congrArg (· + 1) hsem, rfl⟩

theorem completes_canceled : Completes .canceled .ecanceled := by
  rintro w ⟨hsem, hsignaled, hdeleted, -⟩
  exact ⟨congrArg (· + 1) hsem,
    by simp [WaitingThread.getResult, WaitingThread.canceled, hsignaled, hdeleted]⟩

theorem completes_deleted : Completes .deleted .eacces := by
  rintro w ⟨hsem, hsignaled, -, -⟩
  exact ⟨congrArg (· + 1) hsem, by simp [WaitingThread.getResult, WaitingThread.deleted, hsignaled]⟩

/-- A queued call that a step marks and takes off the queue is completed. -/
theorem Stage.complete {s s' : SemState} (hstage : Stage s h call)
    {mark : WaitingThread → WaitingThread} {result : SemResult} (hmark : Completes mark result)
    (hresult : result ≠ .etimedout) (hmem : call ∈ s.sem.waitList) (hoff : call ∉ s'.sem.waitList)
    (hframe : s'.frames call = (s.frames call).modify mark)
    (hcompletions : completions call es = [result]) (hreturns : returns call es = []) :
    Stage s' (h ++ es) call := by
  cases hstage with
  | queued mem live untouched cs rs =>
    have hdone := hmark _ untouched
    refine .completed result hoff ?_ ?_ ?_ hresult (by simp [cs, hcompletions]) (by simp [rs, hreturns])
    · rw [hframe, WaitFrame.modify_live, live]
    · rw [hframe, WaitFrame.modify_waiter, hdone.1]
    · rw [hframe, WaitFrame.modify_waiter, hdone.2]
  | completed result notMem live released getResult notTimedOut cs rs => exact absurd hmem notMem
  | returned result notMem live cs rs => exact absurd hmem notMem
  | refused result notMem live notQueued cs failed rs => exact absurd hmem notMem

/-! ## Steps -/

namespace SemState

variable {s s' : SemState} {initCount : Int32} {h : List SemEvent}

theorem conserves_create {maxCount : Int32} {isFifo : Bool} :
    (create initCount maxCount isFifo).Conserves initCount [] where
  balance := by simp [create, ledger, Ledger.balance]
  nodup := List.nodup_nil
  needs := nofun
  waits := nofun
  stage := fun call hcall => absurd hcall (Nat.not_lt_zero call)
  fresh := fun call _ => ⟨nofun, rfl, rfl, rfl, nofun⟩

/-- A step emits events only about calls it knows, so later numbers stay fresh. -/
theorem Conserves.fresh_append (hs : s.Conserves initCount h) {es : List SemEvent} {call : Nat}
    (hcall : s.nextCall ≤ call) (hmem : call ∉ s'.sem.waitList) (hframe : s'.frames call = s.frames call)
    (hcompletions : completions call es = []) (hreturns : returns call es = [])
    (hqueued : SemEvent.queued call ∉ es) :
    call ∉ s'.sem.waitList ∧ (s'.frames call).live = false ∧ completions call (h ++ es) = [] ∧
      returns call (h ++ es) = [] ∧ SemEvent.queued call ∉ h ++ es := by
  obtain ⟨-, hlive, hc, hr, hq⟩ := hs.fresh call hcall
  exact ⟨hmem, hframe ▸ hlive, by simp [hc, hcompletions], by simp [hr, hreturns], by simp [hq, hqueued]⟩

/-- `Wait` that takes its tokens at once. -/
theorem Conserves.take (hs : s.Conserves initCount h) {needCount : Int32} (hpos : 0 < needCount)
    (htake : needCount ≤ s.sem.tokenCount) :
    Conserves
      { s with
        sem := { s.sem with tokenCount := s.sem.tokenCount - needCount }
        nextCall := s.nextCall + 1 }
      initCount (h ++ [.granted s.nextCall needCount, .returned s.nextCall .ok]) := by
  have hrest : (s.sem.tokenCount - needCount).toInt = s.sem.tokenCount.toInt - needCount.toInt := by
    rw [Int32.le_iff_toInt_le] at htake
    rw [Int32.lt_iff_toInt_lt, Int32.toInt_zero] at hpos
    have := s.sem.tokenCount.toInt_lt
    exact toInt_sub_of_fits (by omega) (by omega)
  have hother : ∀ call ≠ s.nextCall,
      completions call [SemEvent.granted s.nextCall needCount, .returned s.nextCall .ok] = [] ∧
      returns call [SemEvent.granted s.nextCall needCount, .returned s.nextCall .ok] = [] := by
    intro call hne
    simp [SemEvent.completion, SemEvent.returnedTo, Ne.symm hne]
  refine ⟨?_, hs.nodup, hs.needs, ?_, ?_, ?_⟩
  · have hbalance := hs.balance
    simp only [ledger_append, List.foldl_cons, List.foldl_nil, Ledger.record, Ledger.balance] at *
    omega
  · intro call hcall
    have hwaits := hs.waits call hcall
    simp only [Int32.lt_iff_toInt_lt, Int32.toInt_zero, hrest] at hwaits hpos ⊢
    omega
  · intro call hcall
    by_cases hnew : call = s.nextCall
    · subst hnew
      obtain ⟨hmem, hlive, hc, hr, -⟩ := hs.fresh s.nextCall (Nat.le_refl _)
      refine .returned .ok hmem hlive ?_ ?_
      · simp [hc, SemEvent.completion]
      · simp [hr, SemEvent.returnedTo]
    · exact (hs.stage call (by simp only at hcall; omega)).frame Iff.rfl rfl (hother call hnew).1
        (hother call hnew).2 (by simp)
  · intro call hcall
    have hne : call ≠ s.nextCall := by simp only at hcall; omega
    have hle : s.nextCall ≤ call := by simp only at hcall; omega
    exact hs.fresh_append hle (hs.fresh call hle).1 rfl (hother call hne).1 (hother call hne).2 (by simp)

/-- `Wait` that fails at once. -/
theorem Conserves.refuse (hs : s.Conserves initCount h) {result : SemResult} (hresult : result ≠ .ok) :
    Conserves { s with nextCall := s.nextCall + 1 } initCount (h ++ [.returned s.nextCall result]) := by
  have hother : ∀ call ≠ s.nextCall, returns call [SemEvent.returned s.nextCall result] = [] := by
    intro call hne
    simp [SemEvent.returnedTo, Ne.symm hne]
  refine ⟨?_, hs.nodup, hs.needs, hs.waits, ?_, ?_⟩
  · rw [hs.balance, ledger_append]
    rfl
  · intro call hcall
    by_cases hnew : call = s.nextCall
    · subst hnew
      obtain ⟨hmem, hlive, hc, hr, hq⟩ := hs.fresh s.nextCall (Nat.le_refl _)
      refine .refused result hmem hlive (by simp [hq]) ?_ hresult ?_
      · simp [hc, SemEvent.completion]
      · simp [hr, SemEvent.returnedTo]
    · exact (hs.stage call (by simp only at hcall; omega)).frame Iff.rfl rfl rfl (hother call hnew) (by simp)
  · intro call hcall
    have hne : call ≠ s.nextCall := by simp only at hcall; omega
    have hle : s.nextCall ≤ call := by simp only at hcall; omega
    exact hs.fresh_append hle (hs.fresh call hle).1 rfl rfl (hother call hne) (by simp)

/-- `Wait` that queues its waiter. -/
theorem Conserves.enqueue (hs : s.Conserves initCount h) {needCount : Int32} (hpos : 0 < needCount)
    (hmore : ¬needCount ≤ s.sem.tokenCount) {waitList : List Nat} {priority : Nat}
    {timeout : Option UInt32} (hperm : waitList.Perm (s.nextCall :: s.sem.waitList)) :
    (s.enqueue waitList needCount priority timeout).Conserves initCount (h ++ [.queued s.nextCall]) := by
  obtain ⟨hnew, -, hc, hr, -⟩ := hs.fresh s.nextCall (Nat.le_refl _)
  have hother : ∀ call ≠ s.nextCall,
      (s.enqueue waitList needCount priority timeout).frames call = s.frames call := fun call hne =>
    Function.update_of_ne hne _ _
  have hmem : ∀ call, call ∈ waitList ↔ call = s.nextCall ∨ call ∈ s.sem.waitList := fun call =>
    hperm.mem_iff.trans List.mem_cons
  have hneed : ((s.enqueue waitList needCount priority timeout).frames s.nextCall).waiter.needCount =
      needCount := by
    simp only [SemState.enqueue, Function.update_self]
  refine ⟨?_, ?_, ?_, ?_, ?_, ?_⟩
  · rw [ledger_append]
    exact hs.balance
  · exact hperm.nodup_iff.mpr (List.nodup_cons.mpr ⟨hnew, hs.nodup⟩)
  · intro call hcall
    obtain rfl | hcall := (hmem call).mp hcall
    · rwa [hneed]
    · rw [hother call (ne_of_mem_of_not_mem hcall hnew)]
      exact hs.needs call hcall
  · intro call hcall
    obtain rfl | hcall := (hmem call).mp hcall
    · rw [hneed]
      exact Int32.not_le.mp hmore
    · rw [hother call (ne_of_mem_of_not_mem hcall hnew)]
      exact hs.waits call hcall
  · intro call hcall
    by_cases hcall' : call = s.nextCall
    · subst hcall'
      refine .queued ((hmem _).mpr (.inl rfl)) ?_ ?_ (by simp [hc, SemEvent.completion])
        (by simp [hr, SemEvent.returnedTo])
      · simp only [SemState.enqueue, Function.update_self]
      · simp only [SemState.enqueue, Function.update_self, WaitingThread.Untouched, and_self]
    · have hlt : call < s.nextCall := by simp only [SemState.enqueue] at hcall; omega
      exact (hs.stage call hlt).frame ((hmem call).trans (or_iff_right hcall')) (hother call hcall') rfl rfl
        (by simpa using hcall')
  · intro call hcall
    have hle : s.nextCall ≤ call := by simp only [SemState.enqueue] at hcall; omega
    have hne : call ≠ s.nextCall := by simp only [SemState.enqueue] at hcall; omega
    refine hs.fresh_append hle ?_ (hother call hne) rfl rfl (by simpa using hne)
    exact fun h => ((hmem call).mp h).elim hne (hs.fresh call hle).1

/-- A sleeping call returns. -/
theorem Conserves.wake (hs : s.Conserves initCount h) {call : Nat} {elapsed : UInt32}
    {events : List SemEvent} (hwake : s.wake call elapsed = some (s', events)) :
    s'.Conserves initCount (h ++ events) := by
  obtain ⟨hlive, -, hcases⟩ := wake_cases hwake
  have hknown : call < s.nextCall := by
    by_contra hge
    rw [(hs.fresh call (Nat.le_of_not_lt hge)).2.1] at hlive
    cases hlive
  have hneed : ∀ c, (Function.update s.frames call ((s.frames call).finish elapsed) c).waiter =
      (s.frames c).waiter := by
    intro c
    by_cases hc : c = call
    · rw [hc, Function.update_self, WaitFrame.finish_waiter]
    · rw [Function.update_of_ne hc]
  obtain ⟨hresult, rfl, rfl⟩ | ⟨hresult, rfl, rfl⟩ := hcases
  · -- No flag is set, so the waiter is still queued; it leaves by itself.
    have hsub : ∀ c ∈ s.sem.waitList.erase call, c ∈ s.sem.waitList := fun c hc =>
      List.mem_of_mem_erase hc
    have hother : ∀ c ≠ call,
        completions c [SemEvent.timedOut call, .returned call .etimedout] = [] ∧
        returns c [SemEvent.timedOut call, .returned call .etimedout] = [] := by
      intro c hne
      simp [SemEvent.completion, SemEvent.returnedTo, Ne.symm hne]
    refine ⟨?_, hs.nodup.erase _, fun c hc => ?_, fun c hc => ?_, ?_, ?_⟩
    · rw [ledger_append]
      exact hs.balance
    · simp only [hneed c]
      exact hs.needs c (hsub c hc)
    · simp only [hneed c]
      exact hs.waits c (hsub c hc)
    · intro c hc
      by_cases hcall : c = call
      · subst hcall
        cases hs.stage c hknown with
        | queued mem live untouched cs rs =>
          refine .returned .etimedout hs.nodup.not_mem_erase ?_ ?_ ?_
          · simp only [Function.update_self, WaitFrame.finish_live]
          · simp [cs, SemEvent.completion]
          · simp [rs, SemEvent.returnedTo]
        | completed result notMem live released getResult notTimedOut cs rs =>
          exact absurd (getResult.symm.trans hresult) notTimedOut
        | returned result notMem live cs rs => rw [live] at hlive; cases hlive
        | refused result notMem live notQueued cs failed rs => rw [live] at hlive; cases hlive
      · exact (hs.stage c hc).frame (List.mem_erase_of_ne hcall) (Function.update_of_ne hcall _ _)
          (hother c hcall).1 (hother c hcall).2 (by simp)
    · intro c hc
      have hne : c ≠ call := fun heq => absurd hknown (not_lt.mpr (heq ▸ hc))
      exact hs.fresh_append hc (fun hmem => (hs.fresh c hc).1 (hsub c hmem))
        (Function.update_of_ne hne _ _) (hother c hne).1 (hother c hne).2 (by simp)
  · have hother : ∀ c ≠ call,
        returns c [SemEvent.returned call (s.frames call).waiter.getResult] = [] := by
      intro c hne
      simp [SemEvent.returnedTo, Ne.symm hne]
    refine ⟨?_, hs.nodup, fun c hc => ?_, fun c hc => ?_, ?_, ?_⟩
    · rw [ledger_append]
      exact hs.balance
    · simp only [hneed c]
      exact hs.needs c hc
    · simp only [hneed c]
      exact hs.waits c hc
    · intro c hc
      by_cases hcall : c = call
      · subst hcall
        cases hs.stage c hknown with
        | queued mem live untouched cs rs =>
          obtain ⟨-, hsignaled, hdeleted, hcanceled⟩ := untouched
          simp [WaitingThread.getResult, hsignaled, hdeleted, hcanceled] at hresult
        | completed result notMem live released getResult notTimedOut cs rs =>
          refine .returned result notMem ?_ ?_ ?_
          · simp only [Function.update_self, WaitFrame.finish_live]
          · simp [cs, SemEvent.completion]
          · simp [rs, SemEvent.returnedTo, getResult]
        | returned result notMem live cs rs => rw [live] at hlive; cases hlive
        | refused result notMem live notQueued cs failed rs => rw [live] at hlive; cases hlive
      · exact (hs.stage c hc).frame Iff.rfl (Function.update_of_ne hcall _ _) rfl (hother c hcall) (by simp)
    · intro c hc
      have hne : c ≠ call := fun heq => absurd hknown (not_lt.mpr (heq ▸ hc))
      exact hs.fresh_append hc (hs.fresh c hc).1 (Function.update_of_ne hne _ _) rfl (hother c hne) (by simp)

/-- `Cancel` and `Delete` complete every queued call. -/
theorem Conserves.releaseAll (hs : s.Conserves initCount h) {mark : WaitingThread → WaitingThread}
    {event : Nat → SemEvent} {result : SemResult} {tokenCount : Int32} {tail : List SemEvent}
    (hmark : Completes mark result) (hresult : result ≠ .etimedout)
    (hevent : ∀ call c, (event c).completion call = if c = call then some result else none)
    (hreturned : ∀ call c, (event c).returnedTo call = none) (hqueued : ∀ call c, .queued call ≠ event c)
    (htail : ∀ call, completions call tail = [] ∧ returns call tail = [] ∧ .queued call ∉ tail)
    (hbalance : tokenCount.toInt = (ledger initCount (h ++ (s.sem.waitList.map event ++ tail))).balance) :
    Conserves
      { s with
        sem := { s.sem with waitList := [], tokenCount := tokenCount }
        frames := SemState.releaseAll mark s.sem.waitList s.frames }
      initCount (h ++ (s.sem.waitList.map event ++ tail)) := by
  have hcompletions : ∀ call, completions call (s.sem.waitList.map event ++ tail) =
      if call ∈ s.sem.waitList then [result] else [] := by
    intro call
    rw [completions_append, completions_map hs.nodup (hevent call), (htail call).1, List.append_nil]
  have hreturns : ∀ call, returns call (s.sem.waitList.map event ++ tail) = [] := by
    intro call
    rw [returns_append, returns_map_eq_nil (hreturned call), (htail call).2.1, List.append_nil]
  have hnotQueued : ∀ call, SemEvent.queued call ∉ s.sem.waitList.map event ++ tail := by
    intro call hmem
    cases List.mem_append.mp hmem with
    | inl hmem =>
      obtain ⟨c, -, heq⟩ := List.mem_map.mp hmem
      exact hqueued call c heq.symm
    | inr hmem => exact (htail call).2.2 hmem
  have hmarked : ∀ call ∈ s.sem.waitList,
      SemState.releaseAll mark s.sem.waitList s.frames call = (s.frames call).modify mark :=
    fun call hmem => updateEach_of_mem hs.nodup hmem s.frames
  have hother : ∀ call ∉ s.sem.waitList,
      SemState.releaseAll mark s.sem.waitList s.frames call = s.frames call :=
    fun call hmem => updateEach_of_notMem hmem s.frames
  refine ⟨hbalance, List.nodup_nil, nofun, nofun, ?_, ?_⟩
  · intro call hcall
    by_cases hmem : call ∈ s.sem.waitList
    · exact (hs.stage call hcall).complete hmark hresult hmem List.not_mem_nil (hmarked call hmem)
        (by rw [hcompletions, if_pos hmem]) (hreturns call)
    · exact (hs.stage call hcall).frame (iff_of_false List.not_mem_nil hmem) (hother call hmem)
        (by rw [hcompletions, if_neg hmem]) (hreturns call) (hnotQueued call)
  · intro call hcall
    have hmem := (hs.fresh call hcall).1
    exact hs.fresh_append hcall List.not_mem_nil (hother call hmem)
      (by rw [hcompletions, if_neg hmem]) (hreturns call) (hnotQueued call)

theorem Conserves.cancel (hs : s.Conserves initCount h) {setCount : Int32} :
    (s.cancel setCount).2.1.Conserves initCount (h ++ (s.cancel setCount).2.2) := by
  refine hs.releaseAll completes_canceled (by decide) (fun _ _ => rfl) (fun _ _ => rfl) nofun ?_ ?_
  · intro call
    simp [SemEvent.completion, SemEvent.returnedTo]
  · simp [ledger_append, Ledger.record, Ledger.balance]

theorem Conserves.delete (hs : s.Conserves initCount h) :
    s.delete.1.Conserves initCount (h ++ s.delete.2) := by
  have hevents : s.delete.2 = s.sem.waitList.map .deleted ++ [] := (List.append_nil _).symm
  rw [hevents]
  refine hs.releaseAll completes_deleted (by decide) (fun _ _ => rfl) (fun _ _ => rfl) nofun ?_ ?_
  · intro call
    simp
  · rw [List.append_nil, ledger_append, Ledger.foldl_record_of_const]
    · exact hs.balance
    · intro e he l
      obtain ⟨c, -, rfl⟩ := List.mem_map.mp he
      rfl

/-- A signal whose sum does not wrap serves the queue. -/
theorem Conserves.signal (hs : s.Conserves initCount h) {signalCount : Int32} (hpos : 0 < signalCount)
    (hfits : s.sem.tokenCount.toInt + signalCount.toInt < 2 ^ 31) :
    (s.signal signalCount).2.1.Conserves initCount (h ++ (s.signal signalCount).2.2) := by
  have hsum : (s.sem.tokenCount + signalCount).toInt = s.sem.tokenCount.toInt + signalCount.toInt := by
    rw [Int32.lt_iff_toInt_lt, Int32.toInt_zero] at hpos
    have := s.sem.tokenCount.le_toInt
    exact toInt_add_of_fits (by omega) hfits
  have hserves := @signalLoop_serves s.sem.waitList (s.sem.tokenCount + signalCount) s.frames
    hs.nodup hs.needs
  simp only [SemState.signal]
  split
  · rwa [List.append_nil]
  generalize signalLoop s.sem.waitList (s.sem.tokenCount + signalCount) s.frames = pass at hserves
  have hsplit := List.nodup_append.mp (hserves.perm.nodup_iff.mpr hs.nodup)
  have hgranted : ∀ call ∈ pass.granted.map Prod.fst, call ∈ s.sem.waitList := fun call hcall =>
    hserves.perm.subset (List.mem_append_right _ hcall)
  have hkept : ∀ call ∈ pass.skipped, pass.frames call = s.frames call := fun call hcall =>
    hserves.frames_other call (hserves.notMem_granted hs.nodup hcall)
  have hcompletions : ∀ call,
      completions call (.accepted signalCount :: pass.granted.map fun g => .granted g.1 g.2) =
        if call ∈ pass.granted.map Prod.fst then [.ok] else [] := by
    intro call
    rw [completions_cons, completions_granted hsplit.2.1]
    rfl
  have hreturns : ∀ call,
      returns call (.accepted signalCount :: pass.granted.map fun g => .granted g.1 g.2) = [] := by
    intro call
    rw [returns_cons, returns_map_eq_nil fun _ => rfl]
    rfl
  refine ⟨?_, hsplit.1, fun call hcall => ?_, fun call hcall => ?_, ?_, ?_⟩
  · have hbalance := hs.balance
    have hpaid := hserves.paid
    rw [ledger_append, List.foldl_cons, Ledger.balance_foldl_granted]
    simp only [Ledger.record, Ledger.balance] at hbalance ⊢
    omega
  · simp only [hkept call hcall]
    exact hs.needs call (hserves.skipped.subset hcall)
  · simp only [hkept call hcall]
    exact hserves.left call hcall
  · intro call hcall
    by_cases hmem : call ∈ pass.granted.map Prod.fst
    · refine (hs.stage call hcall).complete completes_signaled (by decide) (hgranted call hmem) ?_
        (hserves.frames_granted call hmem) (by rw [hcompletions, if_pos hmem]) (hreturns call)
      exact fun hskip => hserves.notMem_granted hs.nodup hskip hmem
    refine (hs.stage call hcall).frame ?_ (hserves.frames_other call hmem)
      (by rw [hcompletions, if_neg hmem]) (hreturns call) (by simp)
    rw [← hserves.perm.mem_iff, List.mem_append, or_iff_left hmem]
  · intro call hcall
    have hmem := (hs.fresh call hcall).1
    have hnot : call ∉ pass.granted.map Prod.fst := fun h => hmem (hgranted call h)
    exact hs.fresh_append hcall (fun hskip => hmem (hserves.skipped.subset hskip))
      (hserves.frames_other call hnot) (by rw [hcompletions, if_neg hnot]) (hreturns call) (by simp)

end SemState

/-! ## Runs -/

/-- Needs and signals are positive. -/
def SemAction.Positive : SemAction → Prop
  | .wait _ needCount _ _ => 0 < needCount
  | .signal signalCount => 0 < signalCount
  | .wake .. | .cancel _ | .delete => True

instance : DecidablePred SemAction.Positive
  | .wait _ needCount _ _ => inferInstanceAs (Decidable (0 < needCount))
  | .signal signalCount => inferInstanceAs (Decidable (0 < signalCount))
  | .wake .. | .cancel _ | .delete => inferInstanceAs (Decidable True)

namespace SemState

variable {s s' : SemState} {initCount : Int32} {h : List SemEvent}

/-- The sum a signal computes is an `s32`. -/
def Unwrapped (s : SemState) : SemAction → Prop
  | .signal signalCount => s.sem.tokenCount.toInt + signalCount.toInt < 2 ^ 31
  | _ => True

instance (s : SemState) : DecidablePred s.Unwrapped
  | .signal signalCount =>
    inferInstanceAs (Decidable (s.sem.tokenCount.toInt + signalCount.toInt < 2 ^ 31))
  | .wait .. | .wake .. | .cancel _ | .delete => inferInstanceAs (Decidable True)

theorem Conserves.step (hs : s.Conserves initCount h) {a : SemAction} {es : List SemEvent}
    (hpositive : a.Positive) (hunwrapped : s.Unwrapped a) (hstep : s.step a = some (s', es)) :
    s'.Conserves initCount (h ++ es) := by
  cases a with
  | wait canBlock needCount timeout threadPriority =>
    simp only [SemState.step, Option.some.injEq] at hstep
    obtain ⟨htake, heq⟩ | ⟨-, result, hresult, heq⟩ | ⟨hmore, waitList, priority, hperm, heq⟩ :=
      wait_cases s canBlock needCount timeout threadPriority
    · cases heq.symm.trans hstep
      exact hs.take hpositive htake
    · cases heq.symm.trans hstep
      exact hs.refuse (by rintro rfl; simp at hresult)
    · cases heq.symm.trans hstep
      exact hs.enqueue hpositive hmore hperm
  | wake call elapsed => exact hs.wake hstep
  | signal signalCount =>
    obtain ⟨rfl, rfl⟩ := Prod.mk.inj (Option.some.inj hstep)
    exact hs.signal hpositive hunwrapped
  | cancel setCount =>
    cases hstep
    exact hs.cancel
  | delete =>
    cases hstep
    exact hs.delete

/-- In every run in which no signal's sum wraps: the count and the granted needs add up to the
    starting count and the accepted signals, every call stands at one stage with at most one
    result decided, and no queued call needs only what is there. -/
theorem conserved_of_run {maxCount : Int32} {isFifo : Bool}
    (hreach : Reaches step (fun s a => a.Positive ∧ s.Unwrapped a) (create initCount maxCount isFifo) s h) :
    s.sem.tokenCount.toInt + (ledger initCount h).granted =
      (ledger initCount h).start + (ledger initCount h).accepted ∧
    (∀ call < s.nextCall, Stage s h call) ∧
    ∀ call ∈ s.sem.waitList, ¬(s.frames call).waiter.needCount ≤ s.sem.tokenCount := by
  have hs : s.Conserves initCount h := by
    refine hreach.invariant (P := fun s h => s.Conserves initCount h) conserves_create ?_
    exact fun _ _ _ _ _ hs hallowed hstep => hs.step hallowed.1 hallowed.2 hstep
  refine ⟨?_, hs.stage, fun call hcall => Int32.not_le.mpr (hs.waits call hcall)⟩
  have hbalance := hs.balance
  rw [Ledger.balance] at hbalance
  omega

/-- A signal skips the first waiter and serves the second, whose time was already up. -/
def servedLate : List SemAction :=
  [.wait true 3 none 700, .wait true 1 (some 10) 700, .signal 2, .wake 1 10]

theorem conserved_servedLate : ∃ s h,
    runAllowed step (fun s a => a.Positive ∧ s.Unwrapped a) (create 0 4 true) [] servedLate = some (s, h) ∧
    returns 1 h = [.ok] ∧ s.sem.tokenCount = 1 ∧ s.sem.waitList = [0] ∧
    s.sem.tokenCount.toInt + (ledger 0 h).granted = (ledger 0 h).start + (ledger 0 h).accepted := by
  have hrun : (match runAllowed step (fun s a => a.Positive ∧ s.Unwrapped a) (create 0 4 true) []
        servedLate with
      | some (s, h) => decide (returns 1 h = [.ok] ∧ s.sem.tokenCount = 1 ∧ s.sem.waitList = [0])
      | none => false) = true := by decide
  split at hrun
  · next s h heq =>
    obtain ⟨hreturns, hcount, hlist⟩ := of_decide_eq_true hrun
    exact ⟨s, h, heq, hreturns, hcount, hlist, (conserved_of_run (Reaches.of_runAllowed .start heq)).1⟩
  · cases hrun

/-- One token and a signal of the largest `s32`: the sum wraps and the tokens are gone. -/
theorem tokens_lost : ¬∀ (initCount maxCount : Int32) (isFifo : Bool) s h,
    Reaches step (fun _ a => a.Positive) (create initCount maxCount isFifo) s h →
    s.sem.tokenCount.toInt + (ledger initCount h).granted =
      (ledger initCount h).start + (ledger initCount h).accepted ∧
    (∀ call < s.nextCall, Stage s h call) ∧
    ∀ call ∈ s.sem.waitList, ¬(s.frames call).waiter.needCount ≤ s.sem.tokenCount := by
  intro hall
  have hrun : (match runAllowed step (fun _ a => a.Positive) (create 1 0x7fffffff true) []
        [.signal 0x7fffffff] with
      | some (s, h) => decide (s.sem.tokenCount.toInt + (ledger 1 h).granted ≠
          (ledger 1 h).start + (ledger 1 h).accepted)
      | none => false) = true := by decide
  split at hrun
  · next s h heq =>
    exact of_decide_eq_true hrun (hall 1 0x7fffffff true s h (Reaches.of_runAllowed .start heq)).1
  · cases hrun

end SemState

end Kernel
