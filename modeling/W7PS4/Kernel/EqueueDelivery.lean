-- SUMMARY: When the calls that wait on an event queue miss nothing in the store they do not look at.
import W7PS4.Kernel.Equeue

/-!
# What a waiting call misses

A poll and a wait on the condition variable look only at the events, a wait that begins while
there is a small timer looks only at the small timers. Such a call returns 0 whatever the
other store holds. It misses nothing if the other store has nothing for it when it begins
and gets nothing until it returns, which is a matter of the calls made in between: only
`TriggerEvent` makes an event ready, only `AddSmallTimer` adds a small timer.
-/

namespace Kernel

open List (mem_singleton)

/-! ## The other store -/

/-- The store that a call does not look at has nothing for it, however much time passes. -/
def EqueueInternal.Quiet (q : EqueueInternal) (onSmallTimers : Bool) : Prop :=
  if onSmallTimers then ∀ e ∈ q.mEvents, e.isTriggered = false else q.mSmallTimers = []

namespace EqueueInternal

variable {q : EqueueInternal} {onSmallTimers : Bool}

theorem Quiet.events (hquiet : q.Quiet onSmallTimers) {mEvents : List EqueueEvent}
    (hnone : (∀ e ∈ q.mEvents, e.isTriggered = false) → ∀ e ∈ mEvents, e.isTriggered = false) :
    Quiet { q with mEvents := mEvents } onSmallTimers := by
  cases onSmallTimers with
  | true => exact hnone hquiet
  | false => exact hquiet

theorem Quiet.timers (hquiet : q.Quiet onSmallTimers) {mSmallTimers : List SmallTimer}
    (hnone : q.mSmallTimers = [] → mSmallTimers = []) :
    Quiet { q with mSmallTimers := mSmallTimers } onSmallTimers := by
  cases onSmallTimers with
  | true => exact hquiet
  | false => exact hnone hquiet

theorem Quiet.addEvent (hquiet : q.Quiet onSmallTimers) {event : OrbisKernelEvent}
    {time : OrbisKernelBintime} {now : Nat} : (q.addEvent event time now).Quiet onSmallTimers := by
  unfold EqueueInternal.addEvent
  split
  · refine hquiet.events fun hnone e he => ?_
    obtain ⟨e', he', rfl⟩ := List.mem_map.mp he
    split
    · exact hnone e' he'
    · exact hnone e' he'
  · refine hquiet.events fun hnone e he => ?_
    cases List.mem_append.mp he with
    | inl hmem => exact hnone e hmem
    | inr hmem =>
      rw [mem_singleton.mp hmem]
      rfl

theorem Quiet.removeEvent (hquiet : q.Quiet onSmallTimers) {key : UInt64 × Filter} :
    (q.removeEvent key).Quiet onSmallTimers :=
  hquiet.events fun hnone e he => hnone e (List.eraseP_sublist.subset he)

/-- Only an event that is there can be triggered. -/
theorem triggerEvent_eq {key : UInt64 × Filter} (hno : q.eventExists key = false) (data time : UInt64) :
    q.triggerEvent key data time = q := by
  have hnone : ∀ e ∈ q.mEvents, e.key ≠ key := fun e he heq => by
    have hexists : q.eventExists key = true := eventExists_iff.mpr (heq ▸ List.mem_map_of_mem he)
    rw [hno] at hexists
    cases hexists
  unfold EqueueInternal.triggerEvent
  rw [List.map_congr_left fun e he => if_neg (hnone e he), List.map_id']

end EqueueInternal

namespace EqueueState

variable {s s' : EqueueState} {h es : List EqEvent} {a : EqAction} {onSmallTimers : Bool}

theorem ready_of_quiet (hquiet : s.queue.Quiet onSmallTimers) : s.ready (!onSmallTimers) = false := by
  cases onSmallTimers with
  | true => simpa [EqueueInternal.Quiet, ready, anyTriggered] using hquiet
  | false =>
    have hnone : s.queue.mSmallTimers = [] := hquiet
    simp [ready, anyExpired, hnone]

/-- A look finds nothing new in either store. -/
theorem quiet_lookAt (hquiet : s.queue.Quiet onSmallTimers) (b : Bool) (num : Nat) :
    (s.lookAt b num).1.queue.Quiet onSmallTimers := by
  cases b with
  | true =>
    refine hquiet.timers fun hnone => ?_
    rw [hnone]
    rfl
  | false =>
    refine hquiet.events fun hnone => ?_
    rw [EqueueInternal.collectLoop_of_not_triggered hnone]
    exact hnone

/-! ## Keeping the stores apart -/

/-- A call with a time limit waits for the small timers, or for the events. -/
def awaits (s : EqueueState) (onSmallTimers : Bool) : Bool :=
  (List.range s.nextCall).any fun call =>
    (s.waits call).any fun w => w.deadline.isSome && w.onSmallTimers == onSmallTimers

/-- What the callers must see to. No poll while there is a small timer. A wait with a time limit that
    begins while there is one begins while no event is triggered, and none is triggered while it waits;
    no small timer is added while another wait with a time limit goes on, and its time fits. -/
def KeepsApart (s : EqueueState) : EqAction → Prop
  | .poll _ => s.queue.hasSmallTimer = false
  | .wait _ micros => micros.isSome = true → s.queue.hasSmallTimer = true → s.anyTriggered = false
  | .triggerEvent key _ _ => s.queue.eventExists key = true → s.awaits true = false
  | .addSmallTimer _ time => time.Fits ∧ s.awaits false = false
  | _ => True

instance (s : EqueueState) : DecidablePred s.KeepsApart
  | .poll _ => inferInstanceAs (Decidable (s.queue.hasSmallTimer = false))
  | .wait _ micros => inferInstanceAs (Decidable (micros.isSome = true → s.queue.hasSmallTimer = true →
      s.anyTriggered = false))
  | .triggerEvent key _ _ => inferInstanceAs (Decidable (s.queue.eventExists key = true → s.awaits true = false))
  | .addSmallTimer _ time => inferInstanceAs (Decidable (time.Fits ∧ s.awaits false = false))
  | .pass _ | .addEvent .. | .removeEvent _ | .removeSmallTimer _ | .rehash _ | .look _ =>
    inferInstanceAs (Decidable True)

/-- Every call with a time limit finds the other store quiet. -/
structure Apart (s : EqueueState) : Prop where
  known : ∀ call w, s.waits call = some w → call < s.nextCall
  quiet : ∀ call w, s.waits call = some w → w.deadline.isSome = true → s.queue.Quiet w.onSmallTimers

theorem apart_create : create.Apart := ⟨nofun, nofun⟩

theorem Apart.awaits (hs : s.Apart) {call : Nat} {w : WaitCall} (hw : s.waits call = some w)
    (hlimit : w.deadline.isSome = true) : s.awaits w.onSmallTimers = true := by
  refine List.any_eq_true.mpr ⟨call, List.mem_range.mpr (hs.known call w hw), ?_⟩
  simp [hw, hlimit]

/-- While a call waits, the other store stays quiet. -/
theorem quiet_of_does (hquiet : s.queue.Quiet onSmallTimers) (hawaits : s.awaits onSmallTimers = true)
    (hkeeps : s.KeepsApart a) (hdoes : s.Does a s' es) : s'.queue.Quiet onSmallTimers := by
  cases hdoes with
  | passed | pollMissed | began | timedOut | slept => exact hquiet
  | addedEvent => exact hquiet.addEvent
  | removedEvent => exact hquiet.removeEvent
  | @triggeredEvent key data time =>
    by_cases hexists : s.queue.eventExists key = true
    · cases onSmallTimers with
      | true =>
        -- not while a call waits for the small timers
        rw [hkeeps hexists] at hawaits
        cases hawaits
      | false => exact hquiet
    · rw [EqueueInternal.triggerEvent_eq (by simpa using hexists)]
      exact hquiet
  | addedTimer =>
    cases onSmallTimers with
    | true =>
      unfold EqueueInternal.addSmallTimer
      dsimp only
      split
      · exact hquiet
      · exact hquiet
    | false =>
      rw [hkeeps.2] at hawaits
      cases hawaits
  | removedTimer =>
    refine hquiet.timers fun hnone => ?_
    rw [hnone]
    rfl
  | rehashed perm => exact hquiet.timers fun hnone => List.perm_nil.mp (hnone ▸ perm)
  | polled => exact quiet_lookAt hquiet false _
  | returned => exact quiet_lookAt hquiet _ _

/-- The calls that wait after a step: those from before, and the one that begins with the step. -/
structure BeginsOnly (s : EqueueState) (a : EqAction) (s' : EqueueState) : Prop where
  next : s.nextCall ≤ s'.nextCall
  waits : ∀ call w, s'.waits call = some w → s.waits call = some w ∨
    call < s'.nextCall ∧ s'.queue = s.queue ∧
      ∃ num micros, a = .wait num micros ∧ w.onSmallTimers = s.queue.hasSmallTimer ∧
        w.deadline.isSome = micros.isSome

theorem beginsOnly_of_same (hwaits : s'.waits = s.waits) (hnext : s'.nextCall = s.nextCall) :
    s.BeginsOnly a s' :=
  ⟨hnext.ge, fun _ _ hw => .inl (hwaits ▸ hw)⟩

theorem lookAt_waits (s : EqueueState) (b : Bool) (num : Nat) :
    (s.lookAt b num).1.waits = s.waits ∧ (s.lookAt b num).1.nextCall = s.nextCall := by
  cases b
  · exact ⟨rfl, rfl⟩
  · exact ⟨rfl, rfl⟩

theorem beginsOnly_of_does (hdoes : s.Does a s' es) : s.BeginsOnly a s' := by
  -- a call that returns leaves the others
  have hleft : ∀ (call c : Nat) v, Function.update s.waits call none c = some v → s.waits c = some v := by
    intro call c v hv
    by_cases hc : c = call
    · rw [hc, Function.update_self] at hv
      cases hv
    · rwa [Function.update_of_ne hc] at hv
  cases hdoes with
  | passed | addedEvent | removedEvent | triggeredEvent | addedTimer | removedTimer | rehashed
  | pollMissed | slept => exact beginsOnly_of_same rfl rfl
  | polled =>
    obtain ⟨hwaits, hnext⟩ := lookAt_waits s false _
    exact beginsOnly_of_same hwaits hnext
  | @began num micros w room stores limit =>
    refine ⟨Nat.le_succ _, fun call v hv => ?_⟩
    simp only at hv
    by_cases hcall : call = s.nextCall
    · rw [hcall, Function.update_self] at hv
      cases hv
      exact .inr ⟨by simp [hcall], rfl, num, micros, rfl, stores, limit⟩
    · rw [Function.update_of_ne hcall] at hv
      exact .inl hv
  | @returned call w =>
    obtain ⟨hwaits, hnext⟩ := lookAt_waits s w.onSmallTimers w.num
    refine ⟨hnext.ge, fun c v hv => .inl (hleft call c v ?_)⟩
    rw [← hwaits]
    exact hv
  | timedOut => exact ⟨Nat.le_refl _, fun c v hv => .inl (hleft _ c v hv)⟩

theorem Apart.step (hs : s.Apart) (hkeeps : s.KeepsApart a) (hdoes : s.Does a s' es) : s'.Apart := by
  obtain ⟨hnext, hwaits⟩ := beginsOnly_of_does hdoes
  constructor
  · intro call w hw
    cases hwaits call w hw with
    | inl hold => exact (hs.known call w hold).trans_le hnext
    | inr hnew => exact hnew.1
  · intro call w hw hlimit
    cases hwaits call w hw with
    | inl hold => exact quiet_of_does (hs.quiet call w hold hlimit) (hs.awaits hold hlimit) hkeeps hdoes
    | inr hnew =>
      obtain ⟨-, hqueue, num, micros, rfl, hon, hmicros⟩ := hnew
      rw [hqueue, hon]
      cases hsmall : s.queue.hasSmallTimer with
      | true => simpa [EqueueInternal.Quiet, anyTriggered] using hkeeps (hmicros ▸ hlimit) hsmall
      | false => simpa [EqueueInternal.Quiet, EqueueInternal.hasSmallTimer] using hsmall

/-! ## Returning 0 -/

/-- No call returned 0 while an event was triggered or a small timer had expired. -/
def NothingMissed (h : List EqEvent) : Prop :=
  ∀ triggered expired, .foundNothing triggered expired ∈ h → triggered = false ∧ expired = false

/-- A call that returns 0 has found nothing in the store it looks at. -/
theorem foundNothing_of_does (hdoes : s.Does a s' es) {triggered expired : Bool}
    (hmem : .foundNothing triggered expired ∈ es) :
    .foundNothing triggered expired = s.nothing ∧ ∃ onSmallTimers, s.ready onSmallTimers = false ∧
      ((onSmallTimers = false ∧ ∃ num, a = .poll num) ∨
        ∃ call w, s.waits call = some w ∧ w.onSmallTimers = onSmallTimers ∧ w.deadline.isSome = true) := by
  have hlook : ∀ (b : Bool) (num : Nat), .foundNothing triggered expired ∉ (s.lookAt b num).2 := by
    intro b num
    cases b <;> simp [lookAt]
  cases hdoes with
  | passed | rehashed | began | slept => cases hmem
  | addedTimer | removedTimer => simp at hmem
  | addedEvent | removedEvent | triggeredEvent => split at hmem <;> simp at hmem
  | polled | returned => exact absurd hmem (hlook _ _)
  | pollMissed idle => exact ⟨mem_singleton.mp hmem, false, idle, .inl ⟨rfl, _, rfl⟩⟩
  | @timedOut call w waiting idle due =>
    refine ⟨mem_singleton.mp hmem, w.onSmallTimers, idle, .inr ⟨call, w, waiting, rfl, ?_⟩⟩
    exact Option.isSome_of_any due

theorem nothingMissed_of_does (hapart : s.Apart) (hkeeps : s.KeepsApart a) (hdoes : s.Does a s' es) :
    NothingMissed es := by
  intro triggered expired hmem
  obtain ⟨heq, onSmallTimers, hready, hlooks⟩ := foundNothing_of_does hdoes hmem
  -- the store the call does not look at is quiet
  have hother : s.ready (!onSmallTimers) = false := by
    obtain ⟨rfl, num, rfl⟩ | ⟨call, w, hw, rfl, hlimit⟩ := hlooks
    · have hnone : s.queue.hasSmallTimer = false := hkeeps
      have hquiet : s.queue.Quiet false := by
        simpa [EqueueInternal.Quiet, EqueueInternal.hasSmallTimer] using hnone
      exact ready_of_quiet hquiet
    · exact ready_of_quiet (hapart.quiet call w hw hlimit)
  rw [EqueueState.nothing, EqEvent.foundNothing.injEq] at heq
  rw [heq.1, heq.2]
  cases onSmallTimers with
  | true => exact ⟨hother, hready⟩
  | false => exact ⟨hready, hother⟩

/-! ## Runs -/

/-- Small timers are added with times that fit. -/
def TimesFit (h : List EqEvent) : Prop := ∀ e added time, .timerAdded e added time ∈ h → time.Fits

theorem timesFit_of_does (hkeeps : s.KeepsApart a) (hdoes : s.Does a s' es) : TimesFit es := by
  intro e added time hmem
  have hlook : ∀ (b : Bool) (num : Nat), .timerAdded e added time ∉ (s.lookAt b num).2 := by
    intro b num
    cases b <;> simp [lookAt]
  cases hdoes with
  | passed | rehashed | began | slept => cases hmem
  | addedTimer =>
    rw [mem_singleton, EqEvent.timerAdded.injEq] at hmem
    exact hmem.2.2 ▸ hkeeps.1
  | addedEvent | removedEvent | triggeredEvent => split at hmem <;> simp at hmem
  | removedTimer => simp at hmem
  | pollMissed | timedOut => simp [EqueueState.nothing] at hmem
  | polled | returned => exact absurd hmem (hlook _ _)

/-- In every run whose callers keep the stores apart: no two stored events share their key; every
    delivery is justified, that of a small timer by the time it was added for; a stored timer is
    one that was added, with its exact interval; and no call returns 0 while there is something to
    deliver. -/
theorem delivers_of_run (hreach : Reaches EqueueState.step KeepsApart create s h) :
    (s.queue.mEvents.map EqueueEvent.key).Nodup ∧ AllJustified OrbisKernelBintime.exactNanoseconds h ∧
    (∀ st ∈ s.queue.mSmallTimers, ∃ time, TimerSet st.event st.added time h ∧
      st.interval.toInt = time.exactNanoseconds) ∧
    NothingMissed h := by
  have hinv : s.Sound h ∧ s.Apart ∧ TimesFit h ∧ NothingMissed h := by
    refine hreach.invariant (P := fun s h => s.Sound h ∧ s.Apart ∧ TimesFit h ∧ NothingMissed h)
      ⟨sound_create, apart_create, nofun, nofun⟩ ?_
    intro s h a s' es hinv hkeeps hstep
    obtain ⟨hs, hapart, hfit, hnothing⟩ := hinv
    have hdoes := hs.does hstep
    refine ⟨hs.step hstep, hapart.step hkeeps hdoes, fun e added time hmem => ?_,
      fun triggered expired hmem => ?_⟩
    · exact (List.mem_append.mp hmem).elim (hfit e added time) (timesFit_of_does hkeeps hdoes e added time)
    · exact (List.mem_append.mp hmem).elim (hnothing triggered expired)
        (nothingMissed_of_does hapart hkeeps hdoes triggered expired)
  obtain ⟨hs, -, hfit, hnothing⟩ := hinv
  refine ⟨hs.keys, hs.justified.congr fun e added time hmem => ?_, fun st hst => ?_, hnothing⟩
  · exact (OrbisKernelBintime.toInt_nanoseconds (hfit e added time hmem)).symm
  · obtain ⟨time, hset, hinterval⟩ := hs.timers st hst
    refine ⟨time, hset, hinterval.trans ?_⟩
    exact OrbisKernelBintime.toInt_nanoseconds (hfit _ _ _ hset.mem)

/-- A user event that is cleared when it is returned. -/
def userEvent : OrbisKernelEvent := ⟨7, .user, Flags.Add ||| Flags.Clear, 0, 0, 0⟩

/-- A timer of 100 microseconds. -/
def shortTimer : OrbisKernelEvent := ⟨3, .hrTimer, Flags.Add ||| Flags.OneShot, 0, 0, 0⟩

def hundredMicroseconds : OrbisKernelBintime := ⟨0, 1844674407370955⟩

/-- A call waits for the event, then one for the timer, which misses nothing when its time is up
    before the timer's; the timer is delivered to a third. -/
def waitsInTurn : List EqAction :=
  [.addEvent userEvent ⟨0, 0⟩, .wait 4 (some 50), .look 0, .triggerEvent (7, .user) 1 0, .look 0,
    .addSmallTimer shortTimer hundredMicroseconds, .wait 4 (some 50), .pass 60000, .look 1,
    .wait 4 (some 500), .pass 60000, .look 2, .triggerEvent (7, .user) 2 0, .poll 4, .poll 4]

theorem delivers_userEvent : ∃ s h,
    runAllowed EqueueState.step KeepsApart create [] waitsInTurn = some (s, h) ∧ h.length = 9 ∧
    .foundNothing false false ∈ h ∧ .timerDelivered shortTimer 120000 ∈ h ∧
    AllJustified OrbisKernelBintime.exactNanoseconds h ∧ NothingMissed h := by
  have hrun : (match runAllowed EqueueState.step KeepsApart create [] waitsInTurn with
      | some (_, h) => decide (h.length = 9 ∧ .foundNothing false false ∈ h ∧
          .timerDelivered shortTimer 120000 ∈ h)
      | none => false) = true := by decide
  split at hrun
  · next s h heq =>
    obtain ⟨hlength, hnothing, hdelivered⟩ := of_decide_eq_true hrun
    obtain ⟨-, hjustified, -, hmissed⟩ := delivers_of_run (Reaches.of_runAllowed .start heq)
    exact ⟨s, h, heq, hlength, hnothing, hdelivered, hjustified, hmissed⟩
  · cases hrun

/-- A poll does not see a small timer that has expired. -/
theorem poll_misses_timer : ¬∀ s h, Reaches EqueueState.step (fun _ _ => True) create s h →
    (s.queue.mEvents.map EqueueEvent.key).Nodup ∧ AllJustified OrbisKernelBintime.exactNanoseconds h ∧
      NothingMissed h := by
  intro hall
  have hrun : (match runAllowed EqueueState.step (fun _ _ => True) create []
        [.addSmallTimer shortTimer hundredMicroseconds, .pass 200000, .poll 4] with
      | some (_, h) => decide (.foundNothing false true ∈ h)
      | none => false) = true := by decide
  split at hrun
  · next s h heq =>
    have hmissed := (hall s h (Reaches.of_runAllowed .start heq)).2.2 false true (of_decide_eq_true hrun)
    exact absurd hmissed.2 (by decide)
  · cases hrun

end EqueueState

end Kernel
