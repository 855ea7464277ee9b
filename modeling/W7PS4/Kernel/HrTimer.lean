-- SUMMARY: Adding and deleting high-resolution timers of an event queue, and when a deletion deletes the timer.
import W7PS4.Kernel.Equeue

/-!
# High-resolution timers

A timer below a threshold becomes a small timer of the queue, a longer one an event with
the filter `HrTimer`, which its callback triggers. A deletion looks for the timer among the
small ones when there are any, whatever their identifiers, and among the events otherwise.

The calls run on an existing queue together with everything else that can happen to it.
-/

namespace Kernel

inductive HrResult where
  | ok
  | ebadf
  | enomem
  | enoent
deriving DecidableEq, Repr

structure OrbisKernelTimespec where
  tvSec : Int64
  tvNsec : Int64
deriving DecidableEq, Repr

def HrTimerSpinlockThresholdNs : Int64 := 1200000

/-- The `int` of a caller as the `u64` of an event. -/
def identOf (id : Int32) : UInt64 := id.toInt64.toUInt64

def hrTimerEvent (id : Int32) (udata : UInt64) : OrbisKernelEvent :=
  ⟨identOf id, .hrTimer, Flags.Add ||| Flags.OneShot, 0, 0, udata⟩

/-- The address of this is the `data` of the event. -/
def OrbisKernelTimespec.bintime (ts : OrbisKernelTimespec) : OrbisKernelBintime :=
  ⟨ts.tvSec, ts.tvNsec * 0x44b82fa09⟩

/-- The queue is `none` when there is no such handle; both stores always take the timer. -/
def sceKernelAddHRTimerEvent (eq : Option EqueueInternal) (id : Int32) (ts : OrbisKernelTimespec)
    (udata : UInt64) (now : Nat) : HrResult × Option EqueueInternal :=
  match eq with
  | none => (.ebadf, none)
  | some equeue =>
    let totalNs := ts.tvSec * 1000000000 + ts.tvNsec
    if totalNs < HrTimerSpinlockThresholdNs then
      (.ok, some (equeue.addSmallTimer (hrTimerEvent id udata) ts.bintime now))
    else (.ok, some (equeue.addEvent (hrTimerEvent id udata) ts.bintime now))

def sceKernelDeleteHRTimerEvent (eq : Option EqueueInternal) (id : Int32) : HrResult × Option EqueueInternal :=
  match eq with
  | none => (.ebadf, none)
  | some equeue =>
    if equeue.hasSmallTimer then
      let erased := equeue.mSmallTimers.any (·.event.ident = identOf id)
      (if erased then .ok else .enoent, some (equeue.removeSmallTimer (identOf id)))
    else
      let found := equeue.eventExists (identOf id, .hrTimer)
      (if found then .ok else .enoent, some (equeue.removeEvent (identOf id, .hrTimer)))

inductive HrAction where
  | addHRTimerEvent (id : Int32) (ts : OrbisKernelTimespec) (udata : UInt64)
  | deleteHRTimerEvent (id : Int32)
  /-- Anything else that happens to the queue: waits, the callbacks of timers, other events. -/
  | queue (a : EqAction)
deriving DecidableEq, Repr

namespace EqueueState

def withQueue (s : EqueueState) (r : HrResult × Option EqueueInternal) : Option (EqueueState × List EqEvent) :=
  r.2.map fun queue => ({ s with queue := queue }, [])

def hrStep (s : EqueueState) : HrAction → Option (EqueueState × List EqEvent)
  | .addHRTimerEvent id ts udata => s.withQueue (sceKernelAddHRTimerEvent (some s.queue) id ts udata s.now)
  | .deleteHRTimerEvent id => s.withQueue (sceKernelDeleteHRTimerEvent (some s.queue) id)
  | .queue a => s.step a

end EqueueState

/-! ## Deleting a timer -/

/-- A timer with this identifier was added and has been neither returned nor deleted. -/
def EqueueInternal.Pending (q : EqueueInternal) (ident : UInt64) : Prop :=
  ident ∈ q.mSmallTimers.map (·.event.ident) ∨ (ident, Filter.hrTimer) ∈ q.mEvents.map EqueueEvent.key

instance (q : EqueueInternal) (ident : UInt64) : Decidable (q.Pending ident) :=
  inferInstanceAs (Decidable (_ ∨ _))

/-- The action may add a timer with this identifier. -/
def HrAction.Adds (ident : UInt64) : HrAction → Prop
  | .addHRTimerEvent id _ _ => identOf id = ident
  | .queue (.addEvent event _) => event.key = (ident, .hrTimer)
  | .queue (.addSmallTimer event _) => event.ident = ident
  | _ => False

/-- A call returned a timer with this identifier. -/
def EqEvent.Delivers (ident : UInt64) : EqEvent → Prop
  | .delivered e => e.key = (ident, .hrTimer)
  | .timerDelivered e _ => e.ident = ident
  | _ => False

/-- What a deletion does: it says whether the timer was pending, the timer is pending no longer and is
    not delivered in any run that does not add it again, and the other timers and events stay. -/
structure DeletesTimer (s : EqueueState) (id : Int32) (q : EqueueInternal) (result : HrResult) : Prop where
  result : result = .ok ↔ s.queue.Pending (identOf id)
  notPending : ¬q.Pending (identOf id)
  notDelivered : ∀ t h, Reaches EqueueState.hrStep (fun _ a => ¬a.Adds (identOf id)) { s with queue := q } t h →
    ¬t.queue.Pending (identOf id) ∧ ∀ x ∈ h, ¬x.Delivers (identOf id)
  otherTimers : q.mSmallTimers.filter (·.event.ident ≠ identOf id) =
    s.queue.mSmallTimers.filter (·.event.ident ≠ identOf id)
  otherEvents : q.mEvents.filter (·.key ≠ (identOf id, .hrTimer)) =
    s.queue.mEvents.filter (·.key ≠ (identOf id, .hrTimer))

/-- The call on this queue deletes the timer. -/
def EqueueState.Deletes (s : EqueueState) (id : Int32) : Prop :=
  ∃ result q, sceKernelDeleteHRTimerEvent (some s.queue) id = (result, some q) ∧ DeletesTimer s id q result

namespace EqueueState

variable {s s' : EqueueState} {h es : List EqEvent} {ident : UInt64}

/-- A look at either store finds and leaves only what is there. -/
theorem Sound.lookAt_notPending (hs : s.Sound h) (onSmallTimers : Bool) (num : Nat)
    (hnot : ¬s.queue.Pending ident) :
    ¬(s.lookAt onSmallTimers num).1.queue.Pending ident ∧
      ∀ x ∈ (s.lookAt onSmallTimers num).2, ¬x.Delivers ident := by
  obtain ⟨htimer, hevent⟩ := not_or.mp hnot
  cases onSmallTimers with
  | true =>
    obtain ⟨-, -, hsub, hout⟩ :=
      @EqueueInternal.expireLoop_delivers s.now s.queue.mSmallTimers num h hs.idents hs.timers hs.justified
    refine ⟨not_or.mpr ⟨fun hmem => htimer (hsub.subset hmem), hevent⟩, fun x hx => ?_⟩
    obtain ⟨e, he, rfl⟩ := List.mem_map.mp hx
    exact fun heq => htimer (heq ▸ hout e he)
  | false =>
    obtain ⟨-, -, hsub, hout⟩ :=
      @EqueueInternal.collectLoop_delivers _ num s.queue.mEvents 0 h hs.keys hs.backed hs.justified
    refine ⟨not_or.mpr ⟨htimer, fun hmem => hevent (hsub.subset hmem)⟩, fun x hx => ?_⟩
    obtain ⟨e, he, rfl⟩ := List.mem_map.mp hx
    exact fun heq => hevent (heq ▸ hout e he)

variable {q : EqueueInternal}

theorem pending_addEvent {event : OrbisKernelEvent} {time : OrbisKernelBintime}
    {now : Nat} (hne : event.key ≠ (ident, .hrTimer)) (hnot : ¬q.Pending ident) :
    ¬(q.addEvent event time now).Pending ident := by
  obtain ⟨htimer, hevent⟩ := not_or.mp hnot
  unfold EqueueInternal.addEvent
  split
  · refine not_or.mpr ⟨htimer, ?_⟩
    rwa [map_keys fun e => by split <;> rfl]
  refine not_or.mpr ⟨htimer, fun hmem => ?_⟩
  rw [List.map_append, List.mem_append, List.map_singleton, List.mem_singleton] at hmem
  exact hmem.elim hevent fun heq => hne heq.symm

theorem pending_addSmallTimer {event : OrbisKernelEvent} {time : OrbisKernelBintime}
    {now : Nat} (hne : event.ident ≠ ident) (hnot : ¬q.Pending ident) :
    ¬(q.addSmallTimer event time now).Pending ident := by
  obtain ⟨htimer, hevent⟩ := not_or.mp hnot
  unfold EqueueInternal.addSmallTimer
  dsimp only
  split
  · refine not_or.mpr ⟨fun hmem => ?_, hevent⟩
    obtain ⟨t, ht, heq⟩ := List.mem_map.mp hmem
    obtain ⟨t', ht', rfl⟩ := List.mem_map.mp ht
    split at heq
    · exact hne heq
    · exact htimer (List.mem_map.mpr ⟨t', ht', heq⟩)
  · refine not_or.mpr ⟨fun hmem => ?_, hevent⟩
    exact (List.mem_cons.mp hmem).elim (fun heq => hne heq.symm) htimer

theorem pending_removeEvent {key : UInt64 × Filter} (hnot : ¬q.Pending ident) :
    ¬(q.removeEvent key).Pending ident := by
  obtain ⟨htimer, hevent⟩ := not_or.mp hnot
  have hsub : (q.mEvents.eraseP (·.key = key)).Sublist q.mEvents := List.eraseP_sublist
  exact not_or.mpr ⟨htimer, fun hmem => hevent ((hsub.map _).subset hmem)⟩

theorem pending_removeSmallTimer {id : UInt64} (hnot : ¬q.Pending ident) :
    ¬(q.removeSmallTimer id).Pending ident := by
  obtain ⟨htimer, hevent⟩ := not_or.mp hnot
  have hsub : (q.mSmallTimers.filter (·.event.ident ≠ id)).Sublist q.mSmallTimers := List.filter_sublist
  exact not_or.mpr ⟨fun hmem => htimer ((hsub.map _).subset hmem), hevent⟩

theorem pending_triggerEvent {key : UInt64 × Filter} {data time : UInt64} (hnot : ¬q.Pending ident) :
    ¬(q.triggerEvent key data time).Pending ident := by
  have hkeys : (q.triggerEvent key data time).mEvents.map EqueueEvent.key = q.mEvents.map EqueueEvent.key := by
    refine map_keys fun e => ?_
    split
    · exact (triggerBy_spec e ..).1
    · rfl
  unfold EqueueInternal.Pending
  rw [hkeys]
  exact hnot

/-- Without an action that adds it, a timer neither becomes pending nor is returned. -/
theorem Sound.step_notPending (hs : s.Sound h) {a : EqAction} (hadds : ¬(HrAction.queue a).Adds ident)
    (hnot : ¬s.queue.Pending ident) (hstep : s.step a = some (s', es)) :
    ¬s'.queue.Pending ident ∧ ∀ x ∈ es, ¬x.Delivers ident := by
  have hsingle : ∀ e : EqEvent, ¬e.Delivers ident → ∀ x ∈ [e], ¬x.Delivers ident := by
    intro e he x hx
    rwa [List.mem_singleton.mp hx]
  have hmarked : ∀ (c : Bool) (e : EqEvent), ¬e.Delivers ident →
      (∀ x ∈ if c then [] else [e], ¬x.Delivers ident) ∧ ∀ x ∈ if c then [e] else [], ¬x.Delivers ident := by
    intro c e he
    cases c
    · exact ⟨hsingle e he, nofun⟩
    · exact ⟨nofun, hsingle e he⟩
  cases hs.does hstep with
  | passed | began | slept => exact ⟨hnot, nofun⟩
  | addedEvent => exact ⟨pending_addEvent hadds hnot, (hmarked _ (.added _) not_false).1⟩
  | removedEvent => exact ⟨pending_removeEvent hnot, (hmarked _ (.removed _) not_false).2⟩
  | triggeredEvent => exact ⟨pending_triggerEvent hnot, (hmarked _ (.triggered _) not_false).2⟩
  | addedTimer => exact ⟨pending_addSmallTimer hadds hnot, hsingle _ not_false⟩
  | removedTimer => exact ⟨pending_removeSmallTimer hnot, hsingle _ not_false⟩
  | rehashed perm =>
    refine ⟨fun hpending => hnot ?_, nofun⟩
    exact hpending.imp_left (perm.map _).mem_iff.mp
  | pollMissed | timedOut => exact ⟨hnot, hsingle _ not_false⟩
  | polled => exact hs.lookAt_notPending false _ hnot
  | returned => exact hs.lookAt_notPending _ _ hnot

/-- The calls on timers change a queue as its own operations do. -/
theorem sceKernelAddHRTimerEvent_eq (q : EqueueInternal) (id : Int32) (ts : OrbisKernelTimespec)
    (udata : UInt64) (now : Nat) :
    sceKernelAddHRTimerEvent (some q) id ts udata now =
        (.ok, some (q.addSmallTimer (hrTimerEvent id udata) ts.bintime now)) ∨
      sceKernelAddHRTimerEvent (some q) id ts udata now =
        (.ok, some (q.addEvent (hrTimerEvent id udata) ts.bintime now)) := by
  simp only [sceKernelAddHRTimerEvent]
  split
  · exact .inl rfl
  · exact .inr rfl

theorem sceKernelDeleteHRTimerEvent_eq (q : EqueueInternal) (id : Int32) :
    ∃ result, sceKernelDeleteHRTimerEvent (some q) id =
      (result, some (if q.hasSmallTimer then q.removeSmallTimer (identOf id)
        else q.removeEvent (identOf id, .hrTimer))) := by
  simp only [sceKernelDeleteHRTimerEvent]
  split
  · exact ⟨_, rfl⟩
  · exact ⟨_, rfl⟩

/-- Every step of the larger system is sound with regard to some history. -/
theorem Sound.hrStep (hs : s.Sound h) {a : HrAction} (hstep : s.hrStep a = some (s', es)) :
    ∃ h', s'.Sound h' := by
  cases a with
  | addHRTimerEvent id ts udata =>
    simp only [EqueueState.hrStep] at hstep
    obtain heq | heq := sceKernelAddHRTimerEvent_eq s.queue id ts udata s.now
    · rw [heq] at hstep
      cases hstep
      exact ⟨_, hs.addSmallTimer⟩
    · rw [heq] at hstep
      cases hstep
      exact ⟨_, hs.addEvent⟩
  | deleteHRTimerEvent id =>
    simp only [EqueueState.hrStep] at hstep
    obtain ⟨result, heq⟩ := sceKernelDeleteHRTimerEvent_eq s.queue id
    rw [heq] at hstep
    cases hstep
    split
    · exact ⟨_, hs.removeSmallTimer⟩
    · exact ⟨_, hs.removeEvent⟩
  | queue a => exact ⟨_, hs.step hstep⟩

theorem Sound.hrStep_notPending (hs : s.Sound h) {a : HrAction} (hadds : ¬a.Adds ident)
    (hnot : ¬s.queue.Pending ident) (hstep : s.hrStep a = some (s', es)) :
    ¬s'.queue.Pending ident ∧ ∀ x ∈ es, ¬x.Delivers ident := by
  cases a with
  | addHRTimerEvent id ts udata =>
    simp only [EqueueState.hrStep] at hstep
    obtain heq | heq := sceKernelAddHRTimerEvent_eq s.queue id ts udata s.now
    · rw [heq] at hstep
      cases hstep
      exact ⟨pending_addSmallTimer hadds hnot, by simp⟩
    · rw [heq] at hstep
      cases hstep
      exact ⟨pending_addEvent (fun hkey => hadds (congrArg Prod.fst hkey)) hnot, by simp⟩
  | deleteHRTimerEvent id =>
    simp only [EqueueState.hrStep] at hstep
    obtain ⟨result, heq⟩ := sceKernelDeleteHRTimerEvent_eq s.queue id
    rw [heq] at hstep
    cases hstep
    refine ⟨?_, by simp⟩
    simp only
    split
    · exact pending_removeSmallTimer hnot
    · exact pending_removeEvent hnot
  | queue a => exact hs.step_notPending hadds hnot hstep

/-- The same over a run. -/
theorem Sound.hrRun_notPending (hs : s.Sound h) (hnot : ¬s.queue.Pending ident) {t : EqueueState}
    {k : List EqEvent} (hreach : Reaches EqueueState.hrStep (fun _ a => ¬a.Adds ident) s t k) :
    ¬t.queue.Pending ident ∧ ∀ x ∈ k, ¬x.Delivers ident := by
  have hinv : (∃ h, t.Sound h) ∧ ¬t.queue.Pending ident ∧ ∀ x ∈ k, ¬x.Delivers ident := by
    refine hreach.invariant
      (P := fun t k => (∃ h, t.Sound h) ∧ ¬t.queue.Pending ident ∧ ∀ x ∈ k, ¬x.Delivers ident)
      ⟨⟨h, hs⟩, hnot, by simp⟩ ?_
    intro t k a t' es ht hadds hstep
    obtain ⟨⟨h, hs⟩, hnot, hk⟩ := ht
    obtain ⟨hnot', hes⟩ := hs.hrStep_notPending hadds hnot hstep
    refine ⟨hs.hrStep hstep, hnot', fun x hx => ?_⟩
    exact (List.mem_append.mp hx).elim (hk x) (hes x)
  exact hinv.2

theorem hrReaches_sound (hreach : Reaches EqueueState.hrStep (fun _ _ => True) create s h) : ∃ h', s.Sound h' := by
  refine hreach.invariant (P := fun s _ => ∃ h', s.Sound h') ⟨[], sound_create⟩ ?_
  intro s h a s' es hs _ hstep
  exact hs.elim fun h' hs => hs.hrStep hstep

theorem filter_eraseP {α : Type} (p : α → Bool) (l : List α) :
    (l.eraseP p).filter (fun a => !p a) = l.filter (fun a => !p a) := by
  induction l with
  | nil => rfl
  | cons a l ih =>
    by_cases ha : p a = true
    · rw [List.eraseP_cons_of_pos ha, List.filter_cons_of_neg (by simp [ha])]
    · rw [List.eraseP_cons_of_neg ha, List.filter_cons_of_pos (by simp [ha]),
        List.filter_cons_of_pos (by simp [ha]), ih]

theorem mem_idents_iff {id : UInt64} :
    id ∈ q.mSmallTimers.map (·.event.ident) ↔ q.mSmallTimers.any (·.event.ident = id) = true := by
  simp

theorem Sound.deletesTimer_small (hs : s.Sound h) (id : Int32)
    (hno : s.queue.eventExists (identOf id, .hrTimer) = false) :
    DeletesTimer s id (s.queue.removeSmallTimer (identOf id))
      (if s.queue.mSmallTimers.any (·.event.ident = identOf id) then .ok else .enoent) := by
  have hevent : (identOf id, Filter.hrTimer) ∉ s.queue.mEvents.map EqueueEvent.key := by
    rw [← EqueueInternal.eventExists_iff, hno]
    exact Bool.false_ne_true
  have hnot : ¬(s.queue.removeSmallTimer (identOf id)).Pending (identOf id) := by
    refine not_or.mpr ⟨fun hmem => ?_, hevent⟩
    obtain ⟨t, ht, heq⟩ := List.mem_map.mp hmem
    exact of_decide_eq_true (List.mem_filter.mp ht).2 heq
  refine ⟨?_, hnot, fun t k hreach => hs.removeSmallTimer.hrRun_notPending hnot hreach, ?_, rfl⟩
  · unfold EqueueInternal.Pending
    rw [mem_idents_iff, or_iff_left hevent]
    split <;> simp_all
  · simp [EqueueInternal.removeSmallTimer]

theorem Sound.deletesTimer_event (hs : s.Sound h) (id : Int32) (hsmall : s.queue.hasSmallTimer = false) :
    DeletesTimer s id (s.queue.removeEvent (identOf id, .hrTimer))
      (if s.queue.eventExists (identOf id, .hrTimer) then .ok else .enoent) := by
  have hnone : s.queue.mSmallTimers = [] := by simpa [EqueueInternal.hasSmallTimer] using hsmall
  have htimer : identOf id ∉ s.queue.mSmallTimers.map (·.event.ident) := by simp [hnone]
  have hnot : ¬(s.queue.removeEvent (identOf id, .hrTimer)).Pending (identOf id) := by
    refine not_or.mpr ⟨htimer, fun hmem => ?_⟩
    obtain ⟨e, he, heq⟩ := List.mem_map.mp hmem
    exact notMem_of_eraseP hs.keys e he heq
  refine ⟨?_, hnot, fun t k hreach => hs.removeEvent.hrRun_notPending hnot hreach, rfl, ?_⟩
  · unfold EqueueInternal.Pending
    rw [← EqueueInternal.eventExists_iff, or_iff_right htimer]
    split <;> simp_all
  · have hfilter := filter_eraseP (fun e : EqueueEvent => decide (e.key = (identOf id, .hrTimer))) s.queue.mEvents
    simpa [EqueueInternal.removeEvent] using hfilter

theorem Sound.deletes_iff (hs : s.Sound h) (id : Int32) :
    s.Deletes id ↔
      (s.queue.hasSmallTimer = true → s.queue.eventExists (identOf id, .hrTimer) = false) := by
  by_cases hsmall : s.queue.hasSmallTimer = true
  · have hcall : sceKernelDeleteHRTimerEvent (some s.queue) id =
        (if s.queue.mSmallTimers.any (·.event.ident = identOf id) then .ok else .enoent,
          some (s.queue.removeSmallTimer (identOf id))) := by
      simp only [sceKernelDeleteHRTimerEvent, hsmall, if_true]
    constructor
    · intro hdeletes _
      obtain ⟨result, q, heq, hdeletes⟩ := hdeletes
      obtain rfl := Option.some.inj (Prod.mk.inj (hcall.symm.trans heq)).2
      -- the event stays where it was
      rw [Bool.eq_false_iff, ne_eq, EqueueInternal.eventExists_iff]
      exact fun hmem => hdeletes.notPending (.inr hmem)
    · intro hno
      exact ⟨_, _, hcall, hs.deletesTimer_small id (hno hsmall)⟩
  · have hsmall : s.queue.hasSmallTimer = false := by simpa using hsmall
    have hcall : sceKernelDeleteHRTimerEvent (some s.queue) id =
        (if s.queue.eventExists (identOf id, .hrTimer) then .ok else .enoent,
          some (s.queue.removeEvent (identOf id, .hrTimer))) := by
      simp only [sceKernelDeleteHRTimerEvent, hsmall, Bool.false_eq_true, if_false]
    refine iff_of_true ⟨_, _, hcall, hs.deletesTimer_event id hsmall⟩ fun h => ?_
    rw [hsmall] at h
    cases h

/-- On every queue that can come about, a deletion deletes the timer exactly when there is no small timer
    or the timer is not among the events. -/
theorem deleteHRTimer_iff (hreach : Reaches EqueueState.hrStep (fun _ _ => True) create s h) (id : Int32) :
    s.Deletes id ↔
      (s.queue.hasSmallTimer = true → s.queue.eventExists (identOf id, .hrTimer) = false) :=
  (hrReaches_sound hreach).elim fun _ hs => hs.deletes_iff id

def tenMilliseconds : OrbisKernelTimespec := ⟨0, 10000000⟩

def tenthOfMillisecond : OrbisKernelTimespec := ⟨0, 100000⟩

/-- A short timer is deleted beside a long one of another identifier. -/
theorem deleteHRTimer_short : ∃ s h, Reaches EqueueState.hrStep (fun _ _ => True) create s h ∧
    s.queue.Pending (identOf 1) ∧ s.Deletes 2 := by
  obtain ⟨s, h, hreach, hstate⟩ := Reaches.exists_of_runAllowed EqueueState.hrStep (fun _ _ => True) create
    [.addHRTimerEvent 1 tenMilliseconds 0, .addHRTimerEvent 2 tenthOfMillisecond 0]
    (fun s _ => s.queue.Pending (identOf 1) ∧ s.queue.eventExists (identOf 2, .hrTimer) = false) (by decide)
  obtain ⟨hpending, hno⟩ := of_decide_eq_true hstate
  exact ⟨s, h, hreach, hpending, (deleteHRTimer_iff hreach 2).mpr fun _ => hno⟩

/-- A long timer is not found while a short one is set. -/
theorem deleteHRTimer_misses : ¬∀ (s : EqueueState) (h : List EqEvent),
    Reaches EqueueState.hrStep (fun _ _ => True) create s h → ∀ id, s.Deletes id := by
  intro hall
  obtain ⟨s, h, hreach, hstate⟩ := Reaches.exists_of_runAllowed EqueueState.hrStep (fun _ _ => True) create
    [.addHRTimerEvent 1 tenMilliseconds 0, .addHRTimerEvent 2 tenthOfMillisecond 0]
    (fun s _ => s.queue.Pending (identOf 1) ∧ (sceKernelDeleteHRTimerEvent (some s.queue) 1).1 = .enoent)
    (by decide)
  obtain ⟨hpending, hresult⟩ := of_decide_eq_true hstate
  obtain ⟨result, q, heq, hdeletes⟩ := hall s h hreach 1
  have hok := hdeletes.result.mpr hpending
  rw [heq, hok] at hresult
  cases hresult

end EqueueState

end Kernel
