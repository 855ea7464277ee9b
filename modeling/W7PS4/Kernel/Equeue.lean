-- SUMMARY: Event queues: events that are triggered, small timers that expire, and the three ways of waiting for them.
import W7PS4.Lib.Reaches
import Mathlib

/-!
# Event queues

`EqueueInternal` has two stores. `m_events` holds registered events, at most one for
each identifier and filter; others trigger them and a waiting call collects them.
`m_small_timers` holds short timers, which nobody triggers: a waiting call compares the
clock. A poll and a wait on the condition variable look at the first store, a wait that
begins while there is a small timer looks at the second.

Everything between two points where the mutex is free is one action, and so is the
passing of time. A wait is one action when it begins and one for each look it takes.
-/

namespace Kernel

open List (append_assoc append_nil map_cons map_map mem_cons_of_mem mem_cons_self mem_singleton nodup_cons)

inductive Filter where
  | none
  | read
  | write
  | aio
  | vnode
  | proc
  | signal
  | timer
  | fs
  | lio
  | user
  | polling
  | videoOut
  | graphicsCore
  | hrTimer
deriving DecidableEq, Repr

namespace Flags

def Add : UInt16 := 1
def OneShot : UInt16 := 0x10
def Clear : UInt16 := 0x20

end Flags

structure OrbisKernelEvent where
  ident : UInt64
  filter : Filter
  flags : UInt16
  fflags : UInt32
  data : UInt64
  udata : UInt64
deriving DecidableEq, Repr

namespace OrbisKernelEvent

def hasFlag (e : OrbisKernelEvent) (flag : UInt16) : Bool := e.flags &&& flag != 0

def key (e : OrbisKernelEvent) : UInt64 × Filter := (e.ident, e.filter)

end OrbisKernelEvent

/-! ## Registered events -/

structure EqueueEvent where
  event : OrbisKernelEvent
  timeAdded : Nat
  /-- In nanoseconds. -/
  timerInterval : Int64
  isTriggered : Bool
deriving DecidableEq, Repr

namespace EqueueEvent

def key (e : EqueueEvent) : UInt64 × Filter := e.event.key

def clear (e : EqueueEvent) : EqueueEvent :=
  { e with isTriggered := false, event := { e.event with fflags := 0, data := 0 } }

def trigger (data : UInt64) (e : EqueueEvent) : EqueueEvent :=
  { e with isTriggered := true, event := { e.event with data := data } }

def triggerUser (data : UInt64) (e : EqueueEvent) : EqueueEvent :=
  { e with isTriggered := true, event := { e.event with udata := data } }

def triggerTimer (e : EqueueEvent) : EqueueEvent :=
  { e with isTriggered := true, event := { e.event with data := e.event.data + 1 } }

/-- `data` is the raw hint, null when it is zero; `time` is the time stamp counter. -/
def triggerDisplay (data time : UInt64) (e : EqueueEvent) : EqueueEvent :=
  let e : EqueueEvent := { e with isTriggered := true }
  if data ≠ 0 then
    if data &&& 0xff = e.event.ident ∧ e.event.ident ≠ 0xfe then
      let count := (e.event.data >>> 12) &&& 0xf
      let counter : UInt64 := if count ≠ 0xf then count + 1 else count
      { e with event := { e.event with
          data := (time &&& (0xfff : UInt64)) ||| (counter <<< 0xc) |||
            (data &&& (0xffffffffffff0000 : UInt64)) } }
    else e
  else e

/-- The trigger that fits the filter. -/
def triggerBy (filter : Filter) (data time : UInt64) (e : EqueueEvent) : EqueueEvent :=
  match filter with
  | .videoOut => e.triggerDisplay data time
  | .user => e.triggerUser data
  | .timer | .hrTimer => e.triggerTimer
  | _ => e.trigger data

end EqueueEvent

structure SmallTimer where
  event : OrbisKernelEvent
  added : Nat
  /-- In nanoseconds. -/
  interval : Int64
deriving DecidableEq, Repr

def SmallTimer.Expired (st : SmallTimer) (now : Nat) : Prop := (now : Int) - st.added ≥ st.interval.toInt

instance {st : SmallTimer} {now : Nat} : Decidable (st.Expired now) := inferInstanceAs (Decidable (_ ≥ _))

/-! ## The queue -/

structure EqueueInternal where
  mEvents : List EqueueEvent
  /-- In the order in which the hash map iterates. -/
  mSmallTimers : List SmallTimer
deriving DecidableEq, Repr

/-- A `bintime`: seconds and fractions of a second. -/
structure OrbisKernelBintime where
  sec : Int64
  frac : Int64
deriving DecidableEq, Repr

namespace OrbisKernelBintime

/-- The nanoseconds of the time spec made from a `bintime`, in an `s64`. -/
def nanoseconds (t : OrbisKernelBintime) : Int64 :=
  (((1000000000 : Int64) * (t.frac >>> 32)) >>> 32) + t.sec * (1000000000 : Int64)

/-- The nanoseconds that a `bintime` stands for, rounded down as the code does it. -/
def exactNanoseconds (t : OrbisKernelBintime) : Int :=
  (1000000000 * (t.frac.toInt / 2 ^ 32)) / 2 ^ 32 + t.sec.toInt * 1000000000

/-- They fit an `s64`. -/
def Fits (t : OrbisKernelBintime) : Prop :=
  -2 ^ 63 ≤ t.exactNanoseconds ∧ t.exactNanoseconds < 2 ^ 63

instance {t : OrbisKernelBintime} : Decidable t.Fits := inferInstanceAs (Decidable (_ ∧ _))

theorem toInt_shiftRight (x : Int64) : (x >>> 32).toInt = x.toInt / 2 ^ 32 := by
  have hshift : (x >>> 32).toBitVec = x.toBitVec.sshiftRight 32 := by
    rw [Int64.toBitVec_shiftRight]
    rfl
  rw [Int64.toInt, hshift, BitVec.toInt_sshiftRight, Int.shiftRight_eq_div_pow]
  rfl

/-- Only the seconds can make the nanoseconds wrap. -/
theorem toInt_nanoseconds {t : OrbisKernelBintime} (hfits : t.Fits) :
    t.nanoseconds.toInt = t.exactNanoseconds := by
  have hlo := t.frac.le_toInt
  have hhi := t.frac.toInt_lt
  have hproduct : ((1000000000 : Int64) * (t.frac >>> 32)).toInt = 1000000000 * (t.frac.toInt / 2 ^ 32) := by
    rw [Int64.toInt_mul, toInt_shiftRight]
    exact Int.bmod_eq_of_le (by simp; omega) (by simp; omega)
  rw [nanoseconds, Int64.toInt_add, toInt_shiftRight, hproduct, Int64.toInt_mul, Int.add_bmod_bmod]
  exact Int.bmod_eq_of_le hfits.1 hfits.2

/-- The interval of a small timer for a `bintime`. -/
def interval (t : OrbisKernelBintime) : Int := t.nanoseconds.toInt

end OrbisKernelBintime

namespace EqueueInternal

/-- The interval of a timer event. `time` is what `event.data` points to for a `HrTimer`. -/
def timerInterval (event : OrbisKernelEvent) (time : OrbisKernelBintime) : Int64 :=
  match event.filter with
  | .timer => event.data.toInt64 * (1000000 : Int64)
  | .hrTimer => time.nanoseconds
  | _ => 0

/-- An event with this key is there already: only its interval and its user data change. -/
def updateEvent (event : OrbisKernelEvent) (time : OrbisKernelBintime) (e : EqueueEvent) : EqueueEvent :=
  { e with
    timerInterval := timerInterval event time
    event := { e.event with udata := event.udata } }

/-- A new event as it is stored: most kinds get the `Clear` flag. -/
def newEvent (event : OrbisKernelEvent) (time : OrbisKernelBintime) (now : Nat) : EqueueEvent :=
  let flags := event.flags &&& ~~~Flags.Add
  let flags := if event.filter ≠ .user then flags ||| Flags.Clear else flags
  ⟨{ event with data := 0, flags := flags }, now, timerInterval event time, false⟩

def eventExists (q : EqueueInternal) (key : UInt64 × Filter) : Bool := q.mEvents.any (·.key = key)

theorem eventExists_iff {q : EqueueInternal} {key : UInt64 × Filter} :
    q.eventExists key = true ↔ key ∈ q.mEvents.map EqueueEvent.key := by
  simp [eventExists]

/-- The second search for the key, after the first found nothing, finds nothing either. -/
def addEvent (q : EqueueInternal) (event : OrbisKernelEvent) (time : OrbisKernelBintime) (now : Nat) :
    EqueueInternal :=
  if q.eventExists event.key then
    { q with mEvents := q.mEvents.map fun e => if e.key = event.key then updateEvent event time e else e }
  else { q with mEvents := q.mEvents ++ [newEvent event time now] }

def removeEvent (q : EqueueInternal) (key : UInt64 × Filter) : EqueueInternal :=
  { q with mEvents := q.mEvents.eraseP (·.key = key) }

def triggerEvent (q : EqueueInternal) (key : UInt64 × Filter) (data time : UInt64) : EqueueInternal :=
  { q with mEvents := q.mEvents.map fun e => if e.key = key then e.triggerBy key.2 data time else e }

/-- The event as the loop of `GetTriggeredEvents` leaves it, if it leaves it. -/
def collect (e : EqueueEvent) : Option EqueueEvent :=
  if e.event.hasFlag Flags.OneShot then none
  else if e.event.hasFlag Flags.Clear then some e.clear
  else some e

/-- The loop of `GetTriggeredEvents`: what stays in the store, and what it writes to `ev`. -/
def collectLoop (num : Nat) : Nat → List EqueueEvent → List EqueueEvent × List OrbisKernelEvent
  | _, [] => ([], [])
  | count, e :: rest =>
    if e.isTriggered then
      if count + 1 = num then ((collect e).toList ++ rest, [e.event])
      else
        let (kept, out) := collectLoop num (count + 1) rest
        ((collect e).toList ++ kept, e.event :: out)
    else
      let (kept, out) := collectLoop num count rest
      (e :: kept, out)

def getTriggeredEvents (q : EqueueInternal) (num : Nat) : EqueueInternal × List OrbisKernelEvent :=
  let (kept, out) := collectLoop num 0 q.mEvents
  ({ q with mEvents := kept }, out)

/-- A timer with the same identifier is replaced where it is; a new one may come anywhere. -/
def addSmallTimer (q : EqueueInternal) (event : OrbisKernelEvent) (time : OrbisKernelBintime) (now : Nat) :
    EqueueInternal :=
  let st : SmallTimer := ⟨event, now, time.nanoseconds⟩
  if q.mSmallTimers.any (·.event.ident = event.ident) then
    { q with mSmallTimers := q.mSmallTimers.map fun t => if t.event.ident = event.ident then st else t }
  else { q with mSmallTimers := st :: q.mSmallTimers }

def hasSmallTimer (q : EqueueInternal) : Bool := !q.mSmallTimers.isEmpty

def removeSmallTimer (q : EqueueInternal) (id : UInt64) : EqueueInternal :=
  { q with mSmallTimers := q.mSmallTimers.filter (·.event.ident ≠ id) }

/-- The loop over the timers in `WaitForSmallTimer`, with room for `num` more events. -/
def expireLoop (now : Nat) : Nat → List SmallTimer → List SmallTimer × List OrbisKernelEvent
  | _, [] => ([], [])
  | 0, timers => (timers, [])
  | num + 1, st :: rest =>
    if st.Expired now then
      let (kept, out) := expireLoop now num rest
      (kept, st.event :: out)
    else
      let (kept, out) := expireLoop now (num + 1) rest
      (st :: kept, out)

def expireSmallTimers (q : EqueueInternal) (now num : Nat) : EqueueInternal × List OrbisKernelEvent :=
  let (kept, out) := expireLoop now num q.mSmallTimers
  ({ q with mSmallTimers := kept }, out)

end EqueueInternal

/-! ## Waiting -/

/-- A call of `WaitForEvents` that has begun. -/
structure WaitCall where
  num : Nat
  /-- It spins on the small timers; otherwise it sleeps on the condition variable. -/
  onSmallTimers : Bool
  /-- Without one it waits for ever. -/
  deadline : Option Int64
deriving DecidableEq, Repr

def WaitCall.isDue (w : WaitCall) (now : Nat) : Bool :=
  w.deadline.any fun deadline => deadline.toInt ≤ (now : Int)

structure EqueueState where
  queue : EqueueInternal
  /-- The steady clock in nanoseconds, a nonnegative `s64`. It does not get to `time_point::max()`. -/
  now : Nat
  /-- The calls that have begun and not returned, by number. -/
  waits : Nat → Option WaitCall
  nextCall : Nat

inductive EqEvent where
  | added (key : UInt64 × Filter)
  | removed (key : UInt64 × Filter)
  | triggered (key : UInt64 × Filter)
  /-- A call returned the event. -/
  | delivered (event : OrbisKernelEvent)
  /-- A small timer was added at this time, for the time of the `bintime`. -/
  | timerAdded (event : OrbisKernelEvent) (now : Nat) (time : OrbisKernelBintime)
  | timerRemoved (id : UInt64)
  /-- A call returned the event of a small timer, at this time. -/
  | timerDelivered (event : OrbisKernelEvent) (now : Nat)
  /-- A call returned 0; whether an event was triggered then, and whether a small timer had expired. -/
  | foundNothing (triggered expired : Bool)
deriving DecidableEq, Repr

inductive EqAction where
  | pass (nanoseconds : Nat)
  | addEvent (event : OrbisKernelEvent) (time : OrbisKernelBintime)
  | removeEvent (key : UInt64 × Filter)
  | triggerEvent (key : UInt64 × Filter) (data time : UInt64)
  | addSmallTimer (event : OrbisKernelEvent) (time : OrbisKernelBintime)
  | removeSmallTimer (id : UInt64)
  /-- The hash map may iterate in another order at any time. -/
  | rehash (order : List SmallTimer)
  /-- `WaitForEvents` with a timeout of zero. -/
  | poll (num : Nat)
  /-- `WaitForEvents` begins to wait; without a time, for ever. -/
  | wait (num : Nat) (micros : Option UInt32)
  /-- A waiting call looks, and returns if it found something or its time is up. -/
  | look (call : Nat)
deriving DecidableEq, Repr

namespace EqueueState

def create : EqueueState := ⟨⟨[], []⟩, 0, fun _ => none, 0⟩

def anyTriggered (s : EqueueState) : Bool := s.queue.mEvents.any (·.isTriggered)

def anyExpired (s : EqueueState) : Bool := s.queue.mSmallTimers.any (·.Expired s.now)

def nothing (s : EqueueState) : EqEvent := .foundNothing s.anyTriggered s.anyExpired

/-- A call looks at one of the stores. -/
def lookAt (s : EqueueState) (onSmallTimers : Bool) (num : Nat) : EqueueState × List EqEvent :=
  if onSmallTimers then
    let (queue, out) := s.queue.expireSmallTimers s.now num
    ({ s with queue := queue }, out.map (.timerDelivered · s.now))
  else
    let (queue, out) := s.queue.getTriggeredEvents num
    ({ s with queue := queue }, out.map .delivered)

/-- The callers of `WaitForEvents` check that there is room for an event. -/
def step (s : EqueueState) : EqAction → Option (EqueueState × List EqEvent)
  | .pass nanoseconds =>
    if s.now + nanoseconds < 2 ^ 63 - 1 then some ({ s with now := s.now + nanoseconds }, []) else none
  | .addEvent event time =>
    some ({ s with queue := s.queue.addEvent event time s.now },
      if s.queue.eventExists event.key then [] else [.added event.key])
  | .removeEvent key =>
    some ({ s with queue := s.queue.removeEvent key },
      if s.queue.eventExists key then [.removed key] else [])
  | .triggerEvent key data time =>
    some ({ s with queue := s.queue.triggerEvent key data time },
      if s.queue.eventExists key then [.triggered key] else [])
  | .addSmallTimer event time =>
    some ({ s with queue := s.queue.addSmallTimer event time s.now },
      [.timerAdded event s.now time])
  | .removeSmallTimer id =>
    some ({ s with queue := s.queue.removeSmallTimer id }, [.timerRemoved id])
  | .rehash order =>
    if order.Perm s.queue.mSmallTimers then
      some ({ s with queue := { s.queue with mSmallTimers := order } }, [])
    else none
  | .poll num =>
    if num = 0 then none
    else
      let (s, out) := s.lookAt false num
      some (s, if out.isEmpty then [s.nothing] else out)
  | .wait num micros =>
    if num = 0 ∨ micros = some 0 then none
    else
      let call : WaitCall :=
        ⟨num, s.queue.hasSmallTimer, micros.map (Int64.ofNat s.now + ·.toUInt64.toInt64 * 1000)⟩
      some
        ({ s with waits := Function.update s.waits s.nextCall (some call), nextCall := s.nextCall + 1 }, [])
  | .look call =>
    match s.waits call with
    | none => none
    | some w =>
      let (s, out) := s.lookAt w.onSmallTimers w.num
      let returned := { s with waits := Function.update s.waits call none }
      if !out.isEmpty then some (returned, out)
      else if w.isDue s.now then some (returned, [s.nothing])
      else some (s, [])

end EqueueState

/-! ## What a delivery needs -/

/-- The event was added, and neither removed nor taken as a one-shot since. -/
def Registered (key : UInt64 × Filter) (h : List EqEvent) : Prop :=
  ∃ before after, h = before ++ .added key :: after ∧ .removed key ∉ after ∧
    ∀ e : OrbisKernelEvent, e.key = key → e.hasFlag Flags.OneShot → .delivered e ∉ after

/-- The event was triggered while registered and not removed since; with `Clear` or `OneShot`, it
    was not returned since that trigger either. -/
def Armed (e : OrbisKernelEvent) (h : List EqEvent) : Prop :=
  ∃ before after, h = before ++ .triggered e.key :: after ∧ Registered e.key before ∧
    .removed e.key ∉ after ∧
    (e.hasFlag Flags.Clear ∨ e.hasFlag Flags.OneShot →
      ∀ e' : OrbisKernelEvent, e'.key = e.key → .delivered e' ∉ after)

/-- The small timer was added, and neither replaced nor removed nor its event returned since. -/
def TimerSet (e : OrbisKernelEvent) (added : Nat) (time : OrbisKernelBintime) (h : List EqEvent) : Prop :=
  ∃ before after, h = before ++ .timerAdded e added time :: after ∧ .timerRemoved e.ident ∉ after ∧
    (∀ (e' : OrbisKernelEvent) added' time', e'.ident = e.ident → .timerAdded e' added' time' ∉ after) ∧
    ∀ (e' : OrbisKernelEvent) now, e'.ident = e.ident → .timerDelivered e' now ∉ after

/-- What must have happened before a delivery; a small timer needs the interval it was added for. -/
def Justified (interval : OrbisKernelBintime → Int) (before : List EqEvent) : EqEvent → Prop
  | .delivered e => Armed e before
  | .timerDelivered e now =>
    ∃ added time, TimerSet e added time before ∧ (now : Int) - added ≥ interval time
  | _ => True

def AllJustified (interval : OrbisKernelBintime → Int) (h : List EqEvent) : Prop :=
  ∀ before x after, h = before ++ x :: after → Justified interval before x

section

variable {h es : List EqEvent} {key : UInt64 × Filter} {e : OrbisKernelEvent} {added : Nat}
  {time : OrbisKernelBintime} {interval : OrbisKernelBintime → Int}

theorem Registered.append (hreg : Registered key h) (hremoved : .removed key ∉ es)
    (honce : ∀ e : OrbisKernelEvent, e.key = key → e.hasFlag Flags.OneShot → .delivered e ∉ es) :
    Registered key (h ++ es) := by
  obtain ⟨before, after, rfl, hr, ho⟩ := hreg
  refine ⟨before, after ++ es, by simp, by simp [hr, hremoved], fun e hkey hflag => ?_⟩
  simp [ho e hkey hflag, honce e hkey hflag]

theorem Armed.append (harmed : Armed e h) (hremoved : .removed e.key ∉ es)
    (honce : e.hasFlag Flags.Clear ∨ e.hasFlag Flags.OneShot →
      ∀ e' : OrbisKernelEvent, e'.key = e.key → .delivered e' ∉ es) : Armed e (h ++ es) := by
  obtain ⟨before, after, rfl, hreg, hr, ho⟩ := harmed
  refine ⟨before, after ++ es, by simp, hreg, by simp [hr, hremoved], fun hflag e' hkey => ?_⟩
  simp [ho hflag e' hkey, honce hflag e' hkey]

theorem TimerSet.append (hset : TimerSet e added time h) (hremoved : .timerRemoved e.ident ∉ es)
    (hadded : ∀ (e' : OrbisKernelEvent) added' time', e'.ident = e.ident → .timerAdded e' added' time' ∉ es)
    (honce : ∀ (e' : OrbisKernelEvent) now, e'.ident = e.ident → .timerDelivered e' now ∉ es) :
    TimerSet e added time (h ++ es) := by
  obtain ⟨before, after, rfl, hr, ha, ho⟩ := hset
  refine ⟨before, after ++ es, by simp, by simp [hr, hremoved], ?_, ?_⟩
  · intro e' added' time' hident
    simp [ha e' added' time' hident, hadded e' added' time' hident]
  · intro e' now hident
    simp [ho e' now hident, honce e' now hident]

theorem TimerSet.mem (hset : TimerSet e added time h) : .timerAdded e added time ∈ h := by
  obtain ⟨before, after, rfl, -, -, -⟩ := hset
  simp

theorem AllJustified.snoc {x : EqEvent} (hall : AllJustified interval h) (hx : Justified interval h x) :
    AllJustified interval (h ++ [x]) := by
  intro before y after heq
  rcases List.eq_nil_or_concat after with rfl | ⟨rest, z, rfl⟩
  · -- the last event
    obtain ⟨rfl, hxy⟩ := List.append_inj' heq rfl
    cases hxy
    exact hx
  · have heq' : h ++ [x] = (before ++ y :: rest) ++ [z] := by simpa using heq
    obtain ⟨rfl, -⟩ := List.append_inj' heq' rfl
    exact hall before y rest rfl

/-- Events that need nothing before them. -/
theorem AllJustified.append (hall : AllJustified interval h)
    (hes : ∀ x ∈ es, ∀ before, Justified interval before x) : AllJustified interval (h ++ es) := by
  induction es using List.reverseRecOn with
  | nil => simpa using hall
  | append_singleton es x ih =>
    rw [← append_assoc]
    exact (ih fun y hy => hes y (by simp [hy])).snoc (hes x (by simp) _)

/-- Only the times that timers were added for matter. -/
theorem AllJustified.congr {interval' : OrbisKernelBintime → Int} (hall : AllJustified interval h)
    (hsame : ∀ e added time, .timerAdded e added time ∈ h → interval' time = interval time) :
    AllJustified interval' h := by
  intro before x after heq
  have hx := hall before x after heq
  cases x with
  | timerDelivered e now =>
    obtain ⟨added, time, hset, hexpired⟩ := hx
    refine ⟨added, time, hset, ?_⟩
    rwa [hsame e added time (heq ▸ List.mem_append_left _ hset.mem)]
  | _ => exact hx

end

/-- What the history says of a stored event. -/
def EqueueEvent.Backed (e : EqueueEvent) (h : List EqEvent) : Prop :=
  Registered e.key h ∧ (e.isTriggered = true → Armed e.event h)

theorem EqueueEvent.Backed.append {e : EqueueEvent} {h es : List EqEvent} (he : e.Backed h)
    (hremoved : .removed e.key ∉ es)
    (hdelivered : ∀ e' : OrbisKernelEvent, e'.key = e.key → .delivered e' ∉ es) : e.Backed (h ++ es) :=
  ⟨he.1.append hremoved fun e' hkey _ => hdelivered e' hkey,
    fun ht => (he.2 ht).append hremoved fun _ e' hkey => hdelivered e' hkey⟩

/-- A delivered event that stays in the store is backed as it is left there. -/
theorem EqueueEvent.Backed.collect {e e' : EqueueEvent} {h : List EqEvent} (he : e.Backed h)
    (hcollect : EqueueInternal.collect e = some e') : e'.Backed (h ++ [.delivered e.event]) := by
  unfold EqueueInternal.collect at hcollect
  split at hcollect
  · cases hcollect
  rename_i hshot
  -- only a one-shot event is unregistered by its delivery
  have hregistered : Registered e.key (h ++ [.delivered e.event]) := by
    refine he.1.append (by simp) fun e' hkey hflag => ?_
    rintro hmem
    rw [mem_singleton, EqEvent.delivered.injEq] at hmem
    exact hshot (hmem ▸ hflag)
  split at hcollect
  · cases hcollect
    exact ⟨hregistered, nofun⟩
  rename_i hclear
  cases hcollect
  refine ⟨hregistered, fun ht => (he.2 ht).append (by simp) fun hflags => ?_⟩
  exact absurd hflags (not_or.mpr ⟨hclear, hshot⟩)

theorem collect_key {e e' : EqueueEvent} (hcollect : EqueueInternal.collect e = some e') :
    e'.key = e.key := by
  unfold EqueueInternal.collect at hcollect
  split at hcollect
  · cases hcollect
  split at hcollect
  · cases hcollect
    rfl
  · cases hcollect
    rfl

/-- What the history says of a stored timer. -/
def SmallTimer.Backed (st : SmallTimer) (h : List EqEvent) : Prop :=
  ∃ time, TimerSet st.event st.added time h ∧ st.interval.toInt = time.interval

section

variable {st : SmallTimer} {h es : List EqEvent}

theorem SmallTimer.Backed.append (hst : st.Backed h) (hremoved : .timerRemoved st.event.ident ∉ es)
    (hadded : ∀ (e : OrbisKernelEvent) added time, e.ident = st.event.ident → .timerAdded e added time ∉ es)
    (honce : ∀ (e : OrbisKernelEvent) now, e.ident = st.event.ident → .timerDelivered e now ∉ es) :
    st.Backed (h ++ es) := by
  obtain ⟨time, hset, hinterval⟩ := hst
  exact ⟨time, hset.append hremoved hadded honce, hinterval⟩

/-- Events about registered events. -/
theorem SmallTimer.Backed.append_of_events (hst : st.Backed h) (hes : ∀ x ∈ es, ∀ id e added time now,
    x ≠ .timerRemoved id ∧ x ≠ .timerAdded e added time ∧ x ≠ .timerDelivered e now) :
    st.Backed (h ++ es) :=
  hst.append (fun hmem => (hes _ hmem _ st.event 0 ⟨0, 0⟩ 0).1 rfl)
    (fun e added time _ hmem => (hes _ hmem 0 e added time 0).2.1 rfl)
    (fun e now _ hmem => (hes _ hmem 0 e 0 ⟨0, 0⟩ now).2.2 rfl)

theorem SmallTimer.Backed.justified {now : Nat} (hst : st.Backed h) (hexpired : st.Expired now) :
    Justified OrbisKernelBintime.interval h (.timerDelivered st.event now) := by
  obtain ⟨time, hset, hinterval⟩ := hst
  exact ⟨st.added, time, hset, hinterval ▸ hexpired⟩

end

/-! ## The loops -/

namespace EqueueInternal

variable {interval : OrbisKernelBintime → Int}

theorem collectLoop_delivers {num : Nat} (l : List EqueueEvent) (count : Nat) {h : List EqEvent}
    (hnodup : (l.map EqueueEvent.key).Nodup) (hbacked : ∀ e ∈ l, e.Backed h) (hall : AllJustified interval h) :
    AllJustified interval (h ++ (collectLoop num count l).2.map .delivered) ∧
    (∀ e ∈ (collectLoop num count l).1, e.Backed (h ++ (collectLoop num count l).2.map .delivered)) ∧
    ((collectLoop num count l).1.map EqueueEvent.key).Sublist (l.map EqueueEvent.key) ∧
    ∀ e ∈ (collectLoop num count l).2, e.key ∈ l.map EqueueEvent.key := by
  induction l generalizing count h with
  | nil => simp [collectLoop, hall]
  | cons e rest ih =>
    rw [map_cons, nodup_cons] at hnodup
    have he := hbacked e (mem_cons_self ..)
    have hrest : ∀ e' ∈ rest, e'.Backed h := fun e' he' => hbacked e' (mem_cons_of_mem _ he')
    have hne : ∀ e' ∈ rest, e'.key ≠ e.key := fun e' he' heq =>
      hnodup.1 (heq ▸ List.mem_map_of_mem he')
    by_cases ht : e.isTriggered = true
    · -- the event is delivered; as keys differ, that says nothing of the others
      have hnow : AllJustified interval (h ++ [.delivered e.event]) := hall.snoc (he.2 ht)
      have hrest' : ∀ e' ∈ rest, e'.Backed (h ++ [.delivered e.event]) := by
        intro e' he'
        refine (hrest e' he').append (by simp) fun e'' hkey hmem => ?_
        rw [mem_singleton, EqEvent.delivered.injEq] at hmem
        exact hne e' he' (hkey.symm.trans (congrArg OrbisKernelEvent.key hmem))
      simp only [collectLoop, if_pos ht]
      split
      · refine ⟨by simpa using hnow, ?_, ?_, ?_⟩
        · intro e' he'
          rw [List.mem_append, Option.mem_toList] at he'
          cases he' with
          | inl hcollect => simpa using he.collect hcollect
          | inr hmem => simpa using hrest' e' hmem
        · cases hcollect : collect e with
          | none => simp
          | some e' => simp [collect_key hcollect]
        · simp [EqueueEvent.key]
      · have hih := @ih (count + 1) _ hnodup.2 hrest' hnow
        generalize collectLoop num (count + 1) rest = r at hih
        obtain ⟨kept, out⟩ := r
        obtain ⟨hjust, hkept, hsub, hout⟩ := hih
        rw [append_assoc] at hjust hkept
        refine ⟨hjust, ?_, ?_, ?_⟩
        · intro e' he'
          rw [List.mem_append, Option.mem_toList] at he'
          cases he' with
          | inl hcollect =>
            -- what stays of the event is not delivered again by the rest of the loop
            have hlater : e'.Backed ((h ++ [.delivered e.event]) ++ out.map .delivered) := by
              refine (he.collect hcollect).append (by simp) fun e'' hkey hmem => ?_
              obtain ⟨d, hd, heq⟩ := List.mem_map.mp hmem
              cases heq
              rw [collect_key hcollect] at hkey
              exact hnodup.1 (hkey ▸ hout _ hd)
            rwa [append_assoc] at hlater
          | inr hmem => exact hkept e' hmem
        · cases hcollect : collect e with
          | none => exact hsub.cons _
          | some e' => simpa [collect_key hcollect] using hsub
        · intro e' he'
          cases List.mem_cons.mp he' with
          | inl heq => exact heq ▸ mem_cons_self ..
          | inr hmem => exact mem_cons_of_mem _ (hout e' hmem)
    · simp only [collectLoop, if_neg ht]
      have hih := @ih count h hnodup.2 hrest hall
      generalize collectLoop num count rest = r at hih
      obtain ⟨kept, out⟩ := r
      obtain ⟨hjust, hkept, hsub, hout⟩ := hih
      refine ⟨hjust, ?_, hsub.cons_cons _, fun e' he' => mem_cons_of_mem _ (hout e' he')⟩
      intro e' he'
      cases List.mem_cons.mp he' with
      | inl heq =>
        subst heq
        refine he.append (by simp) fun e'' hkey hmem => ?_
        obtain ⟨d, hd, heq⟩ := List.mem_map.mp hmem
        cases heq
        exact hnodup.1 (hkey ▸ hout _ hd)
      | inr hmem => exact hkept e' hmem

theorem expireLoop_delivers {now : Nat} (l : List SmallTimer) (num : Nat) {h : List EqEvent}
    (hnodup : (l.map (·.event.ident)).Nodup) (hbacked : ∀ st ∈ l, st.Backed h)
    (hall : AllJustified OrbisKernelBintime.interval h) :
    AllJustified OrbisKernelBintime.interval (h ++ (expireLoop now num l).2.map (.timerDelivered · now)) ∧
    (∀ st ∈ (expireLoop now num l).1,
      st.Backed (h ++ (expireLoop now num l).2.map (.timerDelivered · now))) ∧
    ((expireLoop now num l).1.map (·.event.ident)).Sublist (l.map (·.event.ident)) ∧
    ∀ e ∈ (expireLoop now num l).2, e.ident ∈ l.map (·.event.ident) := by
  induction l generalizing num h with
  | nil => simp [expireLoop, hall]
  | cons st rest ih =>
    cases num with
    | zero =>
      simpa [expireLoop] using ⟨hall, hbacked st (by simp), fun st' hst' => hbacked st' (by simp [hst'])⟩
    | succ num =>
      rw [map_cons, nodup_cons] at hnodup
      have hst := hbacked st (mem_cons_self ..)
      have hrest : ∀ st' ∈ rest, st'.Backed h := fun st' hst' => hbacked st' (mem_cons_of_mem _ hst')
      have hne : ∀ st' ∈ rest, st'.event.ident ≠ st.event.ident := fun st' hst' heq =>
        hnodup.1 (heq ▸ List.mem_map_of_mem hst')
      by_cases hexpired : st.Expired now
      · -- the timer is delivered and leaves the store
        have hnow : AllJustified OrbisKernelBintime.interval (h ++ [.timerDelivered st.event now]) :=
          hall.snoc (hst.justified hexpired)
        have hrest' : ∀ st' ∈ rest, st'.Backed (h ++ [.timerDelivered st.event now]) := by
          intro st' hst'
          refine (hrest st' hst').append (by simp) (by simp) fun e now' hident hmem => ?_
          rw [mem_singleton, EqEvent.timerDelivered.injEq] at hmem
          exact hne st' hst' (hident.symm.trans (congrArg OrbisKernelEvent.ident hmem.1))
        simp only [expireLoop, if_pos hexpired]
        have hih := @ih num _ hnodup.2 hrest' hnow
        generalize expireLoop now num rest = r at hih
        obtain ⟨kept, out⟩ := r
        obtain ⟨hjust, hkept, hsub, hout⟩ := hih
        rw [append_assoc] at hjust hkept
        refine ⟨hjust, hkept, hsub.cons _, fun e he => ?_⟩
        cases List.mem_cons.mp he with
        | inl heq => exact heq ▸ mem_cons_self ..
        | inr hmem => exact mem_cons_of_mem _ (hout e hmem)
      · simp only [expireLoop, if_neg hexpired]
        have hih := @ih (num + 1) h hnodup.2 hrest hall
        generalize expireLoop now (num + 1) rest = r at hih
        obtain ⟨kept, out⟩ := r
        obtain ⟨hjust, hkept, hsub, hout⟩ := hih
        refine ⟨hjust, ?_, hsub.cons_cons _, fun e he => mem_cons_of_mem _ (hout e he)⟩
        intro st' hst'
        cases List.mem_cons.mp hst' with
        | inl heq =>
          subst heq
          refine hst.append (by simp) (by simp) fun e now' hident hmem => ?_
          obtain ⟨d, hd, heq⟩ := List.mem_map.mp hmem
          cases heq
          exact hnodup.1 (hident ▸ hout _ hd)
        | inr hmem => exact hkept st' hmem

/-- A look that delivers nothing found nothing and changed nothing. -/
theorem collectLoop_eq_nil {num : Nat} {l : List EqueueEvent} {count : Nat}
    (hout : (collectLoop num count l).2 = []) :
    (collectLoop num count l).1 = l ∧ ∀ e ∈ l, e.isTriggered = false := by
  induction l generalizing count with
  | nil => exact ⟨rfl, nofun⟩
  | cons e rest ih =>
    simp only [collectLoop] at hout ⊢
    split at hout
    · split at hout <;> cases hout
    rename_i ht
    obtain ⟨hkept, hnone⟩ := ih hout
    rw [if_neg ht]
    exact ⟨by rw [hkept], List.forall_mem_cons.mpr ⟨by simpa using ht, hnone⟩⟩

theorem collectLoop_of_not_triggered {num : Nat} {l : List EqueueEvent} {count : Nat}
    (hnone : ∀ e ∈ l, e.isTriggered = false) : collectLoop num count l = (l, []) := by
  induction l with
  | nil => rfl
  | cons e rest ih =>
    obtain ⟨he, hrest⟩ := List.forall_mem_cons.mp hnone
    simp [collectLoop, he, ih hrest]

theorem expireLoop_of_not_expired {now num : Nat} {l : List SmallTimer}
    (hnone : ∀ st ∈ l, ¬st.Expired now) : expireLoop now num l = (l, []) := by
  induction l with
  | nil => rfl
  | cons st rest ih =>
    obtain ⟨hst, hrest⟩ := List.forall_mem_cons.mp hnone
    cases num with
    | zero => rfl
    | succ num => simp [expireLoop, hst, ih hrest]

theorem expireLoop_eq_nil {now num : Nat} {l : List SmallTimer} (hnum : 0 < num)
    (hout : (expireLoop now num l).2 = []) :
    (expireLoop now num l).1 = l ∧ ∀ st ∈ l, ¬st.Expired now := by
  obtain ⟨num, rfl⟩ := Nat.exists_eq_add_one.mpr hnum
  induction l with
  | nil => exact ⟨rfl, nofun⟩
  | cons st rest ih =>
    simp only [expireLoop] at hout ⊢
    split at hout
    · cases hout
    rename_i hexpired
    obtain ⟨hkept, hnone⟩ := ih hout
    rw [if_neg hexpired]
    exact ⟨by rw [hkept], List.forall_mem_cons.mpr ⟨hexpired, hnone⟩⟩

end EqueueInternal

/-! ## What the stores hold -/

namespace EqueueState

/-- The stores hold what the history explains. -/
structure Sound (s : EqueueState) (h : List EqEvent) : Prop where
  keys : (s.queue.mEvents.map EqueueEvent.key).Nodup
  backed : ∀ e ∈ s.queue.mEvents, e.Backed h
  idents : (s.queue.mSmallTimers.map (·.event.ident)).Nodup
  timers : ∀ st ∈ s.queue.mSmallTimers, st.Backed h
  justified : AllJustified OrbisKernelBintime.interval h
  room : ∀ call w, s.waits call = some w → 0 < w.num

variable {s s' : EqueueState} {h es : List EqEvent}

theorem sound_create : create.Sound [] where
  keys := List.nodup_nil
  backed := nofun
  idents := List.nodup_nil
  timers := nofun
  justified := fun before x after heq => by simp at heq
  room := nofun

/-- Changing stored events without touching their keys, their flags or whether they are triggered. -/
theorem map_keys {l : List EqueueEvent} {f : EqueueEvent → EqueueEvent} (hkey : ∀ e, (f e).key = e.key) :
    (l.map f).map EqueueEvent.key = l.map EqueueEvent.key := by
  rw [map_map]
  exact List.map_congr_left fun e _ => hkey e

theorem Sound.addEvent (hs : s.Sound h) {event : OrbisKernelEvent} {time : OrbisKernelBintime} :
    Sound { s with queue := s.queue.addEvent event time s.now }
      (h ++ if s.queue.eventExists event.key then [] else [.added event.key]) := by
  by_cases hexists : s.queue.eventExists event.key = true
  · simp only [EqueueInternal.addEvent, if_pos hexists, append_nil]
    refine ⟨?_, ?_, hs.idents, hs.timers, hs.justified, hs.room⟩
    · rw [map_keys fun e => by split <;> rfl]
      exact hs.keys
    · intro e he
      obtain ⟨e', he', rfl⟩ := List.mem_map.mp he
      have hbacked := hs.backed e' he'
      split
      · exact hbacked
      · exact hbacked
  · simp only [EqueueInternal.addEvent, if_neg hexists]
    -- a new event is registered by this step, and not triggered yet
    rw [EqueueInternal.eventExists_iff] at hexists
    have hkey : (EqueueInternal.newEvent event time s.now).key = event.key := rfl
    refine ⟨?_, ?_, hs.idents, fun st hst => (hs.timers st hst).append_of_events (by simp),
      hs.justified.append (by simp [Justified]), hs.room⟩
    · rw [List.map_append, List.map_singleton, hkey]
      exact (List.perm_append_singleton _ _).nodup_iff.mpr (List.nodup_cons.mpr ⟨hexists, hs.keys⟩)
    · intro e he
      cases List.mem_append.mp he with
      | inl hmem => exact (hs.backed e hmem).append (by simp) (by simp)
      | inr hmem =>
        rw [List.mem_singleton.mp hmem]
        exact ⟨⟨h, [], rfl, by simp, by simp⟩, nofun⟩

theorem notMem_of_eraseP {l : List EqueueEvent} {key : UInt64 × Filter}
    (hnodup : (l.map EqueueEvent.key).Nodup) :
    ∀ e ∈ l.eraseP (·.key = key), e.key ≠ key := by
  induction l with
  | nil => exact nofun
  | cons a l ih =>
    rw [map_cons, nodup_cons] at hnodup
    by_cases hkey : a.key = key
    · rw [List.eraseP_cons_of_pos (by simpa using hkey)]
      exact fun e he heq => hnodup.1 (List.mem_map.mpr ⟨e, he, heq.trans hkey.symm⟩)
    · rw [List.eraseP_cons_of_neg (by simpa using hkey)]
      exact List.forall_mem_cons.mpr ⟨hkey, ih hnodup.2⟩

theorem Sound.removeEvent (hs : s.Sound h) {key : UInt64 × Filter} :
    Sound { s with queue := s.queue.removeEvent key }
      (h ++ if s.queue.eventExists key then [.removed key] else []) := by
  have hsub : (s.queue.mEvents.eraseP (·.key = key)).Sublist s.queue.mEvents := List.eraseP_sublist
  refine ⟨(hsub.map _).nodup hs.keys, ?_, hs.idents, ?_, ?_, hs.room⟩
  · intro e he
    have hne := notMem_of_eraseP hs.keys e he
    refine (hs.backed e (hsub.subset he)).append ?_ ?_
    · split
      · simpa using hne
      · simp
    · intro e' _
      split <;> simp
  · intro st hst
    refine (hs.timers st hst).append_of_events ?_
    split <;> simp
  · refine hs.justified.append ?_
    split <;> simp [Justified]

theorem triggerBy_spec (e : EqueueEvent) (filter : Filter) (data time : UInt64) :
    (e.triggerBy filter data time).key = e.key ∧
    (e.triggerBy filter data time).event.flags = e.event.flags := by
  unfold EqueueEvent.triggerBy
  split
  · simp only [EqueueEvent.triggerDisplay]
    split
    · split
      · exact ⟨rfl, rfl⟩
      · exact ⟨rfl, rfl⟩
    · exact ⟨rfl, rfl⟩
  all_goals exact ⟨rfl, rfl⟩

theorem Sound.triggerEvent (hs : s.Sound h) {key : UInt64 × Filter} {data time : UInt64} :
    Sound { s with queue := s.queue.triggerEvent key data time }
      (h ++ if s.queue.eventExists key then [.triggered key] else []) := by
  have hkey : ∀ e : EqueueEvent, (if e.key = key then e.triggerBy key.2 data time else e).key = e.key := by
    intro e
    split
    · exact (triggerBy_spec e ..).1
    · rfl
  refine ⟨?_, ?_, hs.idents, ?_, ?_, hs.room⟩
  · simp only [EqueueInternal.triggerEvent]
    rw [map_keys hkey]
    exact hs.keys
  · intro e he
    obtain ⟨e', he', rfl⟩ := List.mem_map.mp he
    have hbacked := hs.backed e' he'
    -- a trigger takes nothing from what was known
    have hlater : e'.Backed (h ++ if s.queue.eventExists key then [.triggered key] else []) := by
      refine hbacked.append ?_ fun e'' _ => ?_
      · split <;> simp
      · split <;> simp
    split
    · next heq =>
      have hexists : s.queue.eventExists key = true :=
        EqueueInternal.eventExists_iff.mpr (heq ▸ List.mem_map_of_mem he')
      -- the triggered event is armed by this step
      obtain ⟨hk, -⟩ := triggerBy_spec e' key.2 data time
      rw [if_pos hexists] at hlater ⊢
      refine ⟨hk ▸ hlater.1, fun _ => ⟨h, [], ?_, ?_, by simp, by simp⟩⟩
      · change h ++ [EqEvent.triggered key] = h ++ [.triggered (e'.triggerBy key.2 data time).key]
        rw [hk, heq]
      · change Registered (e'.triggerBy key.2 data time).key h
        rw [hk]
        exact hbacked.1
    · exact hlater
  · intro st hst
    refine (hs.timers st hst).append_of_events ?_
    split <;> simp
  · refine hs.justified.append ?_
    split <;> simp [Justified]

theorem Sound.addSmallTimer (hs : s.Sound h) {event : OrbisKernelEvent} {time : OrbisKernelBintime} :
    Sound { s with queue := s.queue.addSmallTimer event time s.now }
      (h ++ [.timerAdded event s.now time]) := by
  have hnew : SmallTimer.Backed ⟨event, s.now, time.nanoseconds⟩ (h ++ [.timerAdded event s.now time]) :=
    ⟨time, ⟨h, [], rfl, by simp, by simp, by simp⟩, rfl⟩
  -- another timer is not replaced
  have hold : ∀ st ∈ s.queue.mSmallTimers, st.event.ident ≠ event.ident →
      st.Backed (h ++ [.timerAdded event s.now time]) := by
    intro st hst hne
    refine (hs.timers st hst).append (by simp) (fun e added time' hident hmem => ?_) (by simp)
    rw [mem_singleton, EqEvent.timerAdded.injEq] at hmem
    exact hne (hmem.1 ▸ hident).symm
  have hevents : ∀ e ∈ s.queue.mEvents, e.Backed (h ++ [.timerAdded event s.now time]) :=
    fun e he => (hs.backed e he).append (by simp) (by simp)
  have hjustified : AllJustified OrbisKernelBintime.interval (h ++ [.timerAdded event s.now time]) :=
    hs.justified.append (by simp [Justified])
  simp only [EqueueInternal.addSmallTimer]
  split
  · refine ⟨hs.keys, hevents, ?_, ?_, hjustified, hs.room⟩
    · have hidents : (s.queue.mSmallTimers.map fun t =>
          if t.event.ident = event.ident then ⟨event, s.now, time.nanoseconds⟩ else t).map (·.event.ident) =
          s.queue.mSmallTimers.map (·.event.ident) := by
        rw [map_map]
        refine List.map_congr_left fun t _ => ?_
        simp only [Function.comp_apply]
        split
        · next heq => exact heq.symm
        · rfl
      rw [hidents]
      exact hs.idents
    · intro st hst
      obtain ⟨t, ht, rfl⟩ := List.mem_map.mp hst
      split
      · exact hnew
      · next hne => exact hold t ht hne
  · next hfresh =>
    -- no timer has the identifier yet
    have hne : ∀ t ∈ s.queue.mSmallTimers, t.event.ident ≠ event.ident := fun t ht heq =>
      hfresh (List.any_eq_true.mpr ⟨t, ht, by simpa using heq⟩)
    refine ⟨hs.keys, hevents, List.nodup_cons.mpr ⟨fun hmem => ?_, hs.idents⟩,
      List.forall_mem_cons.mpr ⟨hnew, fun t ht => hold t ht (hne t ht)⟩, hjustified, hs.room⟩
    obtain ⟨t, ht, heq⟩ := List.mem_map.mp hmem
    exact hne t ht heq

theorem Sound.removeSmallTimer (hs : s.Sound h) {id : UInt64} :
    Sound { s with queue := s.queue.removeSmallTimer id } (h ++ [.timerRemoved id]) := by
  have hsub : (s.queue.mSmallTimers.filter (·.event.ident ≠ id)).Sublist s.queue.mSmallTimers :=
    List.filter_sublist
  refine ⟨hs.keys, fun e he => (hs.backed e he).append (by simp) (by simp), (hsub.map _).nodup hs.idents,
    fun st hst => ?_, hs.justified.append (by simp [Justified]), hs.room⟩
  have hne : st.event.ident ≠ id := of_decide_eq_true (List.mem_filter.mp hst).2
  exact (hs.timers st (hsub.subset hst)).append (by simpa using hne) (by simp) (by simp)

/-- A look at either store. -/
theorem Sound.lookAt (hs : s.Sound h) (onSmallTimers : Bool) (num : Nat) :
    (s.lookAt onSmallTimers num).1.Sound (h ++ (s.lookAt onSmallTimers num).2) := by
  cases onSmallTimers with
  | true =>
    obtain ⟨hjust, hkept, hsub, hout⟩ :=
      @EqueueInternal.expireLoop_delivers s.now s.queue.mSmallTimers num h hs.idents hs.timers hs.justified
    refine ⟨hs.keys, fun e he => ?_, hsub.nodup hs.idents, hkept, hjust, hs.room⟩
    exact (hs.backed e he).append (by simp [EqueueState.lookAt]) (by simp [EqueueState.lookAt])
  | false =>
    obtain ⟨hjust, hkept, hsub, hout⟩ :=
      @EqueueInternal.collectLoop_delivers _ num s.queue.mEvents 0 h hs.keys hs.backed hs.justified
    refine ⟨hsub.nodup hs.keys, hkept, hs.idents, fun st hst => ?_, hjust, hs.room⟩
    exact (hs.timers st hst).append_of_events (by simp [EqueueState.lookAt])

/-! ## Looking at one of two stores -/

/-- One of the stores has something to deliver. -/
def ready (s : EqueueState) (onSmallTimers : Bool) : Bool :=
  if onSmallTimers then s.anyExpired else s.anyTriggered

/-- A look delivers something, or there is nothing and it changes nothing. -/
theorem lookAt_cases (s : EqueueState) (onSmallTimers : Bool) {num : Nat} (hnum : 0 < num) :
    s.ready onSmallTimers = true ∧ (s.lookAt onSmallTimers num).2 ≠ [] ∨
    s.ready onSmallTimers = false ∧ s.lookAt onSmallTimers num = (s, []) := by
  by_cases hout : (s.lookAt onSmallTimers num).2 = []
  · refine .inr ?_
    cases onSmallTimers with
    | true =>
      simp only [lookAt, if_true, EqueueInternal.expireSmallTimers, List.map_eq_nil_iff] at hout
      obtain ⟨hkept, hnone⟩ := EqueueInternal.expireLoop_eq_nil hnum hout
      refine ⟨?_, ?_⟩
      · simpa [ready, anyExpired] using hnone
      · simp [lookAt, EqueueInternal.expireSmallTimers, hout, hkept]
    | false =>
      simp only [lookAt, Bool.false_eq_true, if_false, EqueueInternal.getTriggeredEvents,
        List.map_eq_nil_iff] at hout
      obtain ⟨hkept, hnone⟩ := EqueueInternal.collectLoop_eq_nil hout
      refine ⟨?_, ?_⟩
      · simpa [ready, anyTriggered] using hnone
      · simp [lookAt, EqueueInternal.getTriggeredEvents, hout, hkept]
  · refine .inl ⟨?_, hout⟩
    -- otherwise the store has nothing, and neither loop delivers
    by_contra hnot
    refine hout ?_
    cases onSmallTimers with
    | true =>
      have hnone : ∀ st ∈ s.queue.mSmallTimers, ¬st.Expired s.now := by
        simpa [ready, anyExpired] using hnot
      simp [lookAt, EqueueInternal.expireSmallTimers, EqueueInternal.expireLoop_of_not_expired hnone]
    | false =>
      have hnone : ∀ e ∈ s.queue.mEvents, e.isTriggered = false := by
        simpa [ready, anyTriggered] using hnot
      simp [lookAt, EqueueInternal.getTriggeredEvents, EqueueInternal.collectLoop_of_not_triggered hnone]

/-! ## Steps -/

/-- Returning 0 changes no store. -/
theorem Sound.nothing (hs : s.Sound h) {t : EqueueState} : s.Sound (h ++ [t.nothing]) where
  keys := hs.keys
  backed := fun e he => (hs.backed e he).append (by simp [EqueueState.nothing]) (by simp [EqueueState.nothing])
  idents := hs.idents
  timers := fun st hst => (hs.timers st hst).append_of_events (by simp [EqueueState.nothing])
  justified := hs.justified.append (by simp [EqueueState.nothing, Justified])
  room := hs.room

/-- Only the calls that wait change. -/
theorem Sound.waits (hs : s.Sound h) {waits : Nat → Option WaitCall} {nextCall : Nat}
    (hroom : ∀ call w, waits call = some w → 0 < w.num) :
    Sound { s with waits := waits, nextCall := nextCall } h :=
  ⟨hs.keys, hs.backed, hs.idents, hs.timers, hs.justified, hroom⟩

theorem Sound.finish (hs : s.Sound h) {call : Nat} :
    Sound { s with waits := Function.update s.waits call none } h := by
  refine hs.waits fun c w hw => ?_
  by_cases hc : c = call
  · rw [hc, Function.update_self] at hw
    cases hw
  · rw [Function.update_of_ne hc] at hw
    exact hs.room c w hw

/-- What a step can do. -/
inductive Does (s : EqueueState) : EqAction → EqueueState → List EqEvent → Prop
  | passed {nanoseconds : Nat} : Does s (.pass nanoseconds) { s with now := s.now + nanoseconds } []
  | addedEvent {event : OrbisKernelEvent} {time : OrbisKernelBintime} :
    Does s (.addEvent event time) { s with queue := s.queue.addEvent event time s.now }
      (if s.queue.eventExists event.key then [] else [.added event.key])
  | removedEvent {key : UInt64 × Filter} :
    Does s (.removeEvent key) { s with queue := s.queue.removeEvent key }
      (if s.queue.eventExists key then [.removed key] else [])
  | triggeredEvent {key : UInt64 × Filter} {data time : UInt64} :
    Does s (.triggerEvent key data time) { s with queue := s.queue.triggerEvent key data time }
      (if s.queue.eventExists key then [.triggered key] else [])
  | addedTimer {event : OrbisKernelEvent} {time : OrbisKernelBintime} :
    Does s (.addSmallTimer event time) { s with queue := s.queue.addSmallTimer event time s.now }
      [.timerAdded event s.now time]
  | removedTimer {id : UInt64} :
    Does s (.removeSmallTimer id) { s with queue := s.queue.removeSmallTimer id } [.timerRemoved id]
  | rehashed {order : List SmallTimer} (perm : order.Perm s.queue.mSmallTimers) :
    Does s (.rehash order) { s with queue := { s.queue with mSmallTimers := order } } []
  | polled {num : Nat} (out : (s.lookAt false num).2 ≠ []) :
    Does s (.poll num) (s.lookAt false num).1 (s.lookAt false num).2
  | pollMissed {num : Nat} (idle : s.ready false = false) : Does s (.poll num) s [s.nothing]
  | began {num : Nat} {micros : Option UInt32} {w : WaitCall} (room : 0 < w.num)
      (stores : w.onSmallTimers = s.queue.hasSmallTimer) (limit : w.deadline.isSome = micros.isSome) :
    Does s (.wait num micros)
      { s with waits := Function.update s.waits s.nextCall (some w), nextCall := s.nextCall + 1 } []
  | returned {call : Nat} {w : WaitCall} (waiting : s.waits call = some w)
      (out : (s.lookAt w.onSmallTimers w.num).2 ≠ []) :
    Does s (.look call)
      { (s.lookAt w.onSmallTimers w.num).1 with
        waits := Function.update (s.lookAt w.onSmallTimers w.num).1.waits call none }
      (s.lookAt w.onSmallTimers w.num).2
  | timedOut {call : Nat} {w : WaitCall} (waiting : s.waits call = some w)
      (idle : s.ready w.onSmallTimers = false) (due : w.isDue s.now = true) :
    Does s (.look call) { s with waits := Function.update s.waits call none } [s.nothing]
  | slept {call : Nat} : Does s (.look call) s []

theorem Sound.does (hs : s.Sound h) {a : EqAction} (hstep : s.step a = some (s', es)) : s.Does a s' es := by
  cases a with
  | pass nanoseconds =>
    simp only [EqueueState.step] at hstep
    split at hstep
    · cases hstep
      exact .passed
    · cases hstep
  | addEvent event time =>
    cases hstep
    exact .addedEvent
  | removeEvent key =>
    cases hstep
    exact .removedEvent
  | triggerEvent key data time =>
    cases hstep
    exact .triggeredEvent
  | addSmallTimer event time =>
    cases hstep
    exact .addedTimer
  | removeSmallTimer id =>
    cases hstep
    exact .removedTimer
  | rehash order =>
    simp only [EqueueState.step] at hstep
    split at hstep
    · next hperm =>
      cases hstep
      exact .rehashed hperm
    · cases hstep
  | poll num =>
    simp only [EqueueState.step] at hstep
    split at hstep
    · cases hstep
    rename_i hnum
    obtain ⟨-, hout⟩ | ⟨hready, hlook⟩ := lookAt_cases s false (Nat.pos_of_ne_zero hnum)
    · cases hstep
      rw [if_neg (by simpa using hout)]
      exact .polled hout
    · rw [hlook] at hstep
      cases hstep
      exact .pollMissed hready
  | wait num micros =>
    simp only [EqueueState.step] at hstep
    split at hstep
    · cases hstep
    rename_i hnum
    cases hstep
    exact .began (Nat.pos_of_ne_zero (not_or.mp hnum).1) rfl (by simp)
  | look call =>
    simp only [EqueueState.step] at hstep
    split at hstep
    · cases hstep
    rename_i w hw
    obtain ⟨-, hout⟩ | ⟨hready, hlook⟩ := lookAt_cases s w.onSmallTimers (hs.room call w hw)
    · rw [if_pos (by simpa using hout)] at hstep
      cases hstep
      exact .returned hw hout
    · rw [hlook] at hstep
      simp only [List.isEmpty_nil, Bool.not_true, Bool.false_eq_true, if_false] at hstep
      split at hstep
      · next hdue =>
        cases hstep
        exact .timedOut hw hready hdue
      · cases hstep
        exact .slept

theorem Sound.step (hs : s.Sound h) {a : EqAction} (hstep : s.step a = some (s', es)) :
    s'.Sound (h ++ es) := by
  cases hs.does hstep with
  | passed =>
    rw [append_nil]
    exact ⟨hs.keys, hs.backed, hs.idents, hs.timers, hs.justified, hs.room⟩
  | addedEvent => exact hs.addEvent
  | removedEvent => exact hs.removeEvent
  | triggeredEvent => exact hs.triggerEvent
  | addedTimer => exact hs.addSmallTimer
  | removedTimer => exact hs.removeSmallTimer
  | rehashed perm =>
    rw [append_nil]
    exact ⟨hs.keys, hs.backed, (perm.map _).nodup_iff.mpr hs.idents,
      fun st hst => hs.timers st (perm.subset hst), hs.justified, hs.room⟩
  | polled => exact hs.lookAt false _
  | pollMissed => exact hs.nothing
  | began room =>
    rw [append_nil]
    refine hs.waits fun c w hw => ?_
    by_cases hc : c = s.nextCall
    · rw [hc, Function.update_self] at hw
      cases hw
      exact room
    · rw [Function.update_of_ne hc] at hw
      exact hs.room c w hw
  | returned => exact (hs.lookAt _ _).finish
  | timedOut => exact hs.nothing.finish
  | slept =>
    rw [append_nil]
    exact hs

end EqueueState

end Kernel
