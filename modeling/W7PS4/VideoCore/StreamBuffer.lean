-- SUMMARY: The stream buffer hands out regions of a ring; none overlaps data the GPU may still read.
import W7PS4.Lib.Machine
import W7PS4.Lib.Reaches
import Mathlib

/-!
# The stream buffer

`StreamBuffer` hands out regions of a buffer from its start to its end and then begins
again. Each `Commit` leaves a watch: the tick at which the GPU is done with what was
committed so far in this lap, and the offset it reaches to. A new lap waits for the
watches of the lap before it, as far as the region it hands out reaches; what is left of
the laps before that is dropped. That is enough because ticks only grow: the first watch
of a lap has a tick no older than anything committed before the lap.
-/

namespace VideoCore

/-! ## The scheduler -/

/-- A tick that is free makes all earlier ones free. -/
structure Scheduler where
  currentTick : Nat
  isFree : Nat → Bool
  free_of_le : ∀ t t', t' ≤ t → isFree t = true → isFree t' = true

/-- Time only goes on: the current tick does not fall and what is free stays free. -/
structure Scheduler.Advances (s s' : Scheduler) : Prop where
  currentTick : s.currentTick ≤ s'.currentTick
  isFree : ∀ t, s.isFree t = true → s'.isFree t = true

theorem Scheduler.Advances.refl (s : Scheduler) : s.Advances s := ⟨le_rfl, fun _ h => h⟩

theorem Scheduler.Advances.trans {a b c : Scheduler} (hab : a.Advances b) (hbc : b.Advances c) :
    a.Advances c :=
  ⟨hab.currentTick.trans hbc.currentTick, fun t h => hbc.isFree t (hab.isFree t h)⟩

/-- A way for `Scheduler::Wait` to go: it returns once the tick is free. -/
structure Waiting where
  wait : Scheduler → Nat → Scheduler
  advances : ∀ (s : Scheduler) t, s.Advances (wait s t)
  isFree : ∀ s t, (wait s t).isFree t = true

/-! ## The buffer -/

structure Watch where
  tick : Nat
  upperBound : Nat
deriving DecidableEq, Repr

structure StreamBuffer where
  sizeBytes : Nat
  /-- `NonCoherentAtomSize`, where sizes are rounded up to it. -/
  atom : Option Nat
  offset : Nat
  mappedSize : Nat
  /-- Watches beyond the reserved ones are as `ReserveWatches` makes them. -/
  currentWatches : Nat → Watch
  currentWatchCursor : Nat
  invalidationMark : Option Nat
  previousWatches : Nat → Watch
  waitCursor : Nat
  waitBound : Nat

namespace StreamBuffer

def create (sizeBytes : Nat) (atom : Option Nat) : StreamBuffer :=
  ⟨sizeBytes, atom, 0, 0, fun _ => ⟨0, 0⟩, 0, none, fun _ => ⟨0, 0⟩, 0, 0⟩

/-- The loop of `WaitPendingOperations`; `fuel` counts the watches that are left. -/
def waitLoop (w : Waiting) (watches : Nat → Watch) (requestedUpperBound : Nat) (allowWait : Bool) :
    Nat → Scheduler → Nat → Nat → Bool × Scheduler × Nat × Nat
  | 0, scheduler, waitCursor, waitBound => (true, scheduler, waitCursor, waitBound)
  | fuel + 1, scheduler, waitCursor, waitBound =>
    if requestedUpperBound > waitBound then
      let watch := watches waitCursor
      if !scheduler.isFree watch.tick && !allowWait then (false, scheduler, waitCursor, waitBound)
      else
        waitLoop w watches requestedUpperBound allowWait fuel (w.wait scheduler watch.tick) (waitCursor + 1)
          watch.upperBound
    else (true, scheduler, waitCursor, waitBound)

def waitPendingOperations (b : StreamBuffer) (scheduler : Scheduler) (w : Waiting)
    (requestedUpperBound : Nat) (allowWait : Bool) : Bool × Scheduler × StreamBuffer :=
  match b.invalidationMark with
  | none => (true, scheduler, b)
  | some mark =>
    let r := waitLoop w b.previousWatches requestedUpperBound allowWait (mark - b.waitCursor) scheduler
      b.waitCursor b.waitBound
    (r.1, r.2.1, { b with waitCursor := r.2.2.1, waitBound := r.2.2.2 })

/-- The size as it is mapped. -/
def roundSize (b : StreamBuffer) (size : Nat) : Nat :=
  match b.atom with
  | none => size
  | some atom => alignUp size atom

/-- Save the number of used watches, swap the watches and begin at the start. -/
def invalidate (b : StreamBuffer) : StreamBuffer :=
  { b with
    invalidationMark := some b.currentWatchCursor
    currentWatchCursor := 0
    offset := 0
    previousWatches := b.currentWatches
    currentWatches := b.previousWatches
    waitCursor := 0
    waitBound := 0 }

def alignedOffset (b : StreamBuffer) (alignment : Nat) : Nat :=
  if alignment > 0 then alignUp b.offset alignment else b.offset

/-- The buffer would overflow. -/
def overflows (b : StreamBuffer) (size alignment : Nat) : Bool :=
  U64.add (b.alignedOffset alignment) size > b.sizeBytes

/-- `Map` up to the point where it waits. -/
def place (b : StreamBuffer) (size alignment : Nat) : StreamBuffer :=
  let placed := { b with mappedSize := size, offset := b.alignedOffset alignment }
  if b.overflows size alignment then placed.invalidate else placed

/-- The offset of the region, if there is one. -/
def map (b : StreamBuffer) (scheduler : Scheduler) (w : Waiting) (size alignment : Nat) (allowWait : Bool) :
    Option Nat × Scheduler × StreamBuffer :=
  let size := b.roundSize size
  if size > b.sizeBytes then (none, scheduler, b)
  else
    let b := b.place size alignment
    let r := b.waitPendingOperations scheduler w (U64.add b.offset size) allowWait
    (if r.1 then some b.offset else none, r.2)

/-- The test reads the watch after the last used one. -/
def commit (b : StreamBuffer) (scheduler : Scheduler) : StreamBuffer :=
  let b := { b with offset := U64.add b.offset b.mappedSize }
  let watch := b.currentWatches b.currentWatchCursor
  if b.currentWatchCursor ≠ 0 ∧ watch.tick = scheduler.currentTick then
    { b with currentWatches :=
        Function.update b.currentWatches b.currentWatchCursor { watch with upperBound := b.offset } }
  else
    { b with
      currentWatches :=
        Function.update b.currentWatches b.currentWatchCursor ⟨scheduler.currentTick, b.offset⟩
      currentWatchCursor := b.currentWatchCursor + 1 }

end StreamBuffer

/-! ## Runs -/

/-- A region that was committed, and the tick at which the GPU is done with it. -/
structure Committed where
  start : Nat
  stop : Nat
  tick : Nat
deriving DecidableEq, Repr

structure Stream where
  buffer : StreamBuffer
  scheduler : Scheduler

inductive StreamAction where
  | map (size alignment : Nat) (allowWait : Bool) (w : Waiting)
  | commit
  /-- The current tick or the GPU goes on. -/
  | advance (scheduler : Scheduler)

namespace Stream

def create (sizeBytes : Nat) (atom : Option Nat) (scheduler : Scheduler) : Stream :=
  ⟨.create sizeBytes atom, scheduler⟩

/-- The history keeps what was committed. -/
def step (s : Stream) : StreamAction → Option (Stream × List Committed)
  | .map size alignment allowWait w =>
    let r := s.buffer.map s.scheduler w size alignment allowWait
    some (⟨r.2.2, r.2.1⟩, [])
  | .commit =>
    some (⟨s.buffer.commit s.scheduler, s.scheduler⟩,
      [⟨s.buffer.offset, U64.add s.buffer.offset s.buffer.mappedSize, s.scheduler.currentTick⟩])
  | .advance scheduler => some ({ s with scheduler := scheduler }, [])

/-- The value rounded up, without wrapping. -/
def roundUp (value size : Nat) : Nat := if value % size = 0 then value else value - value % size + size

/-- The size as it is mapped, without wrapping. -/
def roundedSize (s : Stream) (size : Nat) : Nat :=
  match s.buffer.atom with
  | none => size
  | some atom => roundUp size atom

/-- The aligned offset, without wrapping. -/
def roundedOffset (s : Stream) (alignment : Nat) : Nat :=
  if alignment > 0 then roundUp s.buffer.offset alignment else s.buffer.offset

/-- The scheduler only goes on. -/
def Advancing (s : Stream) : StreamAction → Prop
  | .map .. | .commit => True
  | .advance scheduler => s.scheduler.Advances scheduler

/-- Nothing that a step adds up reaches `2 ^ 64`. A size beyond the buffer is refused before it is added. -/
def Unwrapped (s : Stream) : StreamAction → Prop
  | .map size alignment _ _ => s.roundedSize size < 2 ^ 64 ∧
    (s.roundedSize size ≤ s.buffer.sizeBytes → s.roundedOffset alignment + s.roundedSize size < 2 ^ 64)
  | .commit => s.buffer.offset + s.buffer.mappedSize < 2 ^ 64
  | .advance _ => True

end Stream

/-! ## Watches cover what was committed -/

/-- Some of the first `n` watches has to be waited for before the region may be handed out again:
    its tick is no earlier, and the watch before it ends where the region begins or earlier. -/
def Committed.CoveredBy (c : Committed) (watches : Nat → Watch) (n : Nat) : Prop :=
  ∃ i < n, c.tick ≤ (watches i).tick ∧ ∀ j, j + 1 = i → (watches j).upperBound ≤ c.start

def Ascending (watches : Nat → Watch) (n : Nat) : Prop :=
  ∀ i j, i ≤ j → j < n → (watches i).upperBound ≤ (watches j).upperBound

namespace StreamBuffer

/-- The invariant of the buffer, with what was committed before the current lap and in it. -/
structure Tracks (b : StreamBuffer) (s : Scheduler) (older current : List Committed) : Prop where
  ticks : ∀ i, (b.currentWatches i).tick ≤ s.currentTick ∧ (b.previousWatches i).tick ≤ s.currentTick
  committed : ∀ c ∈ older ++ current, c.tick ≤ s.currentTick
  unused : b.currentWatchCursor = 0 → b.offset = 0
  /-- The first watch of the lap is no earlier than anything from before the lap. -/
  first : 0 < b.currentWatchCursor →
    (∀ j, b.currentWatchCursor ≤ j → (b.currentWatches j).tick ≤ (b.currentWatches 0).tick) ∧
    ∀ c ∈ older, c.tick ≤ (b.currentWatches 0).tick
  ascending : Ascending b.currentWatches b.currentWatchCursor
  below : ∀ i < b.currentWatchCursor, (b.currentWatches i).upperBound ≤ b.offset
  current_le : ∀ c ∈ current, c.stop ≤ b.offset
  current_covered : ∀ c ∈ current, c.CoveredBy b.currentWatches b.currentWatchCursor
  first_lap : b.invalidationMark = none → older = []
  later_lap : ∀ mark, b.invalidationMark = some mark → Ascending b.previousWatches mark ∧
    (∀ c ∈ older, c.CoveredBy b.previousWatches mark) ∧ b.waitCursor ≤ mark ∧
    (∀ i < b.waitCursor, s.isFree (b.previousWatches i).tick = true) ∧
    (b.waitCursor = 0 → b.waitBound = 0) ∧
    ∀ i, i + 1 = b.waitCursor → b.waitBound = (b.previousWatches i).upperBound

theorem tracks_create {sizeBytes : Nat} {atom : Option Nat} {scheduler : Scheduler} :
    (create sizeBytes atom).Tracks scheduler [] [] where
  ticks := fun _ => ⟨Nat.zero_le _, Nat.zero_le _⟩
  committed := nofun
  unused := fun _ => rfl
  first := nofun
  ascending := fun _ j _ hj => absurd hj (Nat.not_lt_zero j)
  below := nofun
  current_le := nofun
  current_covered := nofun
  first_lap := fun _ => rfl
  later_lap := nofun

variable {b : StreamBuffer} {s s' : Scheduler} {older current : List Committed}

theorem Tracks.advance (hb : b.Tracks s older current) (hs : s.Advances s') : b.Tracks s' older current where
  ticks := fun i => ⟨(hb.ticks i).1.trans hs.currentTick, (hb.ticks i).2.trans hs.currentTick⟩
  committed := fun c hc => (hb.committed c hc).trans hs.currentTick
  unused := hb.unused
  first := hb.first
  ascending := hb.ascending
  below := hb.below
  current_le := hb.current_le
  current_covered := hb.current_covered
  first_lap := hb.first_lap
  later_lap := fun mark hmark => by
    obtain ⟨hasc, hcov, hle, hfree, hzero, hbound⟩ := hb.later_lap mark hmark
    exact ⟨hasc, hcov, hle, fun i hi => hs.isFree _ (hfree i hi), hzero, hbound⟩

/-! ## Waiting -/

variable {w : Waiting}

/-- The loop waits for the watches it passes and stops at the last one or beyond the request. -/
theorem waitLoop_spec {watches : Nat → Watch} {requested : Nat} {allowWait : Bool}
    (fuel : Nat) {s : Scheduler} {cursor bound : Nat} {ok : Bool} {s' : Scheduler} {cursor' bound' : Nat}
    (hloop : waitLoop w watches requested allowWait fuel s cursor bound = (ok, s', cursor', bound'))
    (hfree : ∀ i < cursor, s.isFree (watches i).tick = true) (hzero : cursor = 0 → bound = 0)
    (hbound : ∀ i, i + 1 = cursor → bound = (watches i).upperBound) :
    s.Advances s' ∧ cursor' ≤ cursor + fuel ∧ (∀ i < cursor', s'.isFree (watches i).tick = true) ∧
    (cursor' = 0 → bound' = 0) ∧ (∀ i, i + 1 = cursor' → bound' = (watches i).upperBound) ∧
    (ok = true → requested ≤ bound' ∨ cursor' = cursor + fuel) := by
  induction fuel generalizing s cursor bound with
  | zero =>
    cases hloop
    exact ⟨.refl _, le_rfl, hfree, hzero, hbound, fun _ => .inr rfl⟩
  | succ fuel ih =>
    simp only [waitLoop] at hloop
    split at hloop
    · split at hloop
      · cases hloop
        exact ⟨.refl _, Nat.le_add_right .., hfree, hzero, hbound, nofun⟩
      · have hadvances := w.advances s (watches cursor).tick
        have hnext := ih hloop (fun i hi => ?_) nofun (fun i hi => by rw [Nat.succ.inj hi])
        · obtain ⟨hadv, hle, hrest⟩ := hnext
          exact ⟨hadvances.trans hadv, by omega, by rwa [Nat.add_assoc, Nat.add_comm 1 fuel] at hrest⟩
        · by_cases hlast : i = cursor
          · rw [hlast]
            exact w.isFree s _
          · exact hadvances.isFree _ (hfree i (by omega))
    · next hreached =>
      cases hloop
      exact ⟨.refl _, Nat.le_add_right .., hfree, hzero, hbound, fun _ => .inl (by omega)⟩

/-- After waiting as far as a region reaches, it is clear of everything in flight. -/
theorem Tracks.clear (hb : b.Tracks s older current) {requested : Nat}
    (hwaited : ∀ mark, b.invalidationMark = some mark → requested ≤ b.waitBound ∨ b.waitCursor = mark) :
    ∀ c ∈ older ++ current, s.isFree c.tick = false → requested ≤ c.start ∨ c.stop ≤ b.offset := by
  intro c hc hinFlight
  cases List.mem_append.mp hc with
  | inr hcurrent => exact .inr (hb.current_le c hcurrent)
  | inl holder =>
    left
    cases hmark : b.invalidationMark with
    | none =>
      rw [hb.first_lap hmark] at holder
      cases holder
    | some mark =>
      obtain ⟨hasc, hcov, hle, hfree, hzero, hbound⟩ := hb.later_lap mark hmark
      obtain ⟨i, hi, htick, hbefore⟩ := hcov c holder
      -- The watch that covers the region has not been waited for.
      have hcursor : b.waitCursor ≤ i := by
        by_contra hlt
        have := s.free_of_le _ _ htick (hfree i (by omega))
        rw [hinFlight] at this
        cases this
      have hreq : requested ≤ b.waitBound := (hwaited mark hmark).resolve_right (by omega)
      rcases Nat.eq_zero_or_pos b.waitCursor with hw | hw
      · rw [hzero hw] at hreq
        omega
      · have hlast := hbound (b.waitCursor - 1) (by omega)
        have hup := hasc (b.waitCursor - 1) (i - 1) (by omega) (by omega)
        have hstart := hbefore (i - 1) (by omega)
        omega

theorem waitPendingOperations_spec (hb : b.Tracks s older current) {requested : Nat}
    {allowWait ok : Bool} {s' : Scheduler} {b' : StreamBuffer}
    (hwait : b.waitPendingOperations s w requested allowWait = (ok, s', b')) :
    b'.Tracks s' older current ∧ b'.offset = b.offset ∧ s.Advances s' ∧
    (ok = true → ∀ mark, b'.invalidationMark = some mark → requested ≤ b'.waitBound ∨ b'.waitCursor = mark) := by
  unfold waitPendingOperations at hwait
  split at hwait
  · next hmark =>
    cases hwait
    exact ⟨hb, rfl, .refl _, fun _ mark h => by rw [hmark] at h; cases h⟩
  rename_i mark hmark
  obtain ⟨hasc, hcov, hle, hfree, hzero, hbound⟩ := hb.later_lap mark hmark
  generalize hloop : waitLoop w b.previousWatches requested allowWait (mark - b.waitCursor) s b.waitCursor
    b.waitBound = r at hwait
  obtain ⟨ok', s'', cursor', bound'⟩ := r
  obtain ⟨hadv, hle', hfree', hzero', hbound', hok⟩ := waitLoop_spec _ hloop hfree hzero hbound
  cases hwait
  have hb' := hb.advance hadv
  refine ⟨⟨hb'.ticks, hb'.committed, hb'.unused, hb'.first, hb'.ascending, hb'.below, hb'.current_le,
    hb'.current_covered, hb'.first_lap, ?_⟩, rfl, hadv, ?_⟩
  · intro m hm
    obtain rfl : mark = m := by rw [hmark] at hm; exact Option.some.inj hm
    exact ⟨hasc, hcov, by simp only; omega, hfree', hzero', hbound'⟩
  · intro hisOk m hm
    obtain rfl : mark = m := by rw [hmark] at hm; exact Option.some.inj hm
    exact (hok hisOk).imp_right fun h => by simp only; omega

/-! ## Mapping -/

/-- The offset moves up within the lap. -/
theorem Tracks.move (hb : b.Tracks s older current) {offset size : Nat} (hle : b.offset ≤ offset)
    (hzero : b.offset = 0 → offset = 0) :
    Tracks { b with mappedSize := size, offset := offset } s older current where
  ticks := hb.ticks
  committed := hb.committed
  unused := fun h => hzero (hb.unused h)
  first := hb.first
  ascending := hb.ascending
  below := fun i hi => (hb.below i hi).trans hle
  current_le := fun c hc => (hb.current_le c hc).trans hle
  current_covered := hb.current_covered
  first_lap := hb.first_lap
  later_lap := hb.later_lap

/-- A new lap begins. The watches of the lap that ends cover what was committed in it, and its
    first watch covers all that is older. -/
theorem Tracks.invalidate (hb : b.Tracks s older current) (hused : 0 < b.currentWatchCursor) :
    b.invalidate.Tracks s (older ++ current) [] where
  ticks := fun i => ⟨(hb.ticks i).2, (hb.ticks i).1⟩
  committed := fun c hc => hb.committed c (by simpa using hc)
  unused := fun _ => rfl
  first := nofun
  ascending := fun _ j _ hj => absurd hj (Nat.not_lt_zero j)
  below := nofun
  current_le := nofun
  current_covered := nofun
  first_lap := nofun
  later_lap := by
    intro mark hmark
    cases hmark
    refine ⟨hb.ascending, ?_, Nat.zero_le _, nofun, fun _ => rfl, nofun⟩
    intro c hc
    cases List.mem_append.mp hc with
    | inl holder => exact ⟨0, hused, (hb.first hused).2 c holder, nofun⟩
    | inr hcurrent => exact hb.current_covered c hcurrent

theorem Tracks.place (hb : b.Tracks s older current) {size alignment : Nat} (hsize : size ≤ b.sizeBytes)
    (hle : b.offset ≤ b.alignedOffset alignment) (hzero : b.offset = 0 → b.alignedOffset alignment = 0)
    (hfits : b.alignedOffset alignment + size < 2 ^ 64) :
    ∃ older' current', older' ++ current' = older ++ current ∧
      (b.place size alignment).Tracks s older' current' ∧ (b.place size alignment).offset + size < 2 ^ 64 := by
  have hmoved : Tracks { b with mappedSize := size, offset := b.alignedOffset alignment } s older current :=
    hb.move hle hzero
  unfold StreamBuffer.place
  split
  · next hover =>
    rw [overflows, U64.add_of_lt hfits, decide_eq_true_eq] at hover
    have hused : 0 < b.currentWatchCursor := by
      by_contra hnone
      have := hzero (hb.unused (by omega))
      omega
    refine ⟨older ++ current, [], by simp, hmoved.invalidate hused, ?_⟩
    simp only [StreamBuffer.invalidate]
    omega
  · exact ⟨older, current, rfl, hmoved, hfits⟩

/-- `Map` keeps the invariant, and the region it returns is clear of everything in flight. -/
theorem Tracks.map (hb : b.Tracks s older current) {size alignment : Nat} {allowWait : Bool}
    {offset : Option Nat} {s' : Scheduler} {b' : StreamBuffer}
    (hfits : b.roundSize size ≤ b.sizeBytes → b.offset ≤ b.alignedOffset alignment ∧
      (b.offset = 0 → b.alignedOffset alignment = 0) ∧ b.alignedOffset alignment + b.roundSize size < 2 ^ 64)
    (hmap : b.map s w size alignment allowWait = (offset, s', b')) :
    (∃ older' current', older' ++ current' = older ++ current ∧ b'.Tracks s' older' current') ∧
    ∀ o ∈ offset, ∀ c ∈ older ++ current, s'.isFree c.tick = false →
      o + b.roundSize size ≤ c.start ∨ c.stop ≤ o := by
  simp only [StreamBuffer.map] at hmap
  split at hmap
  · cases hmap
    exact ⟨⟨older, current, rfl, hb⟩, nofun⟩
  rename_i hsize
  obtain ⟨hle, hzero, hfits⟩ := hfits (Nat.le_of_not_lt hsize)
  obtain ⟨older', current', heq, hplaced, hsum⟩ := hb.place (Nat.le_of_not_lt hsize) hle hzero hfits
  rw [← heq]
  rw [U64.add_of_lt hsum] at hmap
  generalize hwait : (b.place (b.roundSize size) alignment).waitPendingOperations s w
    ((b.place (b.roundSize size) alignment).offset + b.roundSize size) allowWait = r at hmap
  obtain ⟨ok, s'', b''⟩ := r
  obtain ⟨htracks, hoffset, -, hwaited⟩ := waitPendingOperations_spec hplaced hwait
  cases hmap
  refine ⟨⟨older', current', rfl, htracks⟩, ?_⟩
  intro o ho c hc hinFlight
  simp only at ho
  split at ho
  · next hok =>
    cases ho
    rw [← hoffset]
    rw [← hoffset] at hwaited
    exact htracks.clear (hwaited hok) c hc hinFlight
  · cases ho

/-! ## Committing -/

/-- Writing a watch that is not used yet does not change what the used ones cover. -/
theorem CoveredBy.update {c : Committed} {watches : Nat → Watch} {n m : Nat} {watch : Watch}
    (hc : c.CoveredBy watches n) (hle : n ≤ m) : c.CoveredBy (Function.update watches n watch) m := by
  obtain ⟨i, hi, htick, hbefore⟩ := hc
  refine ⟨i, by omega, ?_, fun j hj => ?_⟩
  · rwa [Function.update_of_ne (by omega)]
  · rw [Function.update_of_ne (by omega)]
    exact hbefore j hj

theorem Ascending.write {watches : Nat → Watch} {n : Nat} {watch : Watch} (h : Ascending watches n) :
    Ascending (Function.update watches n watch) n := by
  intro i j hij hj
  rw [Function.update_of_ne (by omega), Function.update_of_ne (by omega)]
  exact h i j hij hj

/-- One more watch, whose bound is above those before it. -/
theorem Ascending.push {watches : Nat → Watch} {n : Nat} {watch : Watch} (h : Ascending watches n)
    (hbelow : ∀ i < n, (watches i).upperBound ≤ watch.upperBound) :
    Ascending (Function.update watches n watch) (n + 1) := by
  intro i j hij hj
  by_cases hjn : j = n
  · rw [hjn, Function.update_self]
    by_cases hin : i = n
    · rw [hin, Function.update_self]
    · rw [Function.update_of_ne hin]
      exact hbelow i (by omega)
  · rw [Function.update_of_ne hjn, Function.update_of_ne (by omega)]
    exact h i j hij (by omega)

/-- What is committed at the offset, up to the bound. -/
def committedTo (b : StreamBuffer) (s : Scheduler) (bound : Nat) : Committed := ⟨b.offset, bound, s.currentTick⟩

variable {bound : Nat}

theorem Tracks.committed_append (hb : b.Tracks s older current) :
    ∀ c ∈ older ++ (current ++ [b.committedTo s bound]), c.tick ≤ s.currentTick := by
  intro c hc
  rw [← List.append_assoc, List.mem_append, List.mem_singleton] at hc
  cases hc with
  | inl h => exact hb.committed c h
  | inr h => exact h ▸ le_rfl

theorem Tracks.current_le_append (hb : b.Tracks s older current) (hbound : b.offset ≤ bound) :
    ∀ c ∈ current ++ [b.committedTo s bound], c.stop ≤ bound := by
  intro c hc
  rw [List.mem_append, List.mem_singleton] at hc
  cases hc with
  | inl h => exact (hb.current_le c h).trans hbound
  | inr h => exact h ▸ le_rfl

/-- The stale watch after the used ones is written. As it has the current tick, so has the first watch of
    the lap, which covers what is committed now. -/
theorem Tracks.merge (hb : b.Tracks s older current) (hbound : b.offset ≤ bound)
    (hused : b.currentWatchCursor ≠ 0)
    (hstale : (b.currentWatches b.currentWatchCursor).tick = s.currentTick) :
    Tracks { b with
      offset := bound
      currentWatches := Function.update b.currentWatches b.currentWatchCursor
        { b.currentWatches b.currentWatchCursor with upperBound := bound } }
      s older (current ++ [b.committedTo s bound]) := by
  have hfirst := hb.first (Nat.pos_of_ne_zero hused)
  have hticks : ∀ i, (Function.update b.currentWatches b.currentWatchCursor
      { b.currentWatches b.currentWatchCursor with upperBound := bound } i).tick =
      (b.currentWatches i).tick := by
    intro i
    by_cases hi : i = b.currentWatchCursor
    · rw [hi, Function.update_self]
    · rw [Function.update_of_ne hi]
  refine ⟨?_, hb.committed_append, fun h => absurd h hused, ?_, Ascending.write hb.ascending, ?_,
    hb.current_le_append hbound, ?_, hb.first_lap, hb.later_lap⟩
  · intro i
    simp only [hticks]
    exact hb.ticks i
  · intro _
    simp only [hticks]
    exact hfirst
  · intro i hi
    simp only at hi ⊢
    rw [Function.update_of_ne (by omega)]
    exact (hb.below i hi).trans hbound
  · intro c hc
    rw [List.mem_append, List.mem_singleton] at hc
    cases hc with
    | inl h => exact CoveredBy.update (hb.current_covered c h) le_rfl
    | inr h =>
      -- the first watch of the lap covers it, as no tick is later
      refine ⟨0, Nat.pos_of_ne_zero hused, ?_, nofun⟩
      rw [hticks, h, committedTo, ← hstale]
      exact hfirst.1 b.currentWatchCursor le_rfl

/-- After a new watch the first one of the lap is no earlier than the stale ones and anything from before
    the lap. -/
theorem Tracks.first_push (hb : b.Tracks s older current) :
    (∀ j, b.currentWatchCursor + 1 ≤ j →
        (Function.update b.currentWatches b.currentWatchCursor ⟨s.currentTick, bound⟩ j).tick ≤
        (Function.update b.currentWatches b.currentWatchCursor ⟨s.currentTick, bound⟩ 0).tick) ∧
      ∀ c ∈ older, c.tick ≤
        (Function.update b.currentWatches b.currentWatchCursor ⟨s.currentTick, bound⟩ 0).tick := by
  by_cases hused : b.currentWatchCursor = 0
  · rw [hused, Function.update_self]
    refine ⟨?_, fun c hc => hb.committed c (List.mem_append_left _ hc)⟩
    intro j hj
    rw [Function.update_of_ne (by omega)]
    exact (hb.ticks j).1
  · -- the first watch of the lap stays what it was
    obtain ⟨hstale, holder⟩ := hb.first (Nat.pos_of_ne_zero hused)
    rw [Function.update_of_ne (Ne.symm hused)]
    refine ⟨?_, holder⟩
    intro j hj
    rw [Function.update_of_ne (by omega)]
    exact hstale j (by omega)

/-- A new watch with the current tick covers what is committed now. -/
theorem Tracks.push (hb : b.Tracks s older current) (hbound : b.offset ≤ bound) :
    Tracks { b with
      offset := bound
      currentWatches := Function.update b.currentWatches b.currentWatchCursor ⟨s.currentTick, bound⟩
      currentWatchCursor := b.currentWatchCursor + 1 }
      s older (current ++ [b.committedTo s bound]) := by
  have hbelow : ∀ i < b.currentWatchCursor, (b.currentWatches i).upperBound ≤ bound := fun i hi =>
    (hb.below i hi).trans hbound
  refine ⟨?_, hb.committed_append, nofun, fun _ => hb.first_push,
    Ascending.push hb.ascending hbelow, ?_,
    hb.current_le_append hbound, ?_, hb.first_lap, hb.later_lap⟩
  · intro i
    refine ⟨?_, (hb.ticks i).2⟩
    by_cases hi : i = b.currentWatchCursor
    · rw [hi]
      simp only [Function.update_self, le_refl]
    · simp only [Function.update_of_ne hi]
      exact (hb.ticks i).1
  · intro i hi
    simp only at hi
    by_cases hic : i = b.currentWatchCursor
    · rw [hic]
      simp only [Function.update_self, le_refl]
    · simp only [Function.update_of_ne hic]
      exact hbelow i (by omega)
  · intro c hc
    rw [List.mem_append, List.mem_singleton] at hc
    cases hc with
    | inl h => exact CoveredBy.update (hb.current_covered c h) (Nat.le_succ _)
    | inr h =>
      -- the new watch covers it, and those before it end no later
      refine ⟨b.currentWatchCursor, Nat.lt_succ_self _, ?_, fun j hj => ?_⟩
      · simp only [Function.update_self, h, committedTo, le_refl]
      · simp only [Function.update_of_ne (show j ≠ b.currentWatchCursor by omega), h]
        exact hb.below j (by omega)

theorem Tracks.commit (hb : b.Tracks s older current) (hfits : b.offset + b.mappedSize < 2 ^ 64) :
    (b.commit s).Tracks s older
      (current ++ [⟨b.offset, U64.add b.offset b.mappedSize, s.currentTick⟩]) := by
  rw [StreamBuffer.commit, U64.add_of_lt hfits]
  split
  · next hmerge => exact hb.merge (Nat.le_add_right ..) hmerge.1 hmerge.2
  · exact hb.push (Nat.le_add_right ..)

end StreamBuffer

/-! ## What runs keep -/

namespace Stream

theorem alignUp_eq_roundUp {value size : Nat} (h : roundUp value size < 2 ^ 64) :
    alignUp value size = roundUp value size := by
  unfold roundUp at h ⊢
  simp only [alignUp]
  split
  · next hmod => rw [hmod, Nat.sub_zero]
  rename_i hmod
  rw [if_neg hmod] at h
  exact U64.add_of_lt h

theorem le_roundUp {value size : Nat} (hsize : 0 < size) : value ≤ roundUp value size := by
  have hmod := Nat.mod_lt value hsize
  have hle := Nat.mod_le value size
  unfold roundUp
  split <;> omega

theorem roundUp_zero {size : Nat} : roundUp 0 size = 0 := by simp [roundUp]

variable {s s' : Stream} {older current h : List Committed}

theorem roundSize_eq {size : Nat} (hfits : s.roundedSize size < 2 ^ 64) :
    s.buffer.roundSize size = s.roundedSize size := by
  unfold roundedSize at hfits ⊢
  unfold StreamBuffer.roundSize
  cases hatom : s.buffer.atom with
  | none => rfl
  | some atom =>
    rw [hatom] at hfits
    exact alignUp_eq_roundUp hfits

variable {alignment : Nat}

theorem alignedOffset_eq (hfits : s.roundedOffset alignment < 2 ^ 64) :
    s.buffer.alignedOffset alignment = s.roundedOffset alignment := by
  unfold roundedOffset at hfits ⊢
  unfold StreamBuffer.alignedOffset
  split at hfits
  · next hpos => rw [if_pos hpos, if_pos hpos, alignUp_eq_roundUp hfits]
  · next hpos => rw [if_neg hpos, if_neg hpos]

theorem le_roundedOffset : s.buffer.offset ≤ s.roundedOffset alignment := by
  unfold roundedOffset
  split
  · next hpos => exact le_roundUp hpos
  · exact le_rfl

theorem roundedOffset_eq_zero (hzero : s.buffer.offset = 0) : s.roundedOffset alignment = 0 := by
  unfold roundedOffset
  rw [hzero, roundUp_zero, ite_self]

theorem tracks_map (hs : s.buffer.Tracks s.scheduler older current) {w : Waiting} {size alignment : Nat}
    {allowWait : Bool} {offset : Option Nat} {scheduler : Scheduler} {b : StreamBuffer}
    (hfits : s.Unwrapped (.map size alignment allowWait w))
    (hmap : s.buffer.map s.scheduler w size alignment allowWait = (offset, scheduler, b)) :
    (∃ older' current', older' ++ current' = older ++ current ∧ b.Tracks scheduler older' current') ∧
    ∀ o ∈ offset, ∀ c ∈ older ++ current, scheduler.isFree c.tick = false →
      o + s.roundedSize size ≤ c.start ∨ c.stop ≤ o := by
  obtain ⟨hrounded, hfits⟩ := hfits
  have hsize := s.roundSize_eq hrounded
  rw [← hsize] at hfits ⊢
  refine hs.map ?_ hmap
  intro hle
  have hsum := hfits hle
  have hoffset := s.alignedOffset_eq (Nat.lt_of_le_of_lt (Nat.le_add_right ..) hsum)
  rw [hoffset]
  exact ⟨le_roundedOffset, roundedOffset_eq_zero, hsum⟩

/-- What was committed falls into what is older than the lap and what is of it. -/
def Tracked (s : Stream) (h : List Committed) : Prop :=
  ∃ older current, h = older ++ current ∧ s.buffer.Tracks s.scheduler older current

theorem Tracked.step (hs : s.Tracked h) {a : StreamAction} {cs : List Committed}
    (hadvancing : s.Advancing a) (hfits : s.Unwrapped a) (hstep : s.step a = some (s', cs)) :
    s'.Tracked (h ++ cs) := by
  obtain ⟨older, current, rfl, htracks⟩ := hs
  cases a with
  | map size alignment allowWait w =>
    cases hstep
    obtain ⟨⟨older', current', heq, htracks'⟩, -⟩ := tracks_map htracks hfits rfl
    exact ⟨older', current', by rw [List.append_nil, heq], htracks'⟩
  | commit =>
    cases hstep
    exact ⟨older, _, List.append_assoc .., htracks.commit hfits⟩
  | advance scheduler =>
    cases hstep
    exact ⟨older, current, List.append_nil _, htracks.advance hadvancing⟩

variable {sizeBytes : Nat} {atom : Option Nat} {scheduler : Scheduler}

/-- In every run in which no sum wraps, a region that is handed out is clear of every region
    that was committed with a tick that is not free. -/
theorem map_clear_of_run
    (hreach : Reaches step (fun s a => s.Advancing a ∧ s.Unwrapped a) (create sizeBytes atom scheduler) s h)
    {w : Waiting} {size alignment offset : Nat} {allowWait : Bool} {scheduler' : Scheduler} {b : StreamBuffer}
    (hfits : s.Unwrapped (.map size alignment allowWait w))
    (hmap : s.buffer.map s.scheduler w size alignment allowWait = (some offset, scheduler', b)) :
    ∀ c ∈ h, scheduler'.isFree c.tick = false → offset + s.roundedSize size ≤ c.start ∨ c.stop ≤ offset := by
  have htracked : s.Tracked h := by
    refine hreach.invariant (P := fun s h => s.Tracked h) ⟨[], [], rfl, StreamBuffer.tracks_create⟩ ?_
    exact fun _ _ _ _ _ hs hallowed hstep => hs.step hallowed.1 hallowed.2 hstep
  obtain ⟨older, current, rfl, htracks⟩ := htracked
  exact (tracks_map htracks hfits hmap).2 offset rfl

/-- The GPU is done with what has a tick up to `done`. -/
def gpuAt (currentTick done : Nat) : Scheduler where
  currentTick := currentTick
  isFree := fun t => decide (t ≤ done)
  free_of_le := fun _ _ hle hfree => decide_eq_true (hle.trans (of_decide_eq_true hfree))

/-- Waiting for a tick frees it and what is older, and nothing else. -/
def waitOnly : Waiting where
  wait := fun s t =>
    { currentTick := s.currentTick
      isFree := fun t' => s.isFree t' || decide (t' ≤ t)
      free_of_le := fun a b hle hfree => by
        rw [Bool.or_eq_true, decide_eq_true_eq] at hfree ⊢
        exact hfree.imp (s.free_of_le a b hle) hle.trans }
  advances := fun _ _ => ⟨le_rfl, fun _ hfree => Bool.or_eq_true_iff.mpr (.inl hfree)⟩
  isFree := fun _ _ => Bool.or_eq_true_iff.mpr (.inr (decide_eq_true le_rfl))

/-- Two regions with two ticks. The lap after them waits for the first and leaves the second in flight. -/
theorem map_clear_nextLap : ∃ s h,
    Reaches step (fun s a => s.Advancing a ∧ s.Unwrapped a) (create 16 none (gpuAt 1 0)) s h ∧
    h = [⟨0, 6, 1⟩, ⟨6, 12, 2⟩] ∧ ∃ scheduler b,
      s.buffer.map s.scheduler waitOnly 5 0 true = (some 0, scheduler, b) ∧
      scheduler.isFree 1 = true ∧ scheduler.isFree 2 = false ∧
      ∀ c ∈ h, scheduler.isFree c.tick = false → 0 + s.roundedSize 5 ≤ c.start ∨ c.stop ≤ 0 := by
  have hlap : (gpuAt 1 0).Advances (gpuAt 2 0) := ⟨by decide, fun _ hfree => hfree⟩
  have hreach : Reaches step (fun s a => s.Advancing a ∧ s.Unwrapped a) (create 16 none (gpuAt 1 0)) _ _ :=
    .step (a := .commit) (.step (a := .map 6 0 true waitOnly) (.step (a := .advance (gpuAt 2 0))
      (.step (a := .commit) (.step (a := .map 6 0 true waitOnly) .start
      ⟨by exact trivial, by unfold Unwrapped; decide⟩ rfl)
      ⟨by exact trivial, by unfold Unwrapped; with_unfolding_all decide⟩ rfl)
      ⟨by with_unfolding_all exact hlap, by exact trivial⟩ rfl)
      ⟨by exact trivial, by unfold Unwrapped; with_unfolding_all decide⟩ rfl)
      ⟨by exact trivial, by unfold Unwrapped; with_unfolding_all decide⟩ rfl
  refine ⟨_, _, hreach, by with_unfolding_all decide, _, _,
    Prod.ext (by with_unfolding_all decide) rfl, by with_unfolding_all decide,
    by with_unfolding_all decide, ?_⟩
  exact @map_clear_of_run _ _ _ _ _ hreach waitOnly 5 0 0 true _ _ (by unfold Unwrapped; with_unfolding_all decide)
    (Prod.ext (by with_unfolding_all decide) rfl)

/-- An alignment of `2 ^ 64 - 1` makes the offset wrap. The region after it begins at 3, in the first
    region, which is in flight. -/
theorem map_overlaps : ¬∀ sizeBytes atom scheduler s h,
    Reaches step Advancing (create sizeBytes atom scheduler) s h →
    ∀ w size alignment allowWait offset scheduler' b,
      s.buffer.map s.scheduler w size alignment allowWait = (some offset, scheduler', b) →
      ∀ c ∈ h, scheduler'.isFree c.tick = false → offset + size ≤ c.start ∨ c.stop ≤ offset := by
  intro hall
  have hreach : Reaches step Advancing (create 16 none (gpuAt 1 0)) _ _ :=
    .step (a := .commit) (.step (a := .map 4 (2 ^ 64 - 1) true waitOnly)
      (.step (a := .commit) (.step (a := .map 5 0 true waitOnly) .start (by exact trivial) rfl)
      (by exact trivial) rfl) (by exact trivial) rfl) (by exact trivial) rfl
  have hclear : 3 + 2 ≤ 0 ∨ 5 ≤ 3 := hall _ _ _ _ _ hreach waitOnly 2 0 true 3 _ _
    (Prod.ext (by with_unfolding_all decide) rfl) ⟨0, 5, 1⟩ (by with_unfolding_all decide) (by with_unfolding_all decide)
  omega

end Stream

end VideoCore
