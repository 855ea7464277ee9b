-- SUMMARY: The store of pipeline blobs: saves, the worker that writes them and the closing call as they interleave, and when none is lost.
import W7PS4.Lib.Reaches
import Mathlib

/-!
# The pipeline store

`Save` queues a request under one mutex and counts it under another. The worker waits for the
count, then takes requests from the queue until the count is zero, and takes each off the count
without a mutex. It looks whether it should stop before it waits and again before it drains the
queue, so what is queued when the stop request arrives is written if the worker is draining
already, and lost if it is not.
-/

namespace Storage

universe u

/-- Where the worker is in `ProcessIO`. A request is a blob and the number of its submission. -/
inductive WorkerStage (α : Type u) where
  /-- The test of the outer loop. -/
  | outer
  | waiting
  /-- The test after the wait. -/
  | woken
  /-- The test of the inner loop. -/
  | drain
  | pop
  | run (request : α × Nat)
  /-- The request is done; what is left is to take it off the count, which reads and writes it. -/
  | ran
  | decrement (read : UInt32)
  | exited
deriving DecidableEq, Repr

/-- The count the worker has read and is about to write back, less one. -/
def WorkerStage.reading {α : Type u} : WorkerStage α → Option UInt32
  | .decrement read => some read
  | _ => none

def WorkerStage.isRan {α : Type u} : WorkerStage α → Bool
  | .ran => true
  | _ => false

inductive CloseStage where
  | notCalled
  | called
  | stopping
  | joined
  | returned
deriving DecidableEq, Repr

structure DataBase (α : Type u) where
  opened : Bool
  reqQueue : List (α × Nat)
  numRequests : UInt32
  stopRequested : Bool
  worker : WorkerStage α
  /-- The calls of `Save` that have seen the store open. -/
  starting : List α
  /-- The calls of `Save` that have queued the request of the given number. -/
  queued : List Nat
  /-- The call of `Save` that holds `submit_mutex`, and the count it has read. -/
  counting : Option (Nat × UInt32)
  close : CloseStage
  /-- All blobs that were queued, in order. -/
  submitted : List α
  /-- The submissions whose `Save` returned true before `Close` was called. -/
  saved : List Nat
deriving DecidableEq

inductive Action (α : Type u) where
  | beginSave (blob : α)
  | queue (i : Nat)
  | lock (i : Nat)
  | count
  | work
  | close
deriving DecidableEq, Repr

namespace DataBase

variable {α : Type u}

/-- After `Open`. -/
def start : DataBase α where
  opened := true
  reqQueue := []
  numRequests := 0
  stopRequested := false
  worker := .outer
  starting := []
  queued := []
  counting := none
  close := .notCalled
  submitted := []
  saved := []

/-! ## Steps -/

/-- The next step of `ProcessIO`, and what it writes. -/
def processIo (s : DataBase α) : Option (DataBase α × List (α × Nat)) :=
  match s.worker with
  | .outer => some ({ s with worker := if s.stopRequested then .exited else .waiting }, [])
  | .waiting =>
    -- The predicate is evaluated under `submit_mutex`.
    if s.counting.isNone ∧ (s.numRequests ≠ 0 ∨ s.stopRequested) then
      some ({ s with worker := .woken }, [])
    else none
  | .woken => some ({ s with worker := if s.stopRequested then .exited else .drain }, [])
  | .drain => some ({ s with worker := if s.numRequests ≠ 0 then .pop else .outer }, [])
  | .pop =>
    match s.reqQueue with
    | [] => some ({ s with worker := .drain }, [])
    | request :: rest => some ({ s with reqQueue := rest, worker := .run request }, [])
  | .run request => some ({ s with worker := .ran }, [request])
  | .ran => some ({ s with worker := .decrement s.numRequests }, [])
  | .decrement read => some ({ s with numRequests := read - 1, worker := .drain }, [])
  | .exited => none

/-- The next step of `Close`. -/
def closeStep (s : DataBase α) : Option (DataBase α) :=
  match s.close with
  | .notCalled => some { s with close := if s.opened then .called else .returned }
  | .called => some { s with stopRequested := true, close := .stopping }
  | .stopping =>
    match s.worker with
    | .exited => some { s with close := .joined }
    | _ => none
  | .joined => some { s with opened := false, close := .returned }
  | .returned => none

def step (s : DataBase α) : Action α → Option (DataBase α × List (α × Nat))
  | .beginSave blob => if s.opened then some ({ s with starting := s.starting ++ [blob] }, []) else none
  | .queue i =>
    match s.starting[i]? with
    | some blob => some ({ s with
        starting := s.starting.eraseIdx i
        reqQueue := s.reqQueue ++ [(blob, s.submitted.length)]
        queued := s.queued ++ [s.submitted.length]
        submitted := s.submitted ++ [blob] }, [])
    | none => none
  | .lock i =>
    match s.queued[i]?, s.counting with
    | some number, none => some ({ s with
        queued := s.queued.eraseIdx i
        counting := some (number, s.numRequests) }, [])
    | _, _ => none
  | .count =>
    match s.counting with
    | some (number, read) => some ({ s with
        numRequests := read + 1
        counting := none
        saved := if s.close = .notCalled then s.saved ++ [number] else s.saved }, [])
    | none => none
  | .work => s.processIo
  | .close => s.closeStep.map fun s => (s, [])

/-! ## What is kept, and when -/

/-- The requests that the worker leaves in the queue if it is told to stop now and no more are counted. -/
def left (s : DataBase α) : List (α × Nat) :=
  match s.worker with
  | .drain | .pop => s.reqQueue.drop s.numRequests.toNat
  | .run _ | .ran => s.reqQueue.drop (s.numRequests.toNat - 1)
  | .decrement read => s.reqQueue.drop (read.toNat - 1)
  | .outer | .waiting | .woken | .exited => s.reqQueue

/-- Nothing is lost: what has been written is what was submitted, in that order, and every submission
    that was saved in time is among it exactly once. -/
structure Kept (s : DataBase α) (written : List (α × Nat)) : Prop where
  order : written <+: s.submitted.zipIdx
  once : ∀ n ∈ s.saved, (written.map Prod.snd).count n = 1

/-- Where the steps keep every blob: a stop request finds no saved blob among those the worker leaves,
    the count does not wrap around, and `Save` and the worker do not change it at the same time. -/
def Keeps (s : DataBase α) : Action α → Prop
  | .lock _ => s.worker.reading = none
  | .count => ∀ c ∈ s.counting, c.2.toNat + 1 < 2 ^ 32
  | .work => s.worker.isRan = true → s.counting = none
  | .close => s.close = .called → ∀ request ∈ s.left, request.2 ∉ s.saved
  | _ => True

instance (s : DataBase α) : ∀ action, Decidable (Keeps s action)
  | .lock _ => inferInstanceAs (Decidable (s.worker.reading = none))
  | .count => inferInstanceAs (Decidable (∀ c ∈ s.counting, c.2.toNat + 1 < 2 ^ 32))
  | .work => inferInstanceAs (Decidable (s.worker.isRan = true → s.counting = none))
  | .close => inferInstanceAs (Decidable (s.close = .called → ∀ request ∈ s.left, request.2 ∉ s.saved))
  | .beginSave _ => inferInstanceAs (Decidable True)
  | .queue _ => inferInstanceAs (Decidable True)

/-! ## The invariant -/

/-- The request the worker has taken and not yet written. -/
def held (s : DataBase α) : List (α × Nat) :=
  match s.worker with
  | .run request => [request]
  | _ => []

structure Sound (s : DataBase α) (written : List (α × Nat)) : Prop where
  requests : written ++ s.held ++ s.reqQueue = s.submitted.zipIdx
  saved : ∀ n ∈ s.saved, n < s.submitted.length
  queued : ∀ n ∈ s.queued, n < s.submitted.length
  counting : ∀ number read, s.counting = some (number, read) →
    number < s.submitted.length ∧ read = s.numRequests ∧ s.worker.reading = none
  stopping : s.stopRequested = true ↔ s.close ≠ .notCalled ∧ s.close ≠ .called
  spared : s.stopRequested = true → ∀ request ∈ s.left, request.2 ∉ s.saved
  joined : s.close = .joined ∨ s.close = .returned → s.worker = .exited
  opened : s.close ≠ .returned → s.opened = true

variable {s s' : DataBase α} {written events : List (α × Nat)}

theorem sound_start : Sound (start : DataBase α) [] where
  requests := rfl
  saved := fun n hn => by cases hn
  queued := fun n hn => by cases hn
  counting := fun number read h => by cases h
  stopping := by simp [start]
  spared := fun h => by cases h
  joined := fun h => by simp [start] at h
  opened := fun _ => rfl

/-- What a step of the worker can do to the state. -/
structure Worked (s s' : DataBase α) (events : List (α × Nat)) : Prop where
  requests : events ++ s'.held ++ s'.reqQueue = s.held ++ s.reqQueue
  left : s'.left ⊆ s.left
  running : s.worker ≠ .exited
  reading : s'.worker.reading = none ∨ s.worker.isRan = true
  numRequests : s.worker.reading = none → s'.numRequests = s.numRequests
  frame : s'.opened = s.opened ∧ s'.stopRequested = s.stopRequested ∧ s'.starting = s.starting ∧
    s'.queued = s.queued ∧ s'.counting = s.counting ∧ s'.close = s.close ∧
    s'.submitted = s.submitted ∧ s'.saved = s.saved

theorem left_decremented (read : UInt32) : read.toNat - 1 ≤ (read - 1).toNat := by
  rw [UInt32.toNat_sub]
  have := read.toNat_lt
  have : (1 : UInt32).toNat = 1 := rfl
  omega

theorem processIo_worked (hstep : s.processIo = some (s', events)) : Worked s s' events := by
  obtain ⟨opened, queue, requests, stop, worker, starting, queued, counting, close, submitted, saved⟩ := s
  cases worker with
  | outer =>
    simp only [processIo, Option.some.injEq, Prod.mk.injEq] at hstep
    obtain ⟨rfl, rfl⟩ := hstep
    cases stop <;> exact ⟨rfl, fun _ h => h, by simp, .inl rfl, fun _ => rfl, by simp⟩
  | waiting =>
    simp only [processIo, Option.ite_none_right_eq_some, Option.some.injEq, Prod.mk.injEq] at hstep
    obtain ⟨-, rfl, rfl⟩ := hstep
    exact ⟨rfl, fun _ h => h, by simp, .inl rfl, fun _ => rfl, by simp⟩
  | woken =>
    simp only [processIo, Option.some.injEq, Prod.mk.injEq] at hstep
    obtain ⟨rfl, rfl⟩ := hstep
    cases stop with
    | true => exact ⟨rfl, fun _ h => h, by simp, .inl rfl, fun _ => rfl, by simp⟩
    | false => exact ⟨rfl, List.drop_subset _ _, by simp, .inl rfl, fun _ => rfl, by simp⟩
  | drain =>
    simp only [processIo, Option.some.injEq, Prod.mk.injEq] at hstep
    obtain ⟨rfl, rfl⟩ := hstep
    by_cases hzero : requests = 0
    · subst hzero
      exact ⟨rfl, fun _ h => h, by simp, .inl rfl, fun _ => rfl, by simp⟩
    · simp only [ne_eq, hzero, not_false_eq_true, if_true]
      exact ⟨rfl, fun _ h => h, by simp, .inl rfl, fun _ => rfl, by simp⟩
  | pop =>
    cases queue with
    | nil =>
      simp only [processIo, Option.some.injEq, Prod.mk.injEq] at hstep
      obtain ⟨rfl, rfl⟩ := hstep
      exact ⟨rfl, fun _ h => h, by simp, .inl rfl, fun _ => rfl, by simp⟩
    | cons request rest =>
      simp only [processIo, Option.some.injEq, Prod.mk.injEq] at hstep
      obtain ⟨rfl, rfl⟩ := hstep
      refine ⟨rfl, fun r hr => ?_, by simp, .inl rfl, fun _ => rfl, by simp⟩
      -- What is dropped from the rest is dropped from the whole.
      simp only [left] at hr ⊢
      cases hn : requests.toNat with
      | zero => exact List.mem_cons_of_mem _ (by simpa [hn] using hr)
      | succ n => simpa [hn] using hr
  | run request =>
    simp only [processIo, Option.some.injEq, Prod.mk.injEq] at hstep
    obtain ⟨rfl, rfl⟩ := hstep
    exact ⟨rfl, fun _ h => h, by simp, .inl rfl, fun _ => rfl, by simp⟩
  | ran =>
    simp only [processIo, Option.some.injEq, Prod.mk.injEq] at hstep
    obtain ⟨rfl, rfl⟩ := hstep
    exact ⟨rfl, fun _ h => h, by simp, .inr rfl, fun _ => rfl, by simp⟩
  | decrement read =>
    simp only [processIo, Option.some.injEq, Prod.mk.injEq] at hstep
    obtain ⟨rfl, rfl⟩ := hstep
    exact ⟨rfl, List.drop_subset_drop_left _ (left_decremented read), by simp, .inl rfl,
      fun h => (by cases h), by simp⟩
  | exited => simp [processIo] at hstep

theorem Sound.processIo (h : Sound s written) (hkeeps : Keeps s .work)
    (hstep : s.processIo = some (s', events)) : Sound s' (written ++ events) := by
  have hworked := processIo_worked hstep
  obtain ⟨hopened, hstop, -, hqueued, hcounting, hclose, hsubmitted, hsaved⟩ := hworked.frame
  refine ⟨?_, ?_, ?_, ?_, ?_, ?_, ?_, ?_⟩
  · rw [hsubmitted, ← h.requests, List.append_assoc written, List.append_assoc written,
      hworked.requests, List.append_assoc]
  · rw [hsaved, hsubmitted]
    exact h.saved
  · rw [hqueued, hsubmitted]
    exact h.queued
  · intro number read hread
    rw [hcounting] at hread
    obtain ⟨hlt, hcount, hidle⟩ := h.counting number read hread
    refine ⟨hsubmitted ▸ hlt, hcount.trans (hworked.numRequests hidle).symm, ?_⟩
    rcases hworked.reading with hreading | hran
    · exact hreading
    -- The worker reads the count only while nobody else is about to write it.
    · rw [hkeeps hran] at hread
      cases hread
  · rw [hstop, hclose]
    exact h.stopping
  · rw [hstop, hsaved]
    exact fun hstopped request hrequest => h.spared hstopped request (hworked.left hrequest)
  · rw [hclose]
    exact fun hjoined => absurd (h.joined hjoined) hworked.running
  · rw [hclose, hopened]
    exact h.opened

theorem mem_left_append {request new : α × Nat} (hmem : request ∈ s'.left) (hqueue : s'.reqQueue = s.reqQueue ++ [new])
    (hworker : s'.worker = s.worker) (hcount : s'.numRequests = s.numRequests) :
    request ∈ s.left ++ [new] := by
  have hdrop : ∀ n, (s.reqQueue ++ [new]).drop n ⊆ s.reqQueue.drop n ++ [new] := fun n => by
    rw [List.drop_append]
    exact List.append_subset.mpr ⟨List.subset_append_left _ _,
      List.Subset.trans (List.drop_subset _ _) (List.subset_append_right _ _)⟩
  unfold left at hmem ⊢
  rw [hworker, hqueue, hcount] at hmem
  cases hw : s.worker <;> simp only [hw] at hmem ⊢
  case drain | pop | run | ran | decrement => exact hdrop _ hmem
  all_goals exact hmem

/-- Where the count does not shrink, no more is left. -/
theorem mem_left_of_le {request : α × Nat} (hmem : request ∈ s'.left) (hqueue : s'.reqQueue = s.reqQueue)
    (hworker : s'.worker = s.worker) (hcount : s.numRequests.toNat ≤ s'.numRequests.toNat) :
    request ∈ s.left := by
  unfold left at hmem ⊢
  rw [hworker, hqueue] at hmem
  cases hw : s.worker <;> simp only [hw] at hmem ⊢
  case drain | pop => exact List.drop_subset_drop_left _ hcount hmem
  case run | ran => exact List.drop_subset_drop_left _ (Nat.sub_le_sub_right hcount 1) hmem
  all_goals exact hmem

theorem Sound.queue (h : Sound s written) {i : Nat} (hstep : step s (.queue i) = some (s', events)) :
    Sound s' (written ++ events) := by
  simp only [step] at hstep
  split at hstep
  next blob _ =>
    simp only [Option.some.injEq, Prod.mk.injEq] at hstep
    obtain ⟨rfl, rfl⟩ := hstep
    have hlen : (s.submitted ++ [blob]).length = s.submitted.length + 1 := by simp
    refine ⟨?_, ?_, ?_, ?_, h.stopping, ?_, h.joined, h.opened⟩
    · rw [List.zipIdx_append, ← h.requests, List.append_nil]
      simp [held]
    · exact fun n hn => hlen ▸ Nat.lt_succ_of_lt (h.saved n hn)
    · intro n hn
      rw [hlen]
      rcases List.mem_append.mp hn with hn | hn
      · exact Nat.lt_succ_of_lt (h.queued n hn)
      · rw [List.mem_singleton.mp hn]
        exact Nat.lt_succ_self _
    · intro number read hread
      obtain ⟨hlt, hrest⟩ := h.counting number read hread
      exact ⟨hlen ▸ Nat.lt_succ_of_lt hlt, hrest⟩
    · intro hstop request hrequest hmem
      rcases List.mem_append.mp (mem_left_append (s := s) hrequest rfl rfl rfl) with hold | hnew
      · exact h.spared hstop request hold hmem
      -- The new request has a number that no save has yet.
      · have := h.saved _ hmem
        rw [List.mem_singleton.mp hnew] at this
        exact absurd this (Nat.lt_irrefl _)
  next => cases hstep

theorem Sound.lock (h : Sound s written) {i : Nat} (hkeeps : Keeps s (.lock i))
    (hstep : step s (.lock i) = some (s', events)) : Sound s' (written ++ events) := by
  simp only [step] at hstep
  split at hstep
  next number hnumber _ =>
    simp only [Option.some.injEq, Prod.mk.injEq] at hstep
    obtain ⟨rfl, rfl⟩ := hstep
    rw [List.append_nil]
    refine ⟨h.requests, h.saved, ?_, ?_, h.stopping, h.spared, h.joined, h.opened⟩
    · exact fun n hn => h.queued n (List.mem_of_mem_eraseIdx hn)
    · intro number' read hread
      simp only [Option.some.injEq, Prod.mk.injEq] at hread
      obtain ⟨rfl, rfl⟩ := hread
      exact ⟨h.queued _ (List.mem_of_getElem? hnumber), rfl, hkeeps⟩
  next => cases hstep

theorem Sound.count (h : Sound s written) (hkeeps : Keeps s .count)
    (hstep : step s .count = some (s', events)) : Sound s' (written ++ events) := by
  simp only [step] at hstep
  split at hstep
  next number read hread =>
    simp only [Option.some.injEq, Prod.mk.injEq] at hstep
    obtain ⟨rfl, rfl⟩ := hstep
    obtain ⟨hlt, rfl, hidle⟩ := h.counting number read hread
    have hfits := hkeeps _ hread
    have hone : (1 : UInt32).toNat = 1 := rfl
    rw [List.append_nil]
    refine ⟨h.requests, ?_, h.queued, fun _ _ h => (by cases h), h.stopping, ?_, h.joined, h.opened⟩
    · intro n hn
      simp only at hn
      split at hn
      · rcases List.mem_append.mp hn with hn | hn
        · exact h.saved n hn
        · rwa [List.mem_singleton.mp hn]
      · exact h.saved n hn
    · intro hstop request hrequest
      rw [if_neg (h.stopping.mp hstop).1]
      refine h.spared hstop request (mem_left_of_le hrequest rfl rfl ?_)
      change s.numRequests.toNat ≤ (s.numRequests + 1).toNat
      rw [UInt32.toNat_add, hone, Nat.mod_eq_of_lt hfits]
      exact Nat.le_succ _
  next => cases hstep

theorem Sound.close (h : Sound s written) (hkeeps : Keeps s .close)
    (hstep : step s .close = some (s', events)) : Sound s' (written ++ events) := by
  simp only [step, Option.map_eq_some_iff, Prod.mk.injEq] at hstep
  obtain ⟨s', hclosed, rfl, rfl⟩ := hstep
  rw [List.append_nil]
  have hopened := h.opened
  have hstopping := h.stopping
  have hjoined := h.joined
  simp only [closeStep] at hclosed
  split at hclosed
  next hclose =>
    simp only [Option.some.injEq] at hclosed
    subst hclosed
    rw [if_pos (hopened (by simp [hclose]))]
    exact { h with
      stopping := by simpa [hclose] using hstopping
      joined := fun h => by simp at h
      opened := fun _ => hopened (by simp [hclose]) }
  next hclose =>
    simp only [Option.some.injEq] at hclosed
    subst hclosed
    exact { h with
      stopping := by simp
      spared := fun _ => hkeeps hclose
      joined := fun h => by simp at h
      opened := fun _ => hopened (by simp [hclose]) }
  next hclose =>
    split at hclosed
    next hexited =>
      simp only [Option.some.injEq] at hclosed
      subst hclosed
      exact { h with
        stopping := by simpa [hclose] using hstopping
        joined := fun _ => hexited
        opened := fun _ => hopened (by simp [hclose]) }
    next => cases hclosed
  next hclose =>
    simp only [Option.some.injEq] at hclosed
    subst hclosed
    exact { h with
      stopping := by simpa [hclose] using hstopping
      joined := fun _ => hjoined (.inl hclose)
      opened := fun h => by simp at h }
  next => cases hclosed

theorem Sound.step {action : Action α} (h : Sound s written) (hkeeps : Keeps s action)
    (hstep : step s action = some (s', events)) : Sound s' (written ++ events) := by
  cases action with
  | beginSave blob =>
    simp only [DataBase.step, Option.ite_none_right_eq_some, Option.some.injEq, Prod.mk.injEq] at hstep
    obtain ⟨-, rfl, rfl⟩ := hstep
    rw [List.append_nil]
    exact { h with }
  | queue i => exact h.queue hstep
  | lock i => exact h.lock hkeeps hstep
  | count => exact h.count hkeeps hstep
  | work => exact h.processIo hkeeps hstep
  | close => exact h.close hkeeps hstep

theorem sound_of_reaches (hreach : Reaches DataBase.step Keeps start s written) : Sound s written :=
  Reaches.invariant sound_start (fun _ _ _ _ _ h hkeeps hstep => h.step hkeeps hstep) hreach

/-! ## What is saved is written -/

/-- Nothing is lost in a run whose steps keep every blob. -/
theorem kept_of_reaches (hreach : Reaches DataBase.step Keeps start s written)
    (hreturned : s.close = .returned) : Kept s written := by
  have hsound := sound_of_reaches hreach
  have hexited := hsound.joined (.inr hreturned)
  have hstop := hsound.stopping.mpr (by simp [hreturned])
  have hrequests : written ++ s.reqQueue = s.submitted.zipIdx := by
    have hheld : s.held = [] := by simp [held, hexited]
    rw [← hsound.requests, hheld, List.append_nil]
  have hnumbers : (written ++ s.reqQueue).map Prod.snd = List.range s.submitted.length := by
    rw [hrequests, List.zipIdx_map_snd, List.range_eq_range']
  refine ⟨⟨_, hrequests⟩, fun n hn => ?_⟩
  have hnotLeft : n ∉ s.reqQueue.map Prod.snd := by
    intro hmem
    obtain ⟨request, hrequest, rfl⟩ := List.mem_map.mp hmem
    refine hsound.spared hstop request ?_ hn
    simpa [left, hexited] using hrequest
  have hcount : ((written ++ s.reqQueue).map Prod.snd).count n = 1 := by
    rw [hnumbers]
    exact List.count_eq_one_of_mem List.nodup_range (List.mem_range.mpr (hsound.saved n hn))
  rwa [List.map_append, List.count_append, List.count_eq_zero.mpr hnotLeft, Nat.add_zero] at hcount

/-- Two blobs are saved, the second one as the worker drains the queue, and the store is closed then. -/
def savedTwice : List (Action String) :=
  [.beginSave "meta", .queue 0, .lock 0, .count, .work, .work, .work, .beginSave "spv", .queue 0, .lock 0,
    .count, .work, .work, .close, .close, .work, .work, .work, .work, .work, .work, .work, .work, .work,
    .work, .close, .close]

theorem kept_savedTwice : ∃ (s : DataBase String) (written : List (String × Nat)),
    Reaches DataBase.step Keeps start s written ∧ s.saved = [0, 1] ∧ s.close = .returned ∧ Kept s written := by
  have hrun : (runAllowed DataBase.step Keeps start [] savedTwice).any (fun r =>
      decide (r.1.saved = [0, 1] ∧ r.1.close = .returned)) = true := by decide
  obtain ⟨⟨s, written⟩, hrun, hend⟩ := (Option.any_eq_true _ _).mp hrun
  obtain ⟨hsaved, hreturned⟩ := of_decide_eq_true hend
  have hreach := Reaches.start.of_runAllowed hrun
  exact ⟨s, written, hreach, hsaved, hreturned, kept_of_reaches hreach hreturned⟩

/-- A stop request that arrives before the worker has woken up. -/
def closedAtOnce : List (Action String) :=
  [.beginSave "meta", .queue 0, .lock 0, .count, .work, .close, .close, .work, .work, .close, .close]

/-- The blob is saved, and `Close` returns with nothing written. -/
theorem lost_closedAtOnce : ¬∀ (s : DataBase String) (written : List (String × Nat)),
    Reaches DataBase.step (fun _ _ => True) start s written → s.close = .returned → Kept s written := by
  intro hall
  have hrun : (runAllowed DataBase.step (fun _ _ => True) start [] closedAtOnce).any (fun r =>
      decide (r.1.saved = [0] ∧ r.1.close = .returned ∧ r.2 = [])) = true := by decide
  obtain ⟨⟨s, written⟩, hrun, hend⟩ := (Option.any_eq_true _ _).mp hrun
  obtain ⟨hsaved, hreturned, rfl⟩ := of_decide_eq_true hend
  have hmem : 0 ∈ s.saved := (congrArg (0 ∈ ·) hsaved).mpr (List.mem_singleton_self 0)
  exact absurd ((hall s [] (Reaches.start.of_runAllowed hrun) hreturned).once 0 hmem) (by decide)

end DataBase

end Storage
