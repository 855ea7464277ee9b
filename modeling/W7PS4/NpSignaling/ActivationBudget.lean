-- SUMMARY: The activation budget of a context is a token bucket; how many activations it grants in a window of time.
import W7PS4.Lib.TokenBucket
import W7PS4.NpSignaling.Operations
import Mathlib.Algebra.Order.Ring.Int

/-!
# The activation budget

`ConsumeActivationBudgetLocked` fills the budget up for the time since the last call, and takes the
cooldown out of it if it can. `NowUs` counts the microseconds of a clock that counts nanoseconds in
64 bits, so the sum of the budget and the time that has passed does not overflow.
-/

namespace NpSignaling

open Signaling

/-- The calls on one context with their times and answers, and the context after them. -/
def consumeActivationBudgets : NpSignalingContext → List Int → List (Int × Bool) × NpSignalingContext
  | ctx, [] => ([], ctx)
  | ctx, now :: times =>
    let (granted, ctx) := consumeActivationBudgetLocked ctx now
    let (calls, ctx) := consumeActivationBudgets ctx times
    ((now, granted) :: calls, ctx)

namespace NpSignalingContext

/-- The budget as a bucket. It is full if it has not been used. -/
def budget (ctx : NpSignalingContext) : TokenBucket Int where
  level := if ctx.activateLastUpdateUs = 0 then activateBudgetMaxUs else ctx.activateBudgetUs
  last := ctx.activateLastUpdateUs

/-- A context as it is created, or with a budget that has not been used. -/
structure Unused (ctx : NpSignalingContext) : Prop where
  within : 0 ≤ ctx.activateBudgetUs ∧ ctx.activateBudgetUs ≤ activateBudgetMaxUs
  full : ctx.activateLastUpdateUs = 0 ∨ ctx.activateBudgetUs = activateBudgetMaxUs

end NpSignalingContext

variable {ctx : NpSignalingContext} {now : Int} {times : List Int}

/-- The budget that the call looks at is what the bucket is refilled to. -/
theorem refilled_budget (hlast : ctx.activateLastUpdateUs ≤ now) :
    ctx.budget.refilled activateBudgetMaxUs now =
      if ctx.activateLastUpdateUs = 0 then activateBudgetMaxUs
      else min activateBudgetMaxUs (ctx.activateBudgetUs + max 0 (now - ctx.activateLastUpdateUs)) := by
  unfold TokenBucket.refilled NpSignalingContext.budget
  dsimp only
  split
  · next hunused =>
    rw [hunused]
    exact min_eq_left (by omega)
  · rw [max_eq_right (by omega)]

theorem consumeActivationBudgetLocked_eq (hnow : 0 < now) (hlast : ctx.activateLastUpdateUs ≤ now) :
    (consumeActivationBudgetLocked ctx now).1
        = (ctx.budget.take activateBudgetMaxUs activateCooldownUs now).1 ∧
      (consumeActivationBudgetLocked ctx now).2.budget
        = (ctx.budget.take activateBudgetMaxUs activateCooldownUs now).2 := by
  unfold consumeActivationBudgetLocked TokenBucket.take
  rw [refilled_budget hlast]
  dsimp only
  generalize (if ctx.activateLastUpdateUs = 0 then activateBudgetMaxUs
    else min activateBudgetMaxUs (ctx.activateBudgetUs + max 0 (now - ctx.activateLastUpdateUs))) = budget
  split
  · unfold NpSignalingContext.budget
    simp [hnow.ne']
  · unfold NpSignalingContext.budget
    simp [hnow.ne']

theorem consumeActivationBudgetLocked_last (ctx : NpSignalingContext) (now : Int) :
    (consumeActivationBudgetLocked ctx now).2.activateLastUpdateUs = now := by
  unfold consumeActivationBudgetLocked
  dsimp only
  generalize (if ctx.activateLastUpdateUs = 0 then activateBudgetMaxUs
    else min activateBudgetMaxUs (ctx.activateBudgetUs + max 0 (now - ctx.activateLastUpdateUs))) = budget
  split <;> rfl

/-- A sequence of calls is one on the bucket. -/
theorem consumeActivationBudgets_eq (hpos : ∀ t ∈ times, 0 < t)
    (hsorted : (ctx.activateLastUpdateUs :: times).Pairwise (· ≤ ·)) :
    (consumeActivationBudgets ctx times).1
        = (ctx.budget.run activateBudgetMaxUs activateCooldownUs times).1 ∧
      (consumeActivationBudgets ctx times).2.budget
        = (ctx.budget.run activateBudgetMaxUs activateCooldownUs times).2 := by
  induction times generalizing ctx with
  | nil => exact ⟨rfl, rfl⟩
  | cons now times ih =>
    obtain ⟨hlast, hrest⟩ := List.pairwise_cons.1 hsorted
    obtain ⟨hgranted, hbucket⟩ :=
      consumeActivationBudgetLocked_eq (hpos now (.head _)) (hlast now (.head _))
    obtain ⟨hcalls, hend⟩ := ih (fun t ht => hpos t (.tail _ ht))
      (by rwa [consumeActivationBudgetLocked_last] : ((consumeActivationBudgetLocked ctx
        now).2.activateLastUpdateUs :: times).Pairwise (· ≤ ·))
    rw [TokenBucket.run_cons, ← hgranted, ← hbucket, ← hcalls, ← hend]
    exact ⟨rfl, rfl⟩

/-- The last call is the last of the times. -/
theorem consumeActivationBudgets_last (ctx : NpSignalingContext) (times : List Int) :
    (consumeActivationBudgets ctx times).2.activateLastUpdateUs = times.getLastD ctx.activateLastUpdateUs := by
  induction times generalizing ctx with
  | nil => rfl
  | cons now times ih =>
    have hrest := ih (consumeActivationBudgetLocked ctx now).2
    rw [consumeActivationBudgetLocked_last] at hrest
    rw [List.getLastD_cons, ← hrest]
    rfl

namespace NpSignalingContext.Unused

theorem level (h : ctx.Unused) : ctx.budget.level = activateBudgetMaxUs := by
  unfold NpSignalingContext.budget
  dsimp only
  split
  · rfl
  · next hused => exact h.full.resolve_left hused

theorem within_budget (h : ctx.Unused) : ctx.budget.Within activateBudgetMaxUs := by
  constructor
  · rw [h.level]
    decide
  · rw [h.level]

end NpSignalingContext.Unused

/-- The stored budget stays within its bounds, a window of a length lets as many activations through
as its capacity and that length pay for, and a call that comes late enough is granted. -/
theorem activation_rateLimited (ctx : NpSignalingContext) (times : List Int) (hunused : ctx.Unused)
    (hpos : ∀ t ∈ times, 0 < t) (hsorted : (ctx.activateLastUpdateUs :: times).Pairwise (· ≤ ·)) :
    (∀ before after, times = before ++ after →
        0 ≤ (consumeActivationBudgets ctx before).2.activateBudgetUs ∧
          (consumeActivationBudgets ctx before).2.activateBudgetUs ≤ activateBudgetMaxUs) ∧
      (∀ start length, 0 ≤ length →
        (TokenBucket.grants start (start + length) (consumeActivationBudgets ctx times).1 : Int)
          ≤ (activateBudgetMaxUs + length) / activateCooldownUs) ∧
      ∀ before now after, times = before ++ now :: after →
        (∀ t ∈ before, t + activateCooldownUs ≤ now) →
          (consumeActivationBudgetLocked (consumeActivationBudgets ctx before).2 now).1 = true := by
  have hcost : (0 : Int) ≤ activateCooldownUs := by decide
  have hwithin := hunused.within_budget
  -- The calls before any of them are themselves such a sequence.
  have hbefore {before after : List Int} (htimes : times = before ++ after) :
      (∀ t ∈ before, 0 < t) ∧ (ctx.activateLastUpdateUs :: before).Pairwise (· ≤ ·) := by
    rw [htimes] at hpos hsorted
    exact ⟨fun t ht => hpos t (List.mem_append_left _ ht),
      hsorted.sublist (List.Sublist.cons_cons _ (List.sublist_append_left _ _))⟩
  have hbudget {before after : List Int} (htimes : times = before ++ after) :
      (consumeActivationBudgets ctx before).2.budget.Within activateBudgetMaxUs := by
    obtain ⟨hpos', hsorted'⟩ := hbefore htimes
    rw [(consumeActivationBudgets_eq hpos' hsorted').2]
    exact hwithin.run hcost hsorted'
  refine ⟨fun before after htimes => ?_, fun start length hlength => ?_,
    fun before now after htimes hgap => ?_⟩
  · by_cases hnone : (consumeActivationBudgets ctx before).2.activateLastUpdateUs = 0
    · cases before with
      | nil => exact hunused.within
      | cons first before =>
        rw [consumeActivationBudgets_last, List.getLastD_cons] at hnone
        have hlast := (hbefore htimes).1 (before.getLastD first) List.getLastD_mem_cons
        omega
    · have hlevel := hbudget htimes
      unfold NpSignalingContext.budget at hlevel
      rw [if_neg hnone] at hlevel
      exact ⟨hlevel.nonneg, hlevel.le_cap⟩
  · have hcalls := hwithin.grants_le hcost (by omega : start ≤ start + length) hsorted
    rw [← (consumeActivationBudgets_eq hpos hsorted).1] at hcalls
    rw [Int.le_ediv_iff_mul_le (by decide)]
    calc _ ≤ activateBudgetMaxUs + (start + length - start) := hcalls
      _ = activateBudgetMaxUs + length := by omega
  · have hnow : 0 < now := hpos now (by rw [htimes]; simp)
    have hcap : activateCooldownUs ≤ activateBudgetMaxUs := by decide
    have hlast := consumeActivationBudgets_last ctx before
    cases before with
    | nil =>
      have hle : ctx.activateLastUpdateUs ≤ now :=
        (List.pairwise_cons.1 hsorted).1 now (by rw [htimes]; exact .head _)
      refine (consumeActivationBudgetLocked_eq hnow hle).1.trans (TokenBucket.take_granted hcap ?_)
      rw [hunused.level]
      have hsince : 0 ≤ now - ctx.budget.last := sub_nonneg.2 hle
      omega
    | cons first before =>
      rw [List.getLastD_cons] at hlast
      have hgap := hgap _ List.getLastD_mem_cons
      rw [← hlast] at hgap
      have hnonneg := (hbudget htimes).nonneg
      refine (consumeActivationBudgetLocked_eq hnow (by omega)).1.trans
        (TokenBucket.take_granted hcap ?_)
      unfold NpSignalingContext.budget at hnonneg ⊢
      dsimp only at hnonneg ⊢
      omega

/-- A context that was made at time 5. -/
def newContext : NpSignalingContext :=
  ⟨true, true, 0x2, 0x3000000, 0, 0, ownerNpid, ownerNpid.handle, activateBudgetMaxUs, 5⟩

/-- A hundred and one calls in one microsecond use the budget up, and the last of them is refused. -/
theorem activation_rateLimited_newContext :
    TokenBucket.grants 10 10 (consumeActivationBudgets newContext (List.replicate 101 10)).1 = 100 ∧
    (TokenBucket.grants 10 (10 + 0) (consumeActivationBudgets newContext (List.replicate 101 10)).1 : Int)
      ≤ (activateBudgetMaxUs + 0) / activateCooldownUs :=
  ⟨by decide +kernel, (activation_rateLimited newContext (List.replicate 101 10) ⟨by decide, .inr rfl⟩
    (by decide) (by decide)).2.1 10 0 (by decide)⟩

end NpSignaling
