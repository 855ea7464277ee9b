-- SUMMARY: Machines whose steps emit events: the states and histories that runs of allowed steps reach.
import Mathlib.Data.List.Basic
import Mathlib.Tactic.Common

/-!
# Runs with a history

A machine takes one action at a time. An action may be impossible in a state; where
it is possible it leads to one state and emits events. `Reaches` collects the states
of all runs, with the events emitted on the way, oldest first. Which actions may be
taken in which states is a parameter: with `fun _ _ => True` it is every run.
-/

variable {σ α ε : Type*}

inductive Reaches (step : σ → α → Option (σ × List ε)) (allowed : σ → α → Prop) (init : σ) :
    σ → List ε → Prop
  | start : Reaches step allowed init init []
  | step {s : σ} {h : List ε} {a : α} {s' : σ} {es : List ε} :
      Reaches step allowed init s h → allowed s a → step s a = some (s', es) →
      Reaches step allowed init s' (h ++ es)

/-- A run as a function: the actions in order, stopping where one is impossible or not allowed. -/
def runAllowed (step : σ → α → Option (σ × List ε)) (allowed : σ → α → Prop)
    [∀ s a, Decidable (allowed s a)] : σ → List ε → List α → Option (σ × List ε)
  | s, h, [] => some (s, h)
  | s, h, a :: as =>
    if allowed s a then
      match step s a with
      | some (s', es) => runAllowed step allowed s' (h ++ es) as
      | none => none
    else none

/-- The step, where it is possible, leads to a state of which `P` holds. -/
def StepInto (step : σ → α → Option (σ × List ε)) (P : σ → Prop) (s : σ) (a : α) : Prop :=
  ∀ s' es, step s a = some (s', es) → P s'

namespace Reaches

variable {step : σ → α → Option (σ × List ε)} {allowed : σ → α → Prop} {init : σ}

/-- An invariant holds at the start and every allowed step keeps it. -/
theorem invariant {P : σ → List ε → Prop} (hstart : P init [])
    (hstep : ∀ s h a s' es, P s h → allowed s a → step s a = some (s', es) → P s' (h ++ es))
    {s : σ} {h : List ε} (hreach : Reaches step allowed init s h) : P s h := by
  induction hreach with
  | start => exact hstart
  | step _ hallowed hstepped ih => exact hstep _ _ _ _ _ ih hallowed hstepped

/-- Steps that keep an invariant may be looked at as allowed for another reason. -/
theorem of_invariant {allowed' : σ → α → Prop} {Inv : σ → Prop} (hstart : Inv init)
    (hstep : ∀ s a s' es, Inv s → allowed s a → step s a = some (s', es) → allowed' s a ∧ Inv s')
    {s : σ} {h : List ε} (hreach : Reaches step allowed init s h) :
    Reaches step allowed' init s h ∧ Inv s := by
  induction hreach with
  | start => exact ⟨.start, hstart⟩
  | step _ hallowed hstepped ih =>
    obtain ⟨hother, hinv⟩ := hstep _ _ _ _ ih.2 hallowed hstepped
    exact ⟨ih.1.step hother hstepped, hinv⟩

theorem of_runAllowed [∀ s a, Decidable (allowed s a)] {as : List α} :
    ∀ {s : σ} {h : List ε} {s' : σ} {h' : List ε}, Reaches step allowed init s h →
      runAllowed step allowed s h as = some (s', h') → Reaches step allowed init s' h' := by
  induction as with
  | nil =>
    intro s h s' h' hreach hrun
    simp only [runAllowed, Option.some.injEq, Prod.mk.injEq] at hrun
    obtain ⟨rfl, rfl⟩ := hrun
    exact hreach
  | cons a as ih =>
    intro s h s' h' hreach hrun
    simp only [runAllowed] at hrun
    split at hrun
    · next hallowed =>
      split at hrun
      · next hstepped => exact ih (hreach.step hallowed hstepped) hrun
      · cases hrun
    · cases hrun

/-- A run that was tried out leads to a reachable state. -/
theorem exists_of_runAllowed (step : σ → α → Option (σ × List ε)) (allowed : σ → α → Prop)
    [∀ s a, Decidable (allowed s a)] (init : σ) (as : List α) (test : σ → List ε → Bool)
    (hrun : (runAllowed step allowed init [] as).any (fun r => test r.1 r.2) = true) :
    ∃ s h, Reaches step allowed init s h ∧ test s h = true := by
  cases hr : runAllowed step allowed init [] as with
  | none =>
    rw [hr] at hrun
    cases hrun
  | some r =>
    rw [hr] at hrun
    exact ⟨r.1, r.2, of_runAllowed .start hr, hrun⟩

end Reaches
