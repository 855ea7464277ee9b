-- SUMMARY: Partial functions changed on a set of places, and how such changes compose.
import Mathlib.Data.Set.Card

/-!
# Changes on a set of places

`updateOn S g m` is the partial function `m` with its values at the places of `S`
changed by `g`. It is defined where `m` is. The rules say when two changes are
one, and when a change may be read on a smaller set.
-/

universe u v

variable {ι : Type u} {β : Type v}

open Classical in
/-- `m` with the values at `S` changed by `g`. -/
noncomputable def updateOn (S : Set ι) (g : β → β) (m : ι → Option β) : ι → Option β :=
  fun p => if p ∈ S then (m p).map g else m p

section

variable {S T : Set ι} {g : β → β} {m : ι → Option β} {p : ι} {x : β}

theorem updateOn_of_mem (hp : p ∈ S) : updateOn S g m p = (m p).map g := if_pos hp

theorem updateOn_of_notMem (hp : p ∉ S) : updateOn S g m p = m p := if_neg hp

@[simp] theorem updateOn_empty : updateOn ∅ g m = m := by
  funext p
  exact updateOn_of_notMem (by simp)

theorem updateOn_eq_some :
    updateOn S g m p = some x ↔ ∃ y, m p = some y ∧ (p ∈ S ∧ g y = x ∨ p ∉ S ∧ y = x) := by
  by_cases hp : p ∈ S
  · simp [updateOn_of_mem hp, hp]
  · simp [updateOn_of_notMem hp, hp]

@[simp] theorem isSome_updateOn : (updateOn S g m p).isSome = (m p).isSome := by
  by_cases hp : p ∈ S
  · simp [updateOn_of_mem hp]
  · simp [updateOn_of_notMem hp]

/-- The same change on two sets, one after the other. -/
theorem updateOn_updateOn (hg : ∀ x, g (g x) = g x) :
    updateOn T g (updateOn S g m) = updateOn (S ∪ T) g m := by
  funext p
  by_cases hS : p ∈ S
  · rw [updateOn_of_mem (S := S ∪ T) (.inl hS)]
    by_cases hT : p ∈ T
    · rw [updateOn_of_mem hT, updateOn_of_mem hS, Option.map_map]
      congr 1
      funext x
      exact hg x
    · rw [updateOn_of_notMem hT, updateOn_of_mem hS]
  · by_cases hT : p ∈ T
    · rw [updateOn_of_mem hT, updateOn_of_notMem hS, updateOn_of_mem (S := S ∪ T) (.inr hT)]
    · rw [updateOn_of_notMem hT, updateOn_of_notMem hS, updateOn_of_notMem (by simp [hS, hT])]

/-- Places where the change has no effect do not matter. -/
theorem updateOn_congr (h : ∀ p x, m p = some x → (p ∈ S ↔ p ∈ T) ∨ g x = x) :
    updateOn S g m = updateOn T g m := by
  funext p
  cases hx : m p with
  | none =>
    have hnone : ∀ U : Set ι, updateOn U g m p = none := by
      intro U
      rw [← Option.not_isSome_iff_eq_none, isSome_updateOn]
      simp [hx]
    rw [hnone, hnone]
  | some x =>
    have hread : ∀ U : Set ι, updateOn U g m p = some (g x) ∨ updateOn U g m p = some x := by
      intro U
      by_cases hp : p ∈ U
      · exact .inl (by rw [updateOn_of_mem hp, hx]; rfl)
      · exact .inr (by rw [updateOn_of_notMem hp, hx])
    rcases h p x hx with hiff | hfix
    · by_cases hp : p ∈ S
      · rw [updateOn_of_mem hp, updateOn_of_mem (hiff.1 hp)]
      · rw [updateOn_of_notMem hp, updateOn_of_notMem fun hT => hp (hiff.2 hT)]
    · rw [hfix] at hread
      rw [(hread S).elim id id, (hread T).elim id id]

end
