-- SUMMARY: Doubly linked lists in cells: what the links are, and how they change when a cell is added at the end or taken out.
import Mathlib.Data.List.Nodup
import Mathlib.Tactic.Common

/-!
# Linked cells

The cells of a doubly linked list, in the order of the list. Each knows the one behind it and the
one before it. The lemmas say which links have to change; how a program changes them is its own
business.
-/

variable {ι : Type*}

structure Links (ι : Type*) where
  next : Option ι
  prev : Option ι
deriving DecidableEq, Repr

/-- The links lead from each cell to its neighbours in the list. -/
def Linked (links : ι → Links ι) (ids : List ι) : Prop :=
  ∀ before a after, ids = before ++ a :: after → links a = ⟨after.head?, before.getLast?⟩

namespace Linked

variable {links links' : ι → Links ι} {ids before after : List ι} {a b : ι}

theorem nil : Linked links [] := by
  intro before a after h
  simp at h

theorem congr (h : Linked links ids) (hsame : ∀ b ∈ ids, links' b = links b) : Linked links' ids := by
  intro before a after hids
  rw [hsame a (by rw [hids]; simp)]
  exact h before a after hids

/-- The last cell of a list without repetitions. -/
theorem getLast?_eq_some_iff (h : (before ++ a :: after).Nodup) :
    (before ++ a :: after).getLast? = some a ↔ after = [] := by
  rcases List.eq_nil_or_concat after with rfl | ⟨rest, b, rfl⟩
  · simp
  · have hne : b ≠ a := by
      rintro rfl
      simp [List.nodup_append] at h
    have hlast : (before ++ a :: rest.concat b).getLast? = some b := by
      rw [List.concat_eq_append, ← List.cons_append, ← List.append_assoc, List.getLast?_concat]
    rw [hlast]
    simp [hne]

/-- The first cell of a list without repetitions. -/
theorem head?_eq_some_iff (h : (before ++ a :: after).Nodup) :
    (before ++ a :: after).head? = some a ↔ before = [] := by
  cases before with
  | nil => simp
  | cons b before =>
    have hne : b ≠ a := by
      rintro rfl
      simp at h
    simp [hne]

/-- A cell is added behind the last one. -/
theorem concat (h : Linked links ids) (hnodup : ids.Nodup) (ha : links' a = ⟨none, ids.getLast?⟩)
    (hlast : ∀ b, ids.getLast? = some b → links' b = ⟨some a, (links b).prev⟩)
    (hother : ∀ b ∈ ids, ids.getLast? ≠ some b → links' b = links b) : Linked links' (ids ++ [a]) := by
  intro before x after heq
  rcases List.eq_nil_or_concat after with rfl | ⟨rest, y, rfl⟩
  · obtain ⟨rfl, hx⟩ := List.append_inj' heq rfl
    obtain rfl : a = x := by simpa using hx
    exact ha
  · have hsplit : ids ++ [a] = (before ++ x :: rest) ++ [y] := by simpa using heq
    obtain ⟨rfl, hy⟩ := List.append_inj' hsplit rfl
    obtain rfl : a = y := by simpa using hy
    have hx := h before x rest rfl
    cases rest with
    | nil =>
      rw [hlast x (by simp), hx]
      rfl
    | cons z rest =>
      have hin : (before ++ x :: z :: rest).getLast? ≠ some x := by
        rw [Ne, getLast?_eq_some_iff hnodup]
        simp
      rw [hother x (by simp) hin, hx]
      rfl

/-- A split of a list in two and one at a cell: the cell is in the one part or in the other. -/
theorem split_cases {p s : List ι} (h : before ++ after = p ++ b :: s) :
    (∃ middle, p = before ++ middle ∧ after = middle ++ b :: s) ∨
      ∃ middle, before = p ++ b :: middle ∧ s = middle ++ after := by
  rcases List.append_eq_append_iff.1 h with hright | ⟨middle, hbefore, hafter⟩
  · exact .inl hright
  · cases middle with
    | nil => exact .inl ⟨[], by simpa using hbefore.symm, by simpa using hafter.symm⟩
    | cons c middle =>
      obtain ⟨rfl, rfl⟩ := List.cons.inj hafter
      exact .inr ⟨middle, hbefore, rfl⟩

variable [DecidableEq ι]

/-- A cell is taken out and its neighbours are linked. -/
theorem erase (h : Linked links (before ++ a :: after)) (hnodup : (before ++ a :: after).Nodup)
    (hkeep : ∀ b ∈ before ++ after, links' b =
      ⟨if before.getLast? = some b then after.head? else (links b).next,
        if after.head? = some b then before.getLast? else (links b).prev⟩) :
    Linked links' (before ++ after) := by
  intro p x s heq
  have hdisjoint {y : ι} (hbefore : y ∈ before) (hafter : y ∈ after) : False :=
    (List.nodup_append.1 hnodup).2.2 y hbefore y (.tail _ hafter) rfl
  rw [hkeep x (by rw [heq]; simp)]
  rcases split_cases heq with ⟨middle, rfl, rfl⟩ | ⟨middle, rfl, rfl⟩
  · have hold := h (before ++ a :: middle) x s (by simp)
    have hnotLast : before.getLast? ≠ some x := fun hlast =>
      hdisjoint (List.mem_of_getLast? hlast) (by simp)
    rw [hold, if_neg hnotLast]
    cases middle with
    | nil => simp
    | cons y middle =>
      have hne : y ≠ x := by
        rintro rfl
        simp [List.nodup_append] at hnodup
      simp [hne]
  · have hold := h p x (middle ++ a :: after) (by simp)
    have hnotFirst : after.head? ≠ some x := fun hfirst =>
      hdisjoint (by simp) (List.mem_of_head? hfirst)
    have hnodup' : (p ++ x :: middle).Nodup := (List.nodup_append.1 hnodup).1
    rw [hold, if_neg hnotFirst]
    cases middle with
    | nil => simp
    | cons y middle =>
      rw [if_neg (fun hlast => by simpa using (getLast?_eq_some_iff hnodup').1 hlast)]
      rfl

end Linked
