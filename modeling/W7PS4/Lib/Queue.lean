-- SUMMARY: Queues of pointers: inserting one in order, and changing everything that is queued.
import Mathlib.Data.List.Basic
import Mathlib.Data.List.Perm.Basic
import Mathlib.Logic.Function.Basic
import Mathlib.Tactic.Common

/-!
# Queues of pointers

A queue lists places of a store. A new place is inserted after a stretch of the queue,
and a loop over the queue changes the values it points to, one by one. In a queue
without repetition each of them is changed once.

Where the places are numbered in order of arrival, a queue may be kept sorted by a key,
with ties broken by arrival. An order by another rank is then kept as long as the two
compare a new place in the same way with all that are queued.
-/

variable {ι β : Type*}

theorem perm_insert_after [DecidableEq ι] {p : ι → Bool} {a : ι} {l : List ι} :
    (l.takeWhile p ++ a :: l.dropWhile p).Perm (a :: l) := by
  refine List.perm_middle.trans (List.Perm.cons a ?_)
  rw [List.takeWhile_append_dropWhile]

variable [DecidableEq ι]

/-- Change the values at the places of `l`, in order. -/
def updateEach (f : β → β) (l : List ι) (m : ι → β) : ι → β :=
  l.foldl (fun m i => Function.update m i (f (m i))) m

variable {f : β → β} {i : ι} {l : List ι}

theorem updateEach_of_notMem (hi : i ∉ l) (m : ι → β) : updateEach f l m i = m i := by
  induction l generalizing m with
  | nil => rfl
  | cons j l ih =>
    obtain ⟨hj, hl⟩ := not_or.mp (mt List.mem_cons.mpr hi)
    exact (ih hl _).trans (Function.update_of_ne hj _ _)

theorem updateEach_of_mem (hnodup : l.Nodup) (hi : i ∈ l) (m : ι → β) :
    updateEach f l m i = f (m i) := by
  induction l generalizing m with
  | nil => cases hi
  | cons j l ih =>
    obtain ⟨hj, hnodup⟩ := List.nodup_cons.mp hnodup
    cases List.mem_cons.mp hi with
    | inl h =>
      subst h
      exact (updateEach_of_notMem hj _).trans (Function.update_self ..)
    | inr h =>
      have hne : i ≠ j := fun heq => hj (heq ▸ h)
      exact (ih hnodup h _).trans (congrArg f (Function.update_of_ne hne _ _))

/-- What the change leaves of a value, it leaves everywhere. -/
theorem updateEach_proj {γ : Type*} (g : β → γ) (hf : ∀ b, g (f b) = g b) (l : List ι) (m : ι → β) (i : ι) :
    g (updateEach f l m i) = g (m i) := by
  induction l generalizing m with
  | nil => rfl
  | cons j l ih =>
    refine (ih _).trans ?_
    by_cases hi : i = j
    · subst hi
      exact (congrArg g (Function.update_self ..)).trans (hf _)
    · exact congrArg g (Function.update_of_ne hi _ _)

/-! ## Sorted queues -/

/-- The smaller key comes first; of equal keys, the earlier arrival. -/
def Before (key : Nat → Int) (a b : Nat) : Prop := key a < key b ∨ key a = key b ∧ a < b

/-- `c` goes right before the first one with a greater key. -/
def insertByKey (key : Nat → Int) (l : List Nat) (c : Nat) : List Nat :=
  l.takeWhile (fun it => key it ≤ key c) ++ c :: l.dropWhile (fun it => key it ≤ key c)

section

variable {key key' rank rank' : Nat → Int} {a b c n : Nat} {l l' : List Nat}

theorem Before.le (h : Before key a b) : key a ≤ key b := by
  unfold Before at h
  omega

theorem Before.congr (ha : key' a = key a) (hb : key' b = key b) (h : Before key a b) : Before key' a b := by
  unfold Before at h ⊢
  rwa [ha, hb]

theorem mem_insertByKey : a ∈ insertByKey key l c ↔ a = c ∨ a ∈ l := by
  unfold insertByKey
  rw [perm_insert_after.mem_iff, List.mem_cons]

/-- The keys behind the place of `c` are greater, as the first one is. -/
theorem lt_of_mem_dropWhile (hsorted : l.Pairwise (Before key))
    (hb : b ∈ l.dropWhile (fun it => key it ≤ key c)) : key c < key b := by
  induction l with
  | nil => cases hb
  | cons a l ih =>
    obtain ⟨hfirst, hsorted⟩ := List.pairwise_cons.mp hsorted
    by_cases ha : key a ≤ key c
    · rw [List.dropWhile_cons_of_pos (by simpa using ha)] at hb
      exact ih hsorted hb
    rw [List.dropWhile_cons_of_neg (by simpa using ha)] at hb
    cases List.mem_cons.mp hb with
    | inl h =>
      rw [h]
      omega
    | inr h =>
      have hle := (hfirst b h).le
      omega

theorem le_of_mem_takeWhile (ha : a ∈ l.takeWhile (fun it => key it ≤ key c)) : key a ≤ key c :=
  of_decide_eq_true (List.all_eq_true.mp List.all_takeWhile a ha)

/-- Both orders of a queue whose members arrived before `next`. -/
structure Ordered (key rank : Nat → Int) (l : List Nat) (next : Nat) : Prop where
  sorted : l.Pairwise (Before key)
  inOrder : l.Pairwise (Before rank)
  arrived : ∀ a ∈ l, a < next

theorem Ordered.sublist (h : Ordered key rank l n) (hsub : l'.Sublist l) : Ordered key rank l' n :=
  ⟨h.sorted.sublist hsub, h.inOrder.sublist hsub, fun a ha => h.arrived a (hsub.subset ha)⟩

theorem Ordered.congr (h : Ordered key rank l n) (hkey : ∀ a < n, key' a = key a)
    (hrank : ∀ a < n, rank' a = rank a) : Ordered key' rank' l n := by
  refine ⟨h.sorted.imp_of_mem fun ha hb => ?_, h.inOrder.imp_of_mem fun ha hb => ?_, h.arrived⟩
  · exact Before.congr (hkey _ (h.arrived _ ha)) (hkey _ (h.arrived _ hb))
  · exact Before.congr (hrank _ (h.arrived _ ha)) (hrank _ (h.arrived _ hb))

theorem Ordered.mono {m : Nat} (h : Ordered key rank l n) (hle : n ≤ m) : Ordered key rank l m :=
  ⟨h.sorted, h.inOrder, fun a ha => Nat.lt_of_lt_of_le (h.arrived a ha) hle⟩

/-- A new arrival keeps the order by rank exactly when rank and key compare it in the same way. -/
theorem Ordered.insert_inOrder_iff (h : Ordered key rank l n) :
    (insertByKey key l n).Pairwise (Before rank) ↔ ∀ a ∈ l, (key a ≤ key n ↔ rank a ≤ rank n) := by
  have hsplit := List.takeWhile_append_dropWhile (p := fun it => decide (key it ≤ key n)) (l := l)
  have hmem : ∀ a, a ∈ l ↔ a ∈ l.takeWhile (fun it => key it ≤ key n) ∨ a ∈ l.dropWhile (fun it => key it ≤ key n) := by
    intro a
    rw [← List.mem_append, hsplit]
  have hbehind : ∀ a ∈ l.dropWhile (fun it => key it ≤ key n), key n < key a := fun a ha =>
    lt_of_mem_dropWhile h.sorted ha
  have hcross := h.inOrder
  rw [← hsplit, List.pairwise_append] at hcross
  obtain ⟨hfront, hback, hcross⟩ := hcross
  unfold insertByKey
  constructor
  · intro hinserted a ha
    rw [List.pairwise_append, List.pairwise_cons] at hinserted
    have hlt := h.arrived a ha
    cases (hmem a).mp ha with
    | inl hbefore =>
      exact iff_of_true (le_of_mem_takeWhile hbefore) (hinserted.2.2 a hbefore n List.mem_cons_self).le
    | inr hafter =>
      have hrank := hinserted.2.1.1 a hafter
      have hkey := hbehind a hafter
      unfold Before at hrank
      omega
  · intro hagree
    refine List.pairwise_append.mpr ⟨hfront, List.pairwise_cons.mpr ⟨fun a ha => .inl ?_, hback⟩, fun a ha b hb => ?_⟩
    · have hkey := hbehind a ha
      have hrank := hagree a ((hmem a).mpr (.inr ha))
      omega
    · cases List.mem_cons.mp hb with
      | inl hb =>
        subst hb
        have hin : a ∈ l := (hmem a).mpr (.inl ha)
        have hlt := h.arrived a hin
        have hrank := (hagree a hin).mp (le_of_mem_takeWhile ha)
        unfold Before
        omega
      | inr hb => exact hcross a ha b hb

theorem Ordered.insert (h : Ordered key rank l n) (hagree : ∀ a ∈ l, (key a ≤ key n ↔ rank a ≤ rank n)) :
    Ordered key rank (insertByKey key l n) (n + 1) := by
  refine ⟨?_, h.insert_inOrder_iff.mpr hagree, fun a ha => ?_⟩
  · exact (Ordered.insert_inOrder_iff ⟨h.sorted, h.sorted, h.arrived⟩).mpr fun _ _ => Iff.rfl
  · cases mem_insertByKey.mp ha with
    | inl h => omega
    | inr hin =>
      have hlt := h.arrived a hin
      omega

end
