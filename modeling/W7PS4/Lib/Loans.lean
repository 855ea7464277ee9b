-- SUMMARY: Tokens that are lent while their owners wait: each is always with one holder, and a waiter gets one back.
import Mathlib.Data.Multiset.AddSub
import Mathlib.Data.List.Sublists
import Mathlib.Logic.Function.Basic
import Mathlib.Tactic.Common

/-!
# Loans

Every member has a token of its own. While it waits at a place the token is lent to the place, and
when it leaves it takes one of those that are there, which need not be the one it came with.
-/

/-! ## Holdings -/

variable {H N : Type*}

/-- Every token is with one holder, once. -/
structure Spread (tokens : Set N) (bag : H → Multiset N) : Prop where
  nodup (h : H) : (bag h).Nodup
  unique {n : N} {h h' : H} : n ∈ bag h → n ∈ bag h' → h = h'
  complete (n : N) : n ∈ tokens ↔ ∃ h, n ∈ bag h

/-- The first holder gives a token to the second and keeps `rest`. -/
def handOver [DecidableEq H] (bag : H → Multiset N) (giver taker : H) (n : N) (rest : Multiset N) :
    H → Multiset N :=
  Function.update (Function.update bag giver rest) taker (n ::ₘ bag taker)

namespace Spread

variable [DecidableEq H] {tokens : Set N} {bag : H → Multiset N} {giver taker : H} {n : N}
  {rest : Multiset N}

/-- After a token changed hands it is with the taker, and the others are where they were. -/
theorem mem_handOver (h : Spread tokens bag) (hne : giver ≠ taker) (hgiver : bag giver = n ::ₘ rest)
    {x : N} {holder : H} :
    x ∈ handOver bag giver taker n rest holder ↔ holder = taker ∧ x = n ∨ x ≠ n ∧ x ∈ bag holder := by
  have hmem : n ∈ bag giver := by simp [hgiver]
  have hrest : n ∉ rest := by
    have hnodup := h.nodup giver
    rw [hgiver, Multiset.nodup_cons] at hnodup
    exact hnodup.1
  have hother {holder' : H} (hholder : holder' ≠ giver) (hx : x ∈ bag holder') : x ≠ n := by
    rintro rfl
    exact hholder (h.unique hx hmem)
  unfold handOver
  by_cases htaker : holder = taker
  · subst htaker
    rw [Function.update_self, Multiset.mem_cons]
    constructor
    · rintro (rfl | hx)
      · exact .inl ⟨rfl, rfl⟩
      · exact .inr ⟨hother hne.symm hx, hx⟩
    · rintro (⟨-, rfl⟩ | ⟨-, hx⟩)
      · exact .inl rfl
      · exact .inr hx
  · rw [Function.update_of_ne htaker]
    by_cases hholder : holder = giver
    · subst hholder
      rw [Function.update_self, hgiver, Multiset.mem_cons]
      constructor
      · intro hx
        exact .inr ⟨fun heq => hrest (heq ▸ hx), .inr hx⟩
      · rintro (⟨rfl, -⟩ | ⟨hx, rfl | hmem'⟩)
        · exact absurd rfl htaker
        · exact absurd rfl hx
        · exact hmem'
    · rw [Function.update_of_ne hholder]
      constructor
      · intro hx
        exact .inr ⟨hother hholder hx, hx⟩
      · rintro (⟨rfl, -⟩ | ⟨-, hx⟩)
        · exact absurd rfl htaker
        · exact hx

theorem nodup_handOver (h : Spread tokens bag) (hne : giver ≠ taker)
    (hgiver : bag giver = n ::ₘ rest) (holder : H) :
    (handOver bag giver taker n rest holder).Nodup := by
  have hnodup := h.nodup giver
  rw [hgiver, Multiset.nodup_cons] at hnodup
  unfold handOver
  by_cases htaker : holder = taker
  · subst htaker
    rw [Function.update_self, Multiset.nodup_cons]
    refine ⟨fun hmem => hne ?_, h.nodup holder⟩
    exact h.unique (by simp [hgiver]) hmem
  · rw [Function.update_of_ne htaker]
    by_cases hholder : holder = giver
    · subst hholder
      rw [Function.update_self]
      exact hnodup.2
    · rw [Function.update_of_ne hholder]
      exact h.nodup holder

theorem handOver (h : Spread tokens bag) (hne : giver ≠ taker) (hgiver : bag giver = n ::ₘ rest) :
    Spread tokens (handOver bag giver taker n rest) where
  nodup := h.nodup_handOver hne hgiver
  unique := by
    intro x holder holder' hx hx'
    rcases (h.mem_handOver hne hgiver).1 hx with ⟨rfl, rfl⟩ | ⟨hxn, hx⟩
    · rcases (h.mem_handOver hne hgiver).1 hx' with ⟨rfl, -⟩ | ⟨hne', -⟩
      · rfl
      · exact absurd rfl hne'
    · rcases (h.mem_handOver hne hgiver).1 hx' with ⟨-, rfl⟩ | ⟨-, hx'⟩
      · exact absurd rfl hxn
      · exact h.unique hx hx'
  complete := by
    intro x
    simp only [h.mem_handOver hne hgiver]
    constructor
    · intro hx
      by_cases hxn : x = n
      · exact ⟨taker, .inl ⟨rfl, hxn⟩⟩
      · obtain ⟨holder, hholder⟩ := (h.complete x).1 hx
        exact ⟨holder, .inr ⟨hxn, hholder⟩⟩
    · rintro ⟨holder, ⟨-, rfl⟩ | ⟨-, hx⟩⟩
      · exact (h.complete x).2 ⟨giver, by simp [hgiver]⟩
      · exact (h.complete x).2 ⟨holder, hx⟩

end Spread

/-! ## Waiting and leaving -/

variable {T W : Type*}

/-- Who has which token, who waits where, and what has been lent to the places. -/
@[ext] structure Loans (T W N : Type*) where
  own : T → Option N
  waits : T → Option W
  lent : W → Multiset N
  waiters : W → List T

/-- The members in the order in which they have last come. -/
def lastArrivals [DecidableEq T] (arrivals : List T) : List T :=
  arrivals.foldl (fun order t => order.erase t ++ [t]) []

theorem lastArrivals_append_singleton [DecidableEq T] (arrivals : List T) (t : T) :
    lastArrivals (arrivals ++ [t]) = (lastArrivals arrivals).erase t ++ [t] := by
  unfold lastArrivals
  rw [List.foldl_append]
  rfl

theorem lastArrivals_nodup [DecidableEq T] (arrivals : List T) : (lastArrivals arrivals).Nodup := by
  induction arrivals using List.reverseRecOn with
  | nil => exact List.nodup_nil
  | append_singleton arrivals t ih =>
    rw [lastArrivals_append_singleton]
    refine List.Nodup.append (ih.erase t) (List.nodup_singleton t) ?_
    simpa using fun hmem => (ih.not_mem_erase hmem)

namespace Loans

/-- The holders of the tokens are the members and the places. -/
def bag (l : Loans T W N) : T ⊕ W → Multiset N
  | .inl t => (l.own t).elim 0 fun n => {n}
  | .inr w => l.lent w

/-- The tokens are spread over the members and the places. Whoever waits has none, whoever does not
has one, and there are as many at a place as members wait there. -/
structure Sound (tokens : Set N) (arrivals : List T) [DecidableEq T] (l : Loans T W N) : Prop where
  spread : Spread tokens l.bag
  own_iff (t : T) : l.own t = none ↔ l.waits t ≠ none
  waits_iff (t : T) (w : W) : l.waits t = some w ↔ t ∈ l.waiters w
  card (w : W) : (l.lent w).card = (l.waiters w).length
  ordered (w : W) : (l.waiters w).Sublist (lastArrivals arrivals)

variable [DecidableEq T] [DecidableEq W] {tokens : Set N} {arrivals : List T} {l : Loans T W N}
  {t : T} {w : W} {n : N} {rest : Multiset N}

/-- A member starts to wait and lends its token. -/
def wait (l : Loans T W N) (t : T) (w : W) (n : N) : Loans T W N where
  own := Function.update l.own t none
  waits := Function.update l.waits t (some w)
  lent := Function.update l.lent w (n ::ₘ l.lent w)
  waiters := Function.update l.waiters w (l.waiters w ++ [t])

/-- A member leaves with a token, and `rest` stays. -/
def leave (l : Loans T W N) (t : T) (w : W) (n : N) (rest : Multiset N) : Loans T W N where
  own := Function.update l.own t (some n)
  waits := Function.update l.waits t none
  lent := Function.update l.lent w rest
  waiters := Function.update l.waiters w ((l.waiters w).erase t)

theorem bag_wait (hown : l.own t = some n) :
    (l.wait t w n).bag = handOver l.bag (.inl t) (.inr w) n 0 := by
  funext holder
  unfold handOver
  cases holder with
  | inl t' =>
    rw [Function.update_of_ne (by simp)]
    by_cases heq : t' = t
    · subst heq
      rw [Function.update_self]
      simp [bag, wait]
    · rw [Function.update_of_ne (by simpa using heq)]
      simp [bag, wait, Function.update_of_ne heq]
  | inr w' =>
    by_cases heq : w' = w
    · subst heq
      rw [Function.update_self]
      simp [bag, wait]
    · rw [Function.update_of_ne (by simpa using heq), Function.update_of_ne (by simp)]
      simp [bag, wait, Function.update_of_ne heq]

theorem bag_leave (hown : l.own t = none) :
    (l.leave t w n rest).bag = handOver l.bag (.inr w) (.inl t) n rest := by
  funext holder
  unfold handOver
  cases holder with
  | inl t' =>
    by_cases heq : t' = t
    · subst heq
      rw [Function.update_self]
      simp [bag, leave, hown]
    · rw [Function.update_of_ne (by simpa using heq), Function.update_of_ne (by simp)]
      simp [bag, leave, Function.update_of_ne heq]
  | inr w' =>
    rw [Function.update_of_ne (by simp)]
    by_cases heq : w' = w
    · subst heq
      rw [Function.update_self]
      simp [bag, leave]
    · rw [Function.update_of_ne (by simpa using heq)]
      simp [bag, leave, Function.update_of_ne heq]

namespace Sound

omit [DecidableEq W] in
theorem waiters_nodup (h : l.Sound tokens arrivals) (w : W) : (l.waiters w).Nodup :=
  (h.ordered w).nodup (lastArrivals_nodup arrivals)

omit [DecidableEq W] in
theorem notMem_waiters (h : l.Sound tokens arrivals) (hown : l.own t = some n) (w : W) :
    t ∉ l.waiters w := by
  intro hmem
  have hnone := (h.own_iff t).2 (by rw [(h.waits_iff t w).2 hmem]; simp)
  rw [hnone] at hown
  cases hown

theorem wait (h : l.Sound tokens arrivals) (hown : l.own t = some n) :
    (l.wait t w n).Sound tokens (arrivals ++ [t]) where
  spread := by
    rw [bag_wait hown]
    exact h.spread.handOver (by simp) (by simp [bag, hown])
  own_iff := by
    intro t'
    by_cases heq : t' = t
    · subst heq
      simp [Loans.wait]
    · simpa [Loans.wait, Function.update_of_ne heq] using h.own_iff t'
  waits_iff := by
    intro t' w'
    have hnot := h.notMem_waiters hown w'
    by_cases heq : t' = t
    · subst heq
      by_cases hw : w' = w
      · subst hw
        simp [Loans.wait]
      · simpa [Loans.wait, Function.update_of_ne hw, hnot] using Ne.symm hw
    · have hwaits := h.waits_iff t' w'
      by_cases hw : w' = w
      · subst hw
        simpa [Loans.wait, Function.update_of_ne heq, heq] using hwaits
      · simpa [Loans.wait, Function.update_of_ne heq, Function.update_of_ne hw] using hwaits
  card := by
    intro w'
    by_cases hw : w' = w
    · subst hw
      simp [Loans.wait, h.card w']
    · simpa [Loans.wait, Function.update_of_ne hw] using h.card w'
  ordered := by
    intro w'
    rw [lastArrivals_append_singleton]
    -- Whoever waits is not the one who comes, so it keeps its place.
    have hkept : (l.waiters w').Sublist ((lastArrivals arrivals).erase t) := by
      rw [← List.erase_of_not_mem (h.notMem_waiters hown w')]
      exact (h.ordered w').erase t
    by_cases hw : w' = w
    · subst hw
      simpa [Loans.wait] using hkept
    · simpa [Loans.wait, Function.update_of_ne hw]
        using hkept.trans (List.sublist_append_left _ [t])

theorem leave (h : l.Sound tokens arrivals) (hmem : t ∈ l.waiters w) (hlent : l.lent w = n ::ₘ rest) :
    (l.leave t w n rest).Sound tokens arrivals where
  spread := by
    have hown : l.own t = none := (h.own_iff t).2 (by rw [(h.waits_iff t w).2 hmem]; simp)
    rw [bag_leave hown]
    exact h.spread.handOver (by simp) hlent
  own_iff := by
    intro t'
    by_cases heq : t' = t
    · subst heq
      simp [Loans.leave]
    · simpa [Loans.leave, Function.update_of_ne heq] using h.own_iff t'
  waits_iff := by
    intro t' w'
    have hwaits := h.waits_iff t' w'
    by_cases hw : w' = w
    · subst hw
      by_cases heq : t' = t
      · subst heq
        simpa [Loans.leave] using (h.waiters_nodup w').not_mem_erase
      · simpa [Loans.leave, Function.update_of_ne heq, List.mem_erase_of_ne heq] using hwaits
    · by_cases heq : t' = t
      · subst heq
        have helse := (h.waits_iff t' w).2 hmem
        rw [helse] at hwaits
        simpa [Loans.leave, Function.update_of_ne hw, Ne.symm hw] using hwaits
      · simpa [Loans.leave, Function.update_of_ne hw, Function.update_of_ne heq] using hwaits
  card := by
    intro w'
    by_cases hw : w' = w
    · subst hw
      have hcard := h.card w'
      rw [hlent, Multiset.card_cons] at hcard
      simp only [Loans.leave, Function.update_self, List.length_erase_of_mem hmem]
      omega
    · simpa [Loans.leave, Function.update_of_ne hw] using h.card w'
  ordered := by
    intro w'
    by_cases hw : w' = w
    · subst hw
      simpa [Loans.leave] using (List.erase_sublist).trans (h.ordered w')
    · simpa [Loans.leave, Function.update_of_ne hw] using h.ordered w'

end Sound

/-- The members leave one after the other, each with the token that is named with it. -/
def leaveAll (l : Loans T W N) (w : W) : List (T × N) → Loans T W N
  | [] => l
  | (t, n) :: pairs => (l.leave t w n ↑(pairs.map Prod.snd)).leaveAll w pairs

variable {pairs : List (T × N)}

theorem leaveAll_waits (w : W) (pairs : List (T × N)) (l : Loans T W N) :
    (l.leaveAll w pairs).waits =
      pairs.foldl (fun (waits : T → Option W) p => Function.update waits p.1 none) l.waits := by
  induction pairs generalizing l with
  | nil => rfl
  | cons p pairs ih => exact ih _

theorem leaveAll_own (w : W) (pairs : List (T × N)) (l : Loans T W N) :
    (l.leaveAll w pairs).own =
      pairs.foldl (fun (own : T → Option N) p => Function.update own p.1 (some p.2)) l.own := by
  induction pairs generalizing l with
  | nil => rfl
  | cons p pairs ih => exact ih _

theorem leaveAll_lent (hlent : l.lent w = ↑(pairs.map Prod.snd)) :
    (l.leaveAll w pairs).lent = Function.update l.lent w 0 := by
  induction pairs generalizing l with
  | nil => exact (Function.update_eq_self_iff.2 hlent.symm).symm
  | cons p pairs ih =>
    have hrest := ih (l := l.leave p.1 w p.2 ↑(pairs.map Prod.snd)) (by simp [leave])
    simpa [leaveAll, leave] using hrest

theorem leaveAll_waiters (hwaiters : l.waiters w = pairs.map Prod.fst) :
    (l.leaveAll w pairs).waiters = Function.update l.waiters w [] := by
  induction pairs generalizing l with
  | nil => exact (Function.update_eq_self_iff.2 hwaiters.symm).symm
  | cons p pairs ih =>
    have hrest := ih (l := l.leave p.1 w p.2 ↑(pairs.map Prod.snd)) (by simp [leave, hwaiters])
    simpa [leaveAll, leave] using hrest

theorem Sound.leaveAll (h : l.Sound tokens arrivals) (hwaiters : l.waiters w = pairs.map Prod.fst)
    (hlent : l.lent w = ↑(pairs.map Prod.snd)) : (l.leaveAll w pairs).Sound tokens arrivals := by
  induction pairs generalizing l with
  | nil => exact h
  | cons p pairs ih =>
    refine ih (h.leave (by simp [hwaiters]) (by simp [hlent])) ?_ ?_
    · simp [Loans.leave, hwaiters]
    · simp [Loans.leave]

end Loans
