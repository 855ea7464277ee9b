-- SUMMARY: Token buckets that are refilled lazily: how much they hand out in any window, and when a call is granted for certain.
import Mathlib.Algebra.Order.Ring.Defs
import Mathlib.Data.List.Basic
import Mathlib.Tactic.Linarith

/-!
# Token buckets

A bucket gains a token in each unit of time, up to its capacity. It is only looked at when a call
asks for tokens: then it is refilled for the time since the last call, whether or not there are
enough of them for the cost of the call.
-/

variable {R : Type*} [CommRing R] [LinearOrder R] [IsStrictOrderedRing R]

structure TokenBucket (R : Type*) where
  level : R
  last : R

namespace TokenBucket

/-- What is in the bucket at a time. -/
def refilled (cap : R) (b : TokenBucket R) (t : R) : R := min cap (b.level + (t - b.last))

/-- A call at a time: whether it is granted, and the bucket after it. -/
def take (cap cost : R) (b : TokenBucket R) (t : R) : Bool × TokenBucket R :=
  if b.refilled cap t < cost then (false, ⟨b.refilled cap t, t⟩)
  else (true, ⟨b.refilled cap t - cost, t⟩)

/-- The calls with their times and answers, and the bucket after them. -/
def run (cap cost : R) : TokenBucket R → List R → List (R × Bool) × TokenBucket R
  | b, [] => ([], b)
  | b, t :: ts =>
    let (granted, b) := take cap cost b t
    let (calls, b) := run cap cost b ts
    ((t, granted) :: calls, b)

/-- How many calls from `lo` to `hi` are granted. -/
def grants (lo hi : R) (calls : List (R × Bool)) : Nat :=
  calls.countP fun call => call.2 ∧ lo ≤ call.1 ∧ call.1 ≤ hi

structure Within (cap : R) (b : TokenBucket R) : Prop where
  nonneg : 0 ≤ b.level
  le_cap : b.level ≤ cap

variable {cap cost : R} {b : TokenBucket R} {t lo hi : R} {ts : List R}

omit [IsStrictOrderedRing R] in
@[simp] theorem take_last : (take cap cost b t).2.last = t := by
  unfold take
  split <;> rfl

omit [IsStrictOrderedRing R] in
theorem refilled_le : b.refilled cap t ≤ cap := min_le_left _ _

omit [IsStrictOrderedRing R] in
theorem run_cons : run cap cost b (t :: ts) =
    ((t, (take cap cost b t).1) :: (run cap cost (take cap cost b t).2 ts).1,
      (run cap cost (take cap cost b t).2 ts).2) := rfl

omit [IsStrictOrderedRing R] in
/-- What is there after a call, together with its cost. -/
theorem take_level : (if (b.take cap cost t).1 = true then cost else 0) + (b.take cap cost t).2.level
    = b.refilled cap t := by
  unfold take
  split
  · simp
  · simp

theorem Within.refilled_nonneg (h : b.Within cap) (ht : b.last ≤ t) : 0 ≤ b.refilled cap t :=
  le_min (h.nonneg.trans h.le_cap) (by linarith [h.nonneg])

theorem Within.take (h : b.Within cap) (hcost : 0 ≤ cost) (ht : b.last ≤ t) :
    (b.take cap cost t).2.Within cap := by
  unfold TokenBucket.take
  split
  · exact ⟨h.refilled_nonneg ht, refilled_le⟩
  · next henough => exact ⟨by simpa using not_lt.1 henough, by simpa using refilled_le.trans (by linarith)⟩

theorem Within.run (h : b.Within cap) (hcost : 0 ≤ cost) (hsorted : (b.last :: ts).Pairwise (· ≤ ·)) :
    (b.run cap cost ts).2.Within cap := by
  induction ts generalizing b with
  | nil => exact h
  | cons t ts ih =>
    obtain ⟨hlast, hrest⟩ := List.pairwise_cons.1 hsorted
    rw [run_cons]
    refine ih (h.take hcost (hlast t (.head _))) ?_
    rwa [take_last]

/-- Tokens that are still to come from `lo` to `hi`, together with those that are there. -/
def potential (cap lo hi : R) (b : TokenBucket R) : R :=
  if b.last < lo then cap + (hi - lo) else if b.last ≤ hi then b.level + (hi - b.last) else 0

theorem Within.potential_nonneg (h : b.Within cap) (hwindow : lo ≤ hi) :
    0 ≤ b.potential cap lo hi := by
  unfold potential
  split
  · linarith [h.nonneg.trans h.le_cap]
  split
  · linarith [h.nonneg]
  · exact le_refl _

/-- A call pays its cost out of the potential. -/
theorem Within.take_potential (h : b.Within cap) (hwindow : lo ≤ hi) (ht : b.last ≤ t) :
    (if (b.take cap cost t).1 = true ∧ lo ≤ t ∧ t ≤ hi then cost else 0)
        + (b.take cap cost t).2.potential cap lo hi ≤ b.potential cap lo hi := by
  have hlevel : (if (b.take cap cost t).1 = true then cost else 0) + (b.take cap cost t).2.level
      = b.refilled cap t := take_level
  rcases lt_or_ge t lo with hbefore | hlo
  · have hold : b.last < lo := ht.trans_lt hbefore
    rw [if_neg (fun hin => hbefore.not_ge hin.2.1), potential, take_last, if_pos hbefore, potential,
      if_pos hold, zero_add]
  rcases lt_or_ge hi t with hafter | hhi
  · rw [if_neg (fun hin => hafter.not_ge hin.2.2), potential, take_last, if_neg hlo.not_gt,
      if_neg hafter.not_ge, zero_add]
    exact h.potential_nonneg hwindow
  have hpaid : (if (b.take cap cost t).1 = true ∧ lo ≤ t ∧ t ≤ hi then cost else 0)
      = if (b.take cap cost t).1 = true then cost else 0 := by
    simp [hlo, hhi]
  rw [hpaid, potential, take_last, if_neg hlo.not_gt, if_pos hhi, ← add_assoc, hlevel, potential]
  split
  · linarith [(refilled_le : b.refilled cap t ≤ cap)]
  have hgain : b.refilled cap t ≤ b.level + (t - b.last) := min_le_right _ _
  rw [if_pos (ht.trans hhi)]
  linarith

theorem Within.grants_le_potential (h : b.Within cap) (hcost : 0 ≤ cost) (hwindow : lo ≤ hi)
    (hsorted : (b.last :: ts).Pairwise (· ≤ ·)) :
    grants lo hi (b.run cap cost ts).1 * cost ≤ b.potential cap lo hi := by
  induction ts generalizing b with
  | nil => simpa [TokenBucket.run, grants] using h.potential_nonneg hwindow
  | cons t ts ih =>
    obtain ⟨hlast, hrest⟩ := List.pairwise_cons.1 hsorted
    have ht := hlast t (.head _)
    have hpay : (if (b.take cap cost t).1 = true ∧ lo ≤ t ∧ t ≤ hi then cost else 0)
        + (b.take cap cost t).2.potential cap lo hi ≤ b.potential cap lo hi :=
      h.take_potential hwindow ht
    have hlater := ih (h.take hcost ht) (by rwa [take_last])
    have hcount : (grants lo hi (b.run cap cost (t :: ts)).1 : R) * cost
        = (if (b.take cap cost t).1 = true ∧ lo ≤ t ∧ t ≤ hi then cost else 0)
          + grants lo hi ((b.take cap cost t).2.run cap cost ts).1 * cost := by
      rw [run_cons, grants, List.countP_cons]
      split
      · next hin =>
        rw [if_pos (by simpa using hin), Nat.cast_add, Nat.cast_one, add_mul, one_mul, add_comm]
        rfl
      rename_i hout
      rw [if_neg (by simpa using hout), zero_add]
      rfl
    rw [hcount]
    linarith

/-- In any window no more is handed out than the bucket holds and gains in it. -/
theorem Within.grants_le (h : b.Within cap) (hcost : 0 ≤ cost) (hwindow : lo ≤ hi)
    (hsorted : (b.last :: ts).Pairwise (· ≤ ·)) :
    grants lo hi (b.run cap cost ts).1 * cost ≤ cap + (hi - lo) := by
  refine (h.grants_le_potential hcost hwindow hsorted).trans ?_
  unfold potential
  have hcap := h.nonneg.trans h.le_cap
  split
  · exact le_refl _
  rename_i hlast
  split
  · linarith [h.le_cap, not_lt.1 hlast]
  · linarith

omit [IsStrictOrderedRing R] in
/-- A call is granted if the bucket has gained enough. -/
theorem take_granted (hcost : cost ≤ cap) (hgain : cost ≤ b.level + (t - b.last)) :
    (b.take cap cost t).1 = true := by
  have henough : cost ≤ b.refilled cap t := le_min hcost hgain
  unfold take
  rw [if_neg henough.not_gt]

end TokenBucket
