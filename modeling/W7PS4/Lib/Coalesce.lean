-- SUMMARY: Coalescing neighbours in a map of areas: the two joins around an entry, the bytes they keep and the seams they remove.
import W7PS4.Lib.AreaMap

/-!
# Coalescing

`mergeAdjacent` tries to join an entry with the one after it and then with the
one before it. Which areas may be joined and what the joined area is are
parameters. Every join is a `Joined` step, so a property of maps that one such
step keeps survives the whole call.
-/

universe u v

namespace StdMap

variable {α : Type u} {β : Type v} [Area α β]
variable (canMerge : α → α → Bool) (join : α → α → α)

def mergeNext (m : StdMap Nat α) (k : Nat) : StdMap Nat α :=
  match m.find? k, m.next? k with
  | some a, some (j, b) => if canMerge a b then (m.insert k (join a b)).erase j else m
  | _, _ => m

def mergePrev (m : StdMap Nat α) (k : Nat) : StdMap Nat α × Nat :=
  match m.prev? k, m.find? k with
  | some (j, a), some b =>
    if canMerge a b then ((m.insert j (join a b)).erase k, j) else (m, k)
  | _, _ => (m, k)

/-- Join the entry at `k` with its neighbours where that is allowed. Returns the
    handle of the entry that now holds it. -/
def mergeAdjacent (m : StdMap Nat α) (k : Nat) : StdMap Nat α × Nat :=
  mergePrev canMerge join (mergeNext canMerge join m k) k

/-- `m'` is `m` with one entry and its successor joined. -/
def Joined (m m' : StdMap Nat α) : Prop :=
  ∃ k a j b, m.find? k = some a ∧ m.next? k = some (j, b) ∧ canMerge a b ∧
    m' = (m.insert k (join a b)).erase j

variable {canMerge join} {m m' : StdMap Nat α} {k j p : Nat} {a b : α}

/-! ## What a call can do -/

theorem mergeNext_cases (canMerge : α → α → Bool) (join : α → α → α) (m : StdMap Nat α) (k : Nat) :
    mergeNext canMerge join m k = m ∨ Joined canMerge join m (mergeNext canMerge join m k) := by
  unfold mergeNext
  split
  · rename_i a j b ha hb
    split
    · exact .inr ⟨k, a, j, b, ha, hb, by assumption, rfl⟩
    · exact .inl rfl
  · exact .inl rfl

theorem next?_of_prev? (hp : m.prev? k = some (j, a)) (hk : m.find? k = some b) :
    m.next? j = some (k, b) := by
  obtain ⟨hj, hjk, hmax⟩ := prev?_eq_some.1 hp
  refine next?_eq_some.2 ⟨hk, hjk, ?_⟩
  intro i c hi hji
  by_contra hik
  have := hmax i c hi (by simpa using hik)
  exact absurd this (by simpa using hji)

theorem mergePrev_cases (canMerge : α → α → Bool) (join : α → α → α) (m : StdMap Nat α) (k : Nat) :
    mergePrev canMerge join m k = (m, k) ∨
      Joined canMerge join m (mergePrev canMerge join m k).1 := by
  unfold mergePrev
  split
  · rename_i j a b hp hk
    split
    · exact .inr ⟨j, a, k, b, (prev?_eq_some.1 hp).1, next?_of_prev? hp hk, by assumption, rfl⟩
    · exact .inl rfl
  · exact .inl rfl

/-- A property that every join keeps is kept by coalescing. -/
theorem mergeAdjacent_induction {P : StdMap Nat α → Prop} (h₀ : P m)
    (hstep : ∀ m m', P m → Joined canMerge join m m' → P m') :
    P (mergeAdjacent canMerge join m k).1 := by
  have hnext : P (mergeNext canMerge join m k) := by
    rcases mergeNext_cases canMerge join m k with h | h
    · rw [h]; exact h₀
    · exact hstep _ _ h₀ h
  unfold mergeAdjacent
  rcases mergePrev_cases canMerge join (mergeNext canMerge join m k) k with h | h
  · rw [h]; exact hnext
  · exact hstep _ _ hnext h

/-! ## Entries and bytes -/

/-- Every key after a join was a key before it. -/
theorem Joined.find?_isSome (h : Joined canMerge join m m') (hk : (m'.find? k).isSome) :
    (m.find? k).isSome := by
  obtain ⟨i, a, j, b, hi, hj, -, rfl⟩ := h
  simp only [find?_erase, find?_insert] at hk
  split at hk
  · cases hk
  split at hk
  · rename_i hki
    simp [hki, hi]
  · exact hk

/-- A property of entries that joining two neighbours keeps holds of every entry
    after a join. -/
theorem Joined.forall_entry {P : Nat → α → Prop} (h : Joined canMerge join m m')
    (hP : ∀ k a, m.find? k = some a → P k a)
    (hjoin : ∀ k a j b, m.find? k = some a → m.next? k = some (j, b) → canMerge a b →
      P k (join a b)) :
    ∀ k a, m'.find? k = some a → P k a := by
  obtain ⟨i, c, j, d, hi, hj, hcan, rfl⟩ := h
  intro k a hk
  simp only [find?_erase, find?_insert] at hk
  split at hk
  · cases hk
  split at hk
  · rename_i hki
    cases hk
    exact hki ▸ hjoin i c j d hi hj hcan
  · exact hP k a hk

/-- Joining is sound for `m` when areas that may be joined touch, and the joined
    area reads as the two do. -/
def JoinsSoundly (canMerge : α → α → Bool) (join : α → α → α) (m : StdMap Nat α) : Prop :=
  ∀ k a j b, m.find? k = some a → m.next? k = some (j, b) → canMerge a b →
    j = k + Area.size a ∧ Cut (join a b) (Area.size a) a b

theorem Joined.separated (h : Joined canMerge join m m') (hm : m.Separated)
    (hs : JoinsSoundly canMerge join m) : m'.Separated := by
  obtain ⟨i, c, j, d, hi, hj, hcan, rfl⟩ := h
  obtain ⟨rfl, hcut⟩ := hs i c j d hi hj hcan
  exact hm.join hi (next?_eq_some.1 hj).1 hcut

theorem Joined.at?_eq (h : Joined canMerge join m m') (hm : m.Separated)
    (hs : JoinsSoundly canMerge join m) : m'.at? p = m.at? p := by
  obtain ⟨i, c, j, d, hi, hj, hcan, rfl⟩ := h
  obtain ⟨rfl, hcut⟩ := hs i c j d hi hj hcan
  exact at?_join hm hi (next?_eq_some.1 hj).1 hcut

/-! ## Seams -/

/-- The seam after an entry is gone when it may be joined with its successor. -/
theorem mergeNext_removes (hk : m.find? k = some a) (hn : m.next? k = some (j, b))
    (hcan : canMerge a b) :
    mergeNext canMerge join m k = (m.insert k (join a b)).erase j := by
  simp [mergeNext, hk, hn, hcan]

/-- The seam before an entry is gone when its predecessor may be joined with it. -/
theorem mergePrev_removes (hp : m.prev? k = some (j, a)) (hk : m.find? k = some b)
    (hcan : canMerge a b) :
    mergePrev canMerge join m k = ((m.insert j (join a b)).erase k, j) := by
  simp [mergePrev, hk, hp, hcan]

/-! ## The keys that are left -/

/-- There is a byte on either side of `k`, and `R` holds between the two. -/
def SeamAt (R : β → β → Prop) (f : Nat → Option β) (k : Nat) : Prop :=
  ∃ p x y, k = p + 1 ∧ f p = some x ∧ f k = some y ∧ R x y

/-- Whether two areas that touch may be joined shows in the bytes on both sides. -/
def JoinsSeams (canMerge : α → α → Bool) (R : β → β → Prop) (m : StdMap Nat α) : Prop :=
  ∀ k a b, m.find? k = some a → m.find? (k + Area.size a) = some b →
    (canMerge a b ↔ SeamAt R m.at? (k + Area.size a))

variable {R : β → β → Prop}

/-- The first half erases the key at the end of the entry, if the two may be joined. -/
theorem isSome_mergeNext_iff (hm : m.Separated) (hs : JoinsSoundly canMerge join m)
    (hR : JoinsSeams canMerge R m) (hk : m.find? k = some a) (hpos : 0 < Area.size a) :
    ((mergeNext canMerge join m k).find? j).isSome ↔
      (m.find? j).isSome ∧ ¬(j = k + Area.size a ∧ SeamAt R m.at? j) := by
  cases hn : m.next? k with
  | none =>
    have hsame : mergeNext canMerge join m k = m := by simp [mergeNext, hk, hn]
    rw [hsame]
    refine ⟨fun hj => ⟨hj, fun hend => ?_⟩, And.left⟩
    obtain ⟨b, hb⟩ := Option.isSome_iff_exists.1 hj
    have := next?_eq_none.1 hn j b hb
    omega
  | some e =>
    obtain ⟨i, b⟩ := e
    obtain ⟨hi, hki, hmin⟩ := next?_eq_some.1 hn
    simp only at hi hki hmin
    by_cases hcan : canMerge a b
    · obtain ⟨rfl, -⟩ := hs k a i b hk hn hcan
      have hseam := (hR k a b hk hi).1 hcan
      rw [mergeNext_removes hk hn hcan]
      simp only [find?_erase, find?_insert]
      split_ifs with hj hj'
      · simp [hj, hseam]
      · simp [hj', hk]
        omega
      · simp [hj]
    · have hsame : mergeNext canMerge join m k = m := by simp [mergeNext, hk, hn, hcan]
      rw [hsame]
      refine ⟨fun hj => ⟨hj, ?_⟩, And.left⟩
      rintro ⟨rfl, hseam⟩
      obtain ⟨c, hc⟩ := Option.isSome_iff_exists.1 hj
      exact hcan (by
        have hij : i = k + Area.size a := by
          have := hm k a i b hk hi hki
          have := hmin _ c hc (by omega)
          omega
        subst hij
        exact (hR k a b hk hi).2 hseam)

/-- The second half erases the key of the entry, if its predecessor may be joined with it. -/
theorem isSome_mergePrev_iff (hm : m.Separated) (hs : JoinsSoundly canMerge join m)
    (hR : JoinsSeams canMerge R m) (hk : m.find? k = some b) :
    ((mergePrev canMerge join m k).1.find? j).isSome ↔
      (m.find? j).isSome ∧ ¬(j = k ∧ SeamAt R m.at? j) := by
  have hleft : SeamAt R m.at? k → ∃ i a, m.prev? k = some (i, a) ∧ k = i + Area.size a := by
    rintro ⟨p, x, y, rfl, hx, -⟩
    obtain ⟨i, a, hi, hle, hlt, -⟩ := exists_of_at? hx
    have hsep := hm i a (p + 1) b hi hk (by omega)
    refine ⟨i, a, prev?_eq_some.2 ⟨hi, by simp only; omega, fun i' c hi' hlt' => ?_⟩, by omega⟩
    by_contra hii
    have := hm i a i' c hi hi' (by simpa using hii)
    omega
  cases hp : m.prev? k with
  | none =>
    have hsame : (mergePrev canMerge join m k).1 = m := by simp [mergePrev, hp]
    rw [hsame]
    refine ⟨fun hj => ⟨hj, ?_⟩, And.left⟩
    rintro ⟨rfl, hseam⟩
    obtain ⟨i, a, hi, -⟩ := hleft hseam
    rw [hp] at hi
    cases hi
  | some e =>
    obtain ⟨i, a⟩ := e
    obtain ⟨hi, hik, -⟩ := prev?_eq_some.1 hp
    simp only at hi hik
    by_cases hcan : canMerge a b
    · obtain ⟨rfl, -⟩ := hs i a k b hi (next?_of_prev? hp hk) hcan
      have hseam := (hR i a b hi hk).1 hcan
      rw [mergePrev_removes hp hk hcan]
      simp only [find?_erase, find?_insert]
      split_ifs with hj hj'
      · simp [hj, hseam]
      · simp [hj', hi]
        omega
      · simp [hj]
    · have hsame : (mergePrev canMerge join m k).1 = m := by simp [mergePrev, hp, hk, hcan]
      rw [hsame]
      refine ⟨fun hj => ⟨hj, ?_⟩, And.left⟩
      rintro ⟨rfl, hseam⟩
      obtain ⟨i', a', hi', hend⟩ := hleft hseam
      rw [hp] at hi'
      cases hi'
      exact hcan ((hR i a b hi (hend ▸ hk)).2 (hend ▸ hseam))

/-! ## The handle -/

variable (canMerge join) in
theorem find?_mergeNext_isSome (hk : m.find? k = some a) :
    ((mergeNext canMerge join m k).find? k).isSome := by
  unfold mergeNext
  split
  · rename_i a' j b ha hb
    split
    · have hlt := (next?_eq_some.1 hb).2.1
      simp only at hlt
      simp [Nat.ne_of_lt hlt]
    · simp [hk]
  · simp [hk]

/-- The handle points at the entry that `floor?` finds from the old place. -/
theorem floor?_mergeAdjacent (canMerge : α → α → Bool) (join : α → α → α)
    (hk : m.find? k = some a) :
    ∃ e, (mergeAdjacent canMerge join m k).1.floor? k =
      some ((mergeAdjacent canMerge join m k).2, e) := by
  obtain ⟨b, hb⟩ := Option.isSome_iff_exists.1
    (find?_mergeNext_isSome canMerge join hk)
  unfold mergeAdjacent
  generalize mergeNext canMerge join m k = m₁ at hb ⊢
  unfold mergePrev
  split
  · rename_i j c b' hp hb'
    obtain ⟨hj, hjk, hmax⟩ := prev?_eq_some.1 hp
    simp only at hj hjk hmax
    split
    · refine ⟨join c b', floor?_eq_some.2 ⟨?_, Nat.le_of_lt hjk, ?_⟩⟩
      · simp [Nat.ne_of_lt hjk]
      · intro i d hi hik
        simp only [find?_erase, find?_insert] at hi
        split at hi
        · cases hi
        rename_i hne
        split at hi
        · rename_i hij
          exact Nat.le_of_eq hij
        · exact hmax i d hi (by omega)
    · exact ⟨b, floor?_eq_some.2 ⟨hb, Nat.le_refl k, fun i d _ hik => hik⟩⟩
  · exact ⟨b, floor?_eq_some.2 ⟨hb, Nat.le_refl k, fun i d _ hik => hik⟩⟩

end StdMap
