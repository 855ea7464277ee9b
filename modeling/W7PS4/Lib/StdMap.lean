-- SUMMARY: Ordered maps in the manner of `std::map`: sorted association lists with the lookups an iterator offers, and sums over the entries.
import Mathlib

/-!
# Ordered maps

A `StdMap κ α` is a list of entries in strictly increasing order of key, as
`std::map` keeps them. The order is a field, so no later proof has to
re-establish it. An iterator is the key it points at: insertions and erasures
of other entries leave it valid, which is the guarantee `std::map` gives.

The lookups are characterised through `find?` alone. Everything built on top
reasons about the partial function `m.find?` and never about the list.
-/

universe u v

structure StdMap (κ : Type u) [LinearOrder κ] (α : Type v) where
  entries : List (κ × α)
  sorted : entries.Pairwise fun a b => a.1 < b.1

namespace StdMap

variable {κ : Type u} [LinearOrder κ] {α : Type v}

instance [DecidableEq α] : DecidableEq (StdMap κ α) := fun m n =>
  decidable_of_iff (m.entries = n.entries)
    ⟨fun h => by cases m; cases n; cases h; rfl, fun h => by rw [h]⟩

def empty : StdMap κ α := ⟨[], .nil⟩

instance : EmptyCollection (StdMap κ α) := ⟨empty⟩
instance : Inhabited (StdMap κ α) := ⟨empty⟩

/-! ## Lookups -/

/-- The value stored at `k`. -/
def find? (m : StdMap κ α) (k : κ) : Option α :=
  (m.entries.find? fun e => e.1 = k).map Prod.snd

/-- `std::prev(m.upper_bound(k))`: the last entry whose key is at most `k`.
    There is none when the upper bound is `m.begin()`. -/
def floor? (m : StdMap κ α) (k : κ) : Option (κ × α) :=
  m.entries.reverse.find? fun e => e.1 ≤ k

/-- `std::next` of the iterator at `k`; `none` is `m.end()`. -/
def next? (m : StdMap κ α) (k : κ) : Option (κ × α) :=
  m.entries.find? fun e => k < e.1

/-- `std::prev` of the iterator at `k`; there is none at `m.begin()`. -/
def prev? (m : StdMap κ α) (k : κ) : Option (κ × α) :=
  m.entries.reverse.find? fun e => e.1 < k

/-- `m.begin()`; `none` is `m.end()`. -/
def first? (m : StdMap κ α) : Option (κ × α) := m.entries.head?

/-- `std::prev(m.end())`. -/
def last? (m : StdMap κ α) : Option (κ × α) := m.entries.getLast?

/-- What a loop from the iterator at `k` to `m.end()` visits. -/
def startingAt (m : StdMap κ α) (k : κ) : List (κ × α) :=
  m.entries.filter fun e => k ≤ e.1

/-! ## Updates -/

/-- Insert into a sorted list, replacing an entry with the same key. -/
def insertEntry (k : κ) (a : α) : List (κ × α) → List (κ × α)
  | [] => [(k, a)]
  | e :: es =>
    if k < e.1 then (k, a) :: e :: es
    else if e.1 < k then e :: insertEntry k a es
    else (k, a) :: es

variable {e : κ × α} {es : List (κ × α)} {p : κ × α → Bool} {f : α → α}

theorem mem_insertEntry {k : κ} {a : α} (h : e ∈ insertEntry k a es) : e = (k, a) ∨ e ∈ es := by
  induction es with
  | nil => simpa [insertEntry] using h
  | cons e' es ih =>
    simp only [insertEntry] at h
    split at h
    · simpa using h
    split at h
    · rcases List.mem_cons.1 h with h | h
      · exact .inr (by simp [h])
      · rcases ih h with h | h
        · exact .inl h
        · exact .inr (by simp [h])
    · rcases List.mem_cons.1 h with h | h
      · exact .inl h
      · exact .inr (by simp [h])

theorem sorted_insertEntry (k : κ) (a : α) (hs : es.Pairwise fun a b => a.1 < b.1) :
    (insertEntry k a es).Pairwise fun a b => a.1 < b.1 := by
  induction es with
  | nil => simp [insertEntry]
  | cons e es ih =>
    have ⟨hhd, htl⟩ := List.pairwise_cons.1 hs
    simp only [insertEntry]
    split
    · rename_i hlt
      refine List.pairwise_cons.2 ⟨?_, hs⟩
      intro b hb
      rcases List.mem_cons.1 hb with rfl | hb
      · exact hlt
      · exact lt_trans hlt (hhd b hb)
    · rename_i hnlt
      split
      · rename_i hlt
        refine List.pairwise_cons.2 ⟨?_, ih htl⟩
        intro b hb
        rcases mem_insertEntry hb with rfl | hb
        · exact hlt
        · exact hhd b hb
      · rename_i hnlt'
        have heq : k = e.1 := le_antisymm (not_lt.1 hnlt') (not_lt.1 hnlt)
        exact List.pairwise_cons.2 ⟨fun b hb => heq ▸ hhd b hb, htl⟩

/-- `m[k] = a`. -/
def insert (m : StdMap κ α) (k : κ) (a : α) : StdMap κ α :=
  ⟨insertEntry k a m.entries, sorted_insertEntry k a m.sorted⟩

/-- `m.emplace(k, a)`: an entry that is already there stays. -/
def emplace (m : StdMap κ α) (k : κ) (a : α) : StdMap κ α :=
  if (m.find? k).isSome then m else m.insert k a

def erase (m : StdMap κ α) (k : κ) : StdMap κ α :=
  ⟨m.entries.filter fun e => e.1 ≠ k, m.sorted.filter _⟩

/-- Change the value an iterator points at. -/
def modify (m : StdMap κ α) (k : κ) (f : α → α) : StdMap κ α :=
  match m.find? k with
  | some a => m.insert k (f a)
  | none => m

/-! ## Lookups through `find?` -/

variable {m : StdMap κ α} {k j : κ} {a b : α}

theorem nodup_keys (m : StdMap κ α) : (m.entries.map Prod.fst).Nodup :=
  List.pairwise_map.2 (m.sorted.imp fun h => ne_of_lt h)

theorem mem_entries_iff : (k, a) ∈ m.entries ↔ m.find? k = some a := by
  constructor
  · intro h
    -- keys are distinct, so the first entry at `k` is `(k, a)`
    have huniq : ∀ e ∈ m.entries, e.1 = k → e = (k, a) := fun e he hek =>
      List.inj_on_of_nodup_map m.nodup_keys he h hek
    have hsome : (m.entries.find? fun e => e.1 = k).isSome := by
      rw [List.find?_isSome]
      exact ⟨(k, a), h, by simp⟩
    obtain ⟨e, he⟩ := Option.isSome_iff_exists.1 hsome
    have hk : e.1 = k := by simpa using List.find?_some he
    rw [find?, he, huniq e (List.mem_of_find?_eq_some he) hk]
    rfl
  · intro h
    simp only [find?, Option.map_eq_some_iff] at h
    obtain ⟨e, he, rfl⟩ := h
    have hk : e.1 = k := by simpa using List.find?_some he
    rw [← hk]
    exact List.mem_of_find?_eq_some he

@[simp] theorem find?_empty : (∅ : StdMap κ α).find? k = none := rfl

/-- A search through sorted entries finds the first one the test accepts. -/
private theorem find?_entries_eq_some : m.entries.find? p = some e ↔
      m.find? e.1 = some e.2 ∧ p e ∧ ∀ i b, m.find? i = some b → p (i, b) → e.1 ≤ i := by
  rw [← mem_entries_iff]
  rw [List.find?_eq_some_iff_append]
  constructor
  · rintro ⟨hp, as, bs, heq, hnot⟩
    refine ⟨by rw [heq]; simp, hp, ?_⟩
    intro i b hi hpi
    rw [← mem_entries_iff, heq] at hi
    have hs := m.sorted
    rw [heq] at hs
    rcases List.mem_append.1 hi with hi | hi
    · exact absurd hpi (by simpa using hnot (i, b) hi)
    · rcases List.mem_cons.1 hi with hi | hi
      · rw [← hi]
      · exact le_of_lt ((List.pairwise_cons.1 (List.pairwise_append.1 hs).2.1).1 _ hi)
  · rintro ⟨hmem, hp, hmin⟩
    obtain ⟨as, bs, heq⟩ := List.append_of_mem hmem
    refine ⟨hp, as, bs, heq, ?_⟩
    intro e' he'
    have hs := m.sorted
    rw [heq] at hs
    have hlt : e'.1 < e.1 := (List.pairwise_append.1 hs).2.2 e' he' e (by simp)
    by_contra hpe
    have hle := hmin e'.1 e'.2 (mem_entries_iff.1 (by rw [heq]; simp [he'])) (by simpa using hpe)
    exact absurd hlt (not_lt.2 hle)

/-- A search from the end finds the last one the test accepts. -/
private theorem find?_reverse_eq_some : m.entries.reverse.find? p = some e ↔
      m.find? e.1 = some e.2 ∧ p e ∧ ∀ i b, m.find? i = some b → p (i, b) → i ≤ e.1 := by
  rw [← mem_entries_iff]
  rw [List.find?_eq_some_iff_append]
  have hrev : m.entries.reverse.Pairwise fun a b => b.1 < a.1 := List.pairwise_reverse.2 m.sorted
  constructor
  · rintro ⟨hp, as, bs, heq, hnot⟩
    refine ⟨by rw [← List.mem_reverse, heq]; simp, hp, ?_⟩
    intro i b hi hpi
    rw [← mem_entries_iff, ← List.mem_reverse, heq] at hi
    rw [heq] at hrev
    rcases List.mem_append.1 hi with hi | hi
    · exact absurd hpi (by simpa using hnot (i, b) hi)
    · rcases List.mem_cons.1 hi with hi | hi
      · rw [← hi]
      · exact le_of_lt ((List.pairwise_cons.1 (List.pairwise_append.1 hrev).2.1).1 _ hi)
  · rintro ⟨hmem, hp, hmax⟩
    obtain ⟨as, bs, heq⟩ := List.append_of_mem (List.mem_reverse.2 hmem)
    refine ⟨hp, as, bs, heq, ?_⟩
    intro e' he'
    rw [heq] at hrev
    have hlt : e.1 < e'.1 := (List.pairwise_append.1 hrev).2.2 e' he' e (by simp)
    by_contra hpe
    have hmem' : (e'.1, e'.2) ∈ m.entries := List.mem_reverse.1 (by rw [heq]; simp [he'])
    have hle := hmax e'.1 e'.2 (mem_entries_iff.1 hmem') (by simpa using hpe)
    exact absurd hlt (not_lt.2 hle)

theorem floor?_eq_some : m.floor? k = some e ↔
      m.find? e.1 = some e.2 ∧ e.1 ≤ k ∧ ∀ i b, m.find? i = some b → i ≤ k → i ≤ e.1 := by
  simp [floor?, find?_reverse_eq_some]

theorem floor?_eq_none : m.floor? k = none ↔ ∀ i b, m.find? i = some b → k < i := by
  simp [floor?, ← mem_entries_iff]

theorem next?_eq_some : m.next? k = some e ↔
      m.find? e.1 = some e.2 ∧ k < e.1 ∧ ∀ i b, m.find? i = some b → k < i → e.1 ≤ i := by
  simp [next?, find?_entries_eq_some]

theorem next?_eq_none : m.next? k = none ↔ ∀ i b, m.find? i = some b → i ≤ k := by
  simp [next?, ← mem_entries_iff]

theorem prev?_eq_some : m.prev? k = some e ↔
      m.find? e.1 = some e.2 ∧ e.1 < k ∧ ∀ i b, m.find? i = some b → i < k → i ≤ e.1 := by
  simp [prev?, find?_reverse_eq_some]

theorem prev?_eq_none : m.prev? k = none ↔ ∀ i b, m.find? i = some b → k ≤ i := by
  simp [prev?, ← mem_entries_iff]

theorem mem_startingAt_iff : (j, a) ∈ m.startingAt k ↔ m.find? j = some a ∧ k ≤ j := by
  simp [startingAt, mem_entries_iff]

theorem sorted_startingAt : (m.startingAt k).Pairwise fun a b => a.1 < b.1 :=
  m.sorted.filter _

/-- A loop from the entry at `k` stops at the first entry the test accepts. -/
theorem find?_startingAt_eq_some : (m.startingAt k).find? p = some e ↔ m.find? e.1 = some e.2 ∧ k ≤ e.1 ∧ p e ∧
        ∀ i b, m.find? i = some b → k ≤ i → p (i, b) → e.1 ≤ i := by
  rw [startingAt, List.find?_filter, find?_entries_eq_some]
  simp only [decide_eq_true_eq, and_assoc, and_imp]

theorem find?_startingAt_eq_none :
    (m.startingAt k).find? p = none ↔ ∀ i b, m.find? i = some b → k ≤ i → ¬p (i, b) := by
  simp [startingAt, List.find?_filter, ← mem_entries_iff]

theorem first?_eq_some : m.first? = some e ↔ m.find? e.1 = some e.2 ∧ ∀ i b, m.find? i = some b → e.1 ≤ i := by
  have h : m.first? = m.entries.find? fun _ => true := by
    cases hm : m.entries <;> simp [first?, hm]
  simp [h, find?_entries_eq_some]

theorem last?_eq_some : m.last? = some e ↔ m.find? e.1 = some e.2 ∧ ∀ i b, m.find? i = some b → i ≤ e.1 := by
  have h : m.last? = m.entries.reverse.find? fun _ => true := by
    rw [last?, ← List.head?_reverse]
    cases hm : m.entries.reverse <;> simp
  simp [h, find?_reverse_eq_some]

/-- A loop that goes on with keys that lie further up has fewer entries ahead. -/
theorem length_startingAt_lt {n : StdMap κ α} (hk : m.find? k = some a)
    (h : ∀ i, (n.find? i).isSome → j ≤ i → k < i ∧ (m.find? i).isSome) :
    (n.startingAt j).length < (m.startingAt k).length := by
  have hkeys : ∀ {l : StdMap κ α} {i : κ}, ((l.startingAt i).map Prod.fst).Nodup := fun {l i} =>
    List.pairwise_map.2 (sorted_startingAt.imp fun hlt => ne_of_lt hlt)
  have hmem : ∀ {l : StdMap κ α} {i i' : κ}, i ∈ (l.startingAt i').map Prod.fst →
      (l.find? i).isSome ∧ i' ≤ i := by
    intro l i i' hi
    obtain ⟨⟨_, b⟩, he, rfl⟩ := List.mem_map.1 hi
    obtain ⟨hfind, hle⟩ := mem_startingAt_iff.1 he
    exact ⟨Option.isSome_iff_exists.2 ⟨b, hfind⟩, hle⟩
  have hnodup : (k :: (n.startingAt j).map Prod.fst).Nodup := by
    refine List.nodup_cons.2 ⟨fun hmk => ?_, hkeys⟩
    obtain ⟨hsome, hle⟩ := hmem hmk
    exact lt_irrefl k (h k hsome hle).1
  have hsub : (k :: (n.startingAt j).map Prod.fst) ⊆ (m.startingAt k).map Prod.fst := by
    intro i hi
    rcases List.mem_cons.1 hi with rfl | hi
    · exact List.mem_map.2 ⟨(i, a), mem_startingAt_iff.2 ⟨hk, le_rfl⟩, rfl⟩
    · obtain ⟨hsome, hle⟩ := hmem hi
      obtain ⟨hlt, hsome⟩ := h i hsome hle
      obtain ⟨b, hb⟩ := Option.isSome_iff_exists.1 hsome
      exact List.mem_map.2 ⟨(i, b), mem_startingAt_iff.2 ⟨hb, le_of_lt hlt⟩, rfl⟩
  have hlen := (hnodup.subperm hsub).length_le
  simp only [List.length_cons, List.length_map] at hlen
  omega

/-! ## Updates through `find?` -/

private theorem mem_insertEntry_iff (hs : es.Pairwise fun a b => a.1 < b.1) :
    e ∈ insertEntry k a es ↔ e = (k, a) ∨ (e ∈ es ∧ e.1 ≠ k) := by
  induction es with
  | nil => simp [insertEntry]
  | cons x es ih =>
    have ⟨hhd, htl⟩ := List.pairwise_cons.1 hs
    simp only [insertEntry]
    split
    · rename_i hlt
      have hne : ∀ y ∈ x :: es, y.1 ≠ k := by
        intro y hy
        rcases List.mem_cons.1 hy with rfl | hy
        · exact ne_of_gt hlt
        · exact ne_of_gt (lt_trans hlt (hhd y hy))
      constructor
      · intro h
        rcases List.mem_cons.1 h with h | h
        · exact .inl h
        · exact .inr ⟨h, hne e h⟩
      · rintro (h | ⟨h, -⟩)
        · exact h ▸ List.mem_cons_self
        · exact List.mem_cons_of_mem _ h
    · rename_i hnlt
      split
      · rename_i hlt
        simp only [List.mem_cons, ih htl]
        constructor
        · rintro (rfl | h | ⟨h, hk⟩)
          · exact .inr ⟨.inl rfl, ne_of_lt hlt⟩
          · exact .inl h
          · exact .inr ⟨.inr h, hk⟩
        · rintro (h | ⟨h | h, hk⟩)
          · exact .inr (.inl h)
          · exact .inl h
          · exact .inr (.inr ⟨h, hk⟩)
      · rename_i hnlt'
        have heq : x.1 = k := le_antisymm (not_lt.1 hnlt) (not_lt.1 hnlt')
        simp only [List.mem_cons]
        constructor
        · rintro (h | h)
          · exact .inl h
          · exact .inr ⟨.inr h, ne_of_gt (heq ▸ hhd e h)⟩
        · rintro (h | ⟨rfl | h, hk⟩)
          · exact .inl h
          · exact absurd heq hk
          · exact .inr h

/-- A key is absent exactly when no value is stored at it. -/
theorem find?_eq_none : m.find? k = none ↔ ∀ a, (k, a) ∉ m.entries := by
  simp [mem_entries_iff, Option.eq_none_iff_forall_ne_some]

@[simp] theorem find?_insert :
    (m.insert k a).find? j = if j = k then some a else m.find? j := by
  ext b
  rw [← mem_entries_iff, insert, mem_insertEntry_iff m.sorted]
  split
  · rename_i h
    simp [h, eq_comm]
  · rename_i h
    simp [h, mem_entries_iff]

@[simp] theorem find?_erase :
    (m.erase k).find? j = if j = k then none else m.find? j := by
  ext b
  rw [← mem_entries_iff]
  split
  · rename_i h
    simp [erase, h]
  · rename_i h
    simp [erase, h, mem_entries_iff]

theorem emplace_of_find?_eq_none (h : m.find? k = none) : m.emplace k a = m.insert k a := by
  simp [emplace, h]

theorem find?_emplace_of_ne (h : j ≠ k) : (m.emplace k a).find? j = m.find? j := by
  unfold emplace
  split
  · rfl
  · rw [find?_insert, if_neg h]

theorem modify_of_find?_eq_some (h : m.find? k = some a) : m.modify k f = m.insert k (f a) := by
  simp [modify, h]

@[simp] theorem find?_modify : (m.modify k f).find? j = if j = k then (m.find? k).map f else m.find? j := by
  unfold modify
  cases hk : m.find? k with
  | none =>
    by_cases h : j = k
    · simp [h, hk]
    · simp [h]
  | some a => simp

/-- Two maps that agree on the entries of a kind list them in the same order. -/
theorem filter_entries_congr {n : StdMap κ α} {P : κ × α → Bool}
    (h : ∀ k a, P (k, a) → (m.find? k = some a ↔ n.find? k = some a)) :
    m.entries.filter P = n.entries.filter P := by
  have hnodup : ∀ l : StdMap κ α, (l.entries.filter P).Nodup := fun l =>
    (List.Nodup.of_map _ l.nodup_keys).filter P
  have hperm : (m.entries.filter P).Perm (n.entries.filter P) := by
    refine (List.perm_ext_iff_of_nodup (hnodup m) (hnodup n)).2 ?_
    rintro ⟨k, a⟩
    simp only [List.mem_filter, mem_entries_iff]
    exact and_congr_left (h k a)
  exact hperm.eq_of_pairwise (fun a b _ _ hab hba => absurd hab (lt_asymm hba))
    (m.sorted.filter P) (n.sorted.filter P)

/-- Two maps with the same lookups are the same map. -/
theorem ext_find? {n : StdMap κ α} (h : ∀ k, m.find? k = n.find? k) : m = n := by
  have heq : m.entries.filter (fun _ => true) = n.entries.filter fun _ => true :=
    filter_entries_congr fun k _ _ => by rw [h k]
  rw [List.filter_true, List.filter_true] at heq
  cases m
  cases n
  simpa using heq

theorem modify_modify {f g : α → α} : (m.modify k f).modify k g = m.modify k fun a => g (f a) := by
  refine ext_find? fun j => ?_
  by_cases hj : j = k
  · cases hk : m.find? k <;> simp [hj, hk]
  · simp [hj]

/-- A loop from the entry at `k` goes on with the entries from the next key on. -/
theorem startingAt_eq_cons (hk : m.find? k = some a) (hkj : k < j)
    (hnext : ∀ i b, m.find? i = some b → k < i → j ≤ i) :
    m.startingAt k = (k, a) :: m.startingAt j := by
  have hsorted : ((k, a) :: m.startingAt j).Pairwise fun e e' => e.1 < e'.1 := by
    refine List.pairwise_cons.2 ⟨?_, sorted_startingAt⟩
    rintro ⟨i, b⟩ hi
    exact lt_of_lt_of_le hkj (mem_startingAt_iff.1 hi).2
  have hnodup : ∀ {es : List (κ × α)}, (es.Pairwise fun e e' => e.1 < e'.1) → es.Nodup :=
    fun h => h.imp fun hlt heq => absurd (congrArg Prod.fst heq) (ne_of_lt hlt)
  have hperm : (m.startingAt k).Perm ((k, a) :: m.startingAt j) := by
    refine (List.perm_ext_iff_of_nodup (hnodup sorted_startingAt) (hnodup hsorted)).2 ?_
    rintro ⟨i, b⟩
    rw [List.mem_cons, mem_startingAt_iff, mem_startingAt_iff]
    constructor
    · rintro ⟨hi, hki⟩
      rcases lt_or_eq_of_le hki with hlt | rfl
      · exact .inr ⟨hi, hnext i b hi hlt⟩
      · rw [hk] at hi
        cases hi
        exact .inl rfl
    · rintro (heq | ⟨hi, hji⟩)
      · cases heq
        exact ⟨hk, le_refl k⟩
      · exact ⟨hi, le_of_lt (lt_of_lt_of_le hkj hji)⟩
  exact hperm.eq_of_pairwise (fun a b _ _ hab hba => absurd hab (lt_asymm hba))
    sorted_startingAt hsorted

theorem startingAt_of_find? (hk : m.find? k = some a) :
    m.startingAt k = (k, a) :: (m.startingAt k).tail := by
  have hmem := mem_startingAt_iff.2 ⟨hk, le_refl k⟩
  cases hs : m.startingAt k with
  | nil =>
    rw [hs] at hmem
    cases hmem
  | cons e es =>
    have hsorted := sorted_startingAt (m := m) (k := k)
    have hge := (mem_startingAt_iff (m := m) (k := k) (j := e.1) (a := e.2)).1
      (by rw [hs]; exact List.mem_cons_self ..)
    rw [hs] at hmem hsorted
    rcases List.mem_cons.1 hmem with rfl | hin
    · rfl
    · exact absurd ((List.pairwise_cons.1 hsorted).1 _ hin) (not_lt.2 hge.2)

/-- Behind the entry at `k` comes the next one. -/
theorem tail_startingAt (hk : m.find? k = some a) {b : α} (h : m.next? k = some (j, b)) :
    (m.startingAt k).tail = (j, b) :: (m.startingAt j).tail := by
  obtain ⟨hj, hkj, hnext⟩ := next?_eq_some.1 h
  rw [startingAt_eq_cons hk hkj hnext, List.tail_cons]
  exact startingAt_of_find? hj

theorem tail_startingAt_of_last (h : m.next? k = none) : (m.startingAt k).tail = [] := by
  cases hs : m.startingAt k with
  | nil => rfl
  | cons e es =>
    have hall : ∀ e' ∈ e :: es, e'.1 = k := by
      intro e' he'
      rw [← hs] at he'
      obtain ⟨hfind, hle⟩ := mem_startingAt_iff.1 he'
      exact le_antisymm (next?_eq_none.1 h _ _ hfind) hle
    cases es with
    | nil => rfl
    | cons e' es =>
      have hsorted := sorted_startingAt (m := m) (k := k)
      rw [hs] at hsorted
      have hlt := (List.pairwise_cons.1 hsorted).1 e' (List.mem_cons_self ..)
      rw [hall e (List.mem_cons_self ..),
        hall e' (List.mem_cons_of_mem _ (List.mem_cons_self ..))] at hlt
      exact absurd hlt (lt_irrefl k)

/-- A loop from the entry at `k` to the end of the map, by induction on what is behind it. -/
theorem next_induction {P : κ → α → Prop}
    (last : ∀ k a, m.find? k = some a → m.next? k = none → P k a)
    (next : ∀ k a j b, m.find? k = some a → m.next? k = some (j, b) → m.find? j = some b → k < j →
      P j b → P k a)
    (hk : m.find? k = some a) : P k a := by
  induction hes : (m.startingAt k).tail generalizing k a with
  | nil =>
    cases hnext : m.next? k with
    | none => exact last k a hk hnext
    | some e =>
      rw [tail_startingAt hk hnext] at hes
      cases hes
  | cons e es ih =>
    cases hnext : m.next? k with
    | none => exact last k a hk hnext
    | some e' =>
      obtain ⟨j, b⟩ := e'
      obtain ⟨hj, hkj, -⟩ := next?_eq_some.1 hnext
      rw [tail_startingAt hk hnext] at hes
      cases hes
      exact next k a j b hk hnext hj hkj (ih hj rfl)

/-- Change every stored value. -/
def mapVal (m : StdMap κ α) (f : α → α) : StdMap κ α :=
  ⟨m.entries.map fun e => (e.1, f e.2), List.pairwise_map.2 m.sorted⟩

@[simp] theorem find?_mapVal : (m.mapVal f).find? k = (m.find? k).map f := by
  ext b
  rw [← mem_entries_iff]
  simp only [mapVal, List.mem_map, Prod.mk.injEq, Prod.exists, Option.map_eq_some_iff]
  constructor
  · rintro ⟨i, a, hmem, rfl, rfl⟩
    exact ⟨a, mem_entries_iff.1 hmem, rfl⟩
  · rintro ⟨a, hk, rfl⟩
    exact ⟨k, a, mem_entries_iff.2 hk, rfl, rfl⟩

/-! ## Inserting a list of entries -/

/-- `for (e : es) m[e.first] = e.second;` -/
def insertAll (m : StdMap κ α) (es : List (κ × α)) : StdMap κ α :=
  es.foldl (fun m e => m.insert e.1 e.2) m

@[simp] theorem insertAll_nil : m.insertAll [] = m := rfl
@[simp] theorem insertAll_cons : m.insertAll (e :: es) = (m.insert e.1 e.2).insertAll es := rfl

theorem find?_insertAll (hes : es.Pairwise fun e e' => e.1 ≠ e'.1) : (m.insertAll es).find? k = some a ↔
      (k, a) ∈ es ∨ ((∀ e ∈ es, e.1 ≠ k) ∧ m.find? k = some a) := by
  induction es generalizing m with
  | nil => simp
  | cons e es ih =>
    have ⟨hhd, htl⟩ := List.pairwise_cons.1 hes
    rw [insertAll_cons, ih htl, find?_insert]
    by_cases hk : k = e.1
    · subst hk
      have hnot : ∀ b, (e.1, b) ∉ es := fun b hb => hhd _ hb rfl
      have hnot' : ∀ x ∈ es, x.1 ≠ e.1 := fun x hx heq => hhd x hx heq.symm
      simp only [hnot, false_or, if_true, Option.some.injEq, List.mem_cons, or_false]
      constructor
      · rintro ⟨-, rfl⟩
        exact .inl rfl
      · rintro (h | ⟨h, -⟩)
        · exact ⟨hnot', (congrArg Prod.snd h).symm⟩
        · exact absurd rfl (h e (.inl rfl))
    · have hmem : (k, a) ∈ e :: es ↔ (k, a) ∈ es := by simp [Prod.ext_iff, hk]
      rw [if_neg hk, hmem, List.forall_mem_cons]
      constructor
      · rintro (h | ⟨h, hm⟩)
        · exact .inl h
        · exact .inr ⟨⟨fun heq => hk heq.symm, h⟩, hm⟩
      · rintro (h | ⟨⟨-, h⟩, hm⟩)
        · exact .inl h
        · exact .inr ⟨h, hm⟩

/-- Emplacing a list of values: the first one for a key stays. -/
theorem find?_foldl_emplace {ι : Type*} (f : ι → κ) (g : ι → α) (is : List ι) :
    (is.foldl (fun m i => m.emplace (f i) (g i)) m).find? k =
      (m.find? k).or ((is.find? fun i => f i = k).map g) := by
  induction is generalizing m with
  | nil => simp
  | cons i is ih =>
    rw [List.foldl_cons, ih]
    cases hi : m.find? (f i) with
    | some a =>
      have hsame : m.emplace (f i) (g i) = m := by simp [emplace, hi]
      rw [hsame]
      by_cases hk : f i = k
      · simp [← hk, hi]
      · simp [hk]
    | none =>
      rw [emplace_of_find?_eq_none hi, find?_insert]
      by_cases hk : f i = k
      · subst hk
        simp [hi]
      · simp [hk, Ne.symm hk]

/-- Emplacing values under different keys keeps them all. -/
theorem find?_foldl_emplace_eq_some {ι : Type*} {f : ι → κ} {g : ι → α} {is : List ι}
    (hinj : ∀ i ∈ is, ∀ j ∈ is, f i = f j → i = j) :
    (is.foldl (fun m i => m.emplace (f i) (g i)) (∅ : StdMap κ α)).find? k = some a ↔
      ∃ i ∈ is, f i = k ∧ g i = a := by
  rw [find?_foldl_emplace, find?_empty, Option.none_or, Option.map_eq_some_iff]
  constructor
  · rintro ⟨i, hi, rfl⟩
    exact ⟨i, List.mem_of_find?_eq_some hi, by simpa using List.find?_some hi, rfl⟩
  · rintro ⟨i, hi, rfl, rfl⟩
    cases hfind : is.find? fun j => f j = f i with
    | none => exact absurd (List.find?_eq_none.1 hfind i hi) (by simp)
    | some j =>
      have hkey : f j = f i := by simpa using List.find?_some hfind
      exact ⟨j, rfl, by rw [hinj j (List.mem_of_find?_eq_some hfind) i hi hkey]⟩

/-! ## Sums over the entries -/

/-- The sum of `f` over the stored values. -/
def sum (m : StdMap κ α) (f : α → Nat) : Nat := (m.entries.map fun e => f e.2).sum

end StdMap
