-- SUMMARY: Address-indexed maps of areas read byte by byte: splitting, joining and relabelling areas, and counting bytes.
import Mathlib.Data.Set.Card
import Mathlib.Order.Interval.Finset.Nat
import W7PS4.Lib.StdMap

/-!
# Maps of areas

A memory manager keeps an address space as an ordered map from start addresses
to areas. Splitting an area and joining two neighbours change the entries but
not what the map says about any byte. `at?` is that reading: the map as a
partial function from addresses to bytes. Entries are bookkeeping, bytes are
the meaning, and the rules below say how each update of the entries acts on the
bytes.
-/

universe u v

/-- A type of areas: how many bytes an area has, and what it says about the
    byte at an offset. -/
class Area (α : Type u) (β : outParam (Type v)) where
  size : α → Nat
  byte : α → Nat → β

namespace StdMap

variable {α : Type u} {β : Type v} [Area α β]

/-- What the map says about the byte at address `p`. -/
def at? (m : StdMap Nat α) (p : Nat) : Option β :=
  match m.floor? p with
  | some (k, a) => if p < k + Area.size a then some (Area.byte a (p - k)) else none
  | none => none

/-- Changing what every area says about its bytes. -/
theorem at?_mapVal {m : StdMap Nat α} {f : α → α} {g : β → β} {p : Nat}
    (hsize : ∀ a, Area.size (f a) = Area.size a)
    (hbyte : ∀ a o, Area.byte (f a) o = g (Area.byte a o)) :
    (m.mapVal f).at? p = (m.at? p).map g := by
  have hfloor : (m.mapVal f).floor? p = (m.floor? p).map fun e => (e.1, f e.2) := by
    cases h : m.floor? p with
    | none =>
      rw [floor?_eq_none] at h
      rw [Option.map_none, floor?_eq_none]
      intro i b hi
      rw [find?_mapVal, Option.map_eq_some_iff] at hi
      obtain ⟨a, ha, -⟩ := hi
      exact h i a ha
    | some e =>
      obtain ⟨hk, hle, hmax⟩ := floor?_eq_some.1 h
      rw [Option.map_some, floor?_eq_some]
      refine ⟨by simp [hk], hle, fun i b hi hip => ?_⟩
      rw [find?_mapVal, Option.map_eq_some_iff] at hi
      obtain ⟨a, ha, -⟩ := hi
      exact hmax i a ha hip
  simp only [at?, hfloor]
  cases m.floor? p with
  | none => rfl
  | some e =>
    simp only [Option.map_some, hsize, hbyte]
    split <;> rfl

/-- No area reaches past the start of a later one. -/
def Separated (m : StdMap Nat α) : Prop :=
  ∀ j a k b, m.find? j = some a → m.find? k = some b → j < k → j + Area.size a ≤ k

variable {m n : StdMap Nat α} {k off p : Nat} {a a' l r : α} {x : β}

/-! ## Reading -/

theorem at?_of_find? (hm : m.Separated) (hk : m.find? k = some a) (hle : k ≤ p)
    (hlt : p < k + Area.size a) : m.at? p = some (Area.byte a (p - k)) := by
  have hfloor : m.floor? p = some (k, a) := by
    refine floor?_eq_some.2 ⟨hk, hle, ?_⟩
    intro i b hi hip
    by_contra hki
    have := hm k a i b hk hi (by simpa using hki)
    omega
  simp [at?, hfloor, hlt]

theorem exists_of_at? (h : m.at? p = some x) :
    ∃ k a, m.find? k = some a ∧ k ≤ p ∧ p < k + Area.size a ∧ Area.byte a (p - k) = x := by
  unfold at? at h
  split at h
  · rename_i k a hfloor
    obtain ⟨hk, hle, -⟩ := floor?_eq_some.1 hfloor
    split at h
    · exact ⟨k, a, hk, hle, by assumption, by simpa using h⟩
    · cases h
  · cases h

theorem at?_eq_some (hm : m.Separated) :
    m.at? p = some x ↔
      ∃ k a, m.find? k = some a ∧ k ≤ p ∧ p < k + Area.size a ∧ Area.byte a (p - k) = x := by
  refine ⟨exists_of_at?, ?_⟩
  rintro ⟨k, a, hk, hle, hlt, rfl⟩
  exact at?_of_find? hm hk hle hlt

theorem at?_eq_none (hm : m.Separated) :
    m.at? p = none ↔ ∀ k a, m.find? k = some a → k ≤ p → k + Area.size a ≤ p := by
  constructor
  · intro h k a hk hle
    by_contra hlt
    rw [at?_of_find? hm hk hle (by omega)] at h
    cases h
  · intro h
    rw [Option.eq_none_iff_forall_ne_some]
    intro x hx
    obtain ⟨k, a, hk, hle, hlt, -⟩ := exists_of_at? hx
    have := h k a hk hle
    omega

/-- The area that holds a byte is the one `floor?` finds. -/
theorem floor?_of_mem (hm : m.Separated) (hk : m.find? k = some a) (hle : k ≤ p)
    (hlt : p < k + Area.size a) : m.floor? p = some (k, a) := by
  refine floor?_eq_some.2 ⟨hk, hle, ?_⟩
  intro i b hi hip
  by_contra hki
  have := hm k a i b hk hi (by simpa using hki)
  omega

/-- A byte lies in one area only. -/
theorem Separated.unique (hm : m.Separated) {j : Nat} {b : α} (hj : m.find? j = some b)
    (hk : m.find? k = some a) (hjp : j ≤ p) (hpj : p < j + Area.size b) (hkp : k ≤ p)
    (hpk : p < k + Area.size a) : j = k := by
  rcases Nat.lt_trichotomy j k with hlt | heq | hgt
  · have := hm j b k a hj hk hlt
    omega
  · exact heq
  · have := hm k a j b hk hj hgt
    omega

/-- A loop over the areas goes on behind the current one. -/
theorem Separated.startingAt_eq_cons (hm : m.Separated) (hk : m.find? k = some a)
    (hpos : 0 < Area.size a) : m.startingAt k = (k, a) :: m.startingAt (k + Area.size a) :=
  StdMap.startingAt_eq_cons hk (by omega) fun i b hi hki => hm k a i b hk hi hki

/-- A walk over the areas of a covered range, from the one that holds its first byte: it ends
    in the area that holds the rest, or goes on at the start of the next one. -/
theorem Separated.walk_induction {P : Nat → α → Nat → Nat → Prop} (hm : m.Separated)
    (last : ∀ k a c n, m.find? k = some a → k ≤ c → c < k + Area.size a →
      c + n ≤ k + Area.size a → P k a c n)
    (next : ∀ k a c n b, m.find? k = some a → k ≤ c → c < k + Area.size a →
      k + Area.size a < c + n → m.find? (k + Area.size a) = some b → 0 < Area.size b →
      P (k + Area.size a) b (k + Area.size a) (c + n - (k + Area.size a)) → P k a c n)
    {k : Nat} {a : α} {c n : Nat} (hk : m.find? k = some a) (hle : k ≤ c)
    (hlt : c < k + Area.size a) (hall : ∀ p, c ≤ p → p < c + n → (m.at? p).isSome) :
    P k a c n := by
  induction n using Nat.strong_induction_on generalizing k a c with
  | h n ih =>
    by_cases hn : c + n ≤ k + Area.size a
    · exact last k a c n hk hle hlt hn
    obtain ⟨x, hx⟩ := Option.isSome_iff_exists.1 (hall (k + Area.size a) (by omega) (by omega))
    obtain ⟨j, b, hj, hjle, hjlt, -⟩ := exists_of_at? hx
    have hjk : j = k + Area.size a := by
      rcases Nat.lt_trichotomy j k with hjk | rfl | hkj
      · have := hm j b k a hj hk hjk
        omega
      · rw [hk] at hj
        cases hj
        omega
      · have := hm k a j b hk hj hkj
        omega
    subst hjk
    exact next k a c n b hk hle hlt (by omega) hj (by omega)
      (ih _ (by omega) hj le_rfl hjlt fun p hp hp' => hall p (by omega) (by omega))

/-! ## Relabelling an area -/

theorem Separated.insert_of_size_le (hm : m.Separated) (hk : m.find? k = some a)
    (hsz : Area.size a' ≤ Area.size a) : (m.insert k a').Separated := by
  intro i b j c hi hj hij
  simp only [find?_insert] at hi hj
  split at hi <;> split at hj
  · omega
  · cases hi
    have := hm k a j c hk hj (by omega)
    omega
  · cases hj
    have := hm i b k a hi hk (by omega)
    omega
  · exact hm i b j c hi hj hij

/-- Replacing the value of an area of the same size changes its bytes only. -/
theorem at?_insert_of_size_eq (hm : m.Separated) (hk : m.find? k = some a)
    (hsz : Area.size a' = Area.size a) :
    (m.insert k a').at? p =
      if k ≤ p ∧ p < k + Area.size a then some (Area.byte a' (p - k)) else m.at? p := by
  have hm' : (m.insert k a').Separated := hm.insert_of_size_le hk (by omega)
  split
  · rename_i hp
    exact at?_of_find? hm' (by simp) hp.1 (by omega)
  rename_i hp
  ext x
  rw [at?_eq_some hm', at?_eq_some hm]
  constructor
  · rintro ⟨i, b, hi, hle, hlt, hx⟩
    by_cases hik : i = k
    · subst hik
      simp only [find?_insert, if_true, Option.some.injEq] at hi
      subst hi
      omega
    · exact ⟨i, b, by simpa [hik] using hi, hle, hlt, hx⟩
  · rintro ⟨i, b, hi, hle, hlt, hx⟩
    by_cases hik : i = k
    · subst hik
      rw [hk] at hi
      cases hi
      omega
    · exact ⟨i, b, by simpa [hik] using hi, hle, hlt, hx⟩

/-- Cutting off the end of an area. -/
theorem at?_insert_of_size_le (hm : m.Separated) (hk : m.find? k = some a)
    (hsz : Area.size a' ≤ Area.size a)
    (hbyte : ∀ o, o < Area.size a' → Area.byte a' o = Area.byte a o) :
    (m.insert k a').at? p =
      if k + Area.size a' ≤ p ∧ p < k + Area.size a then none else m.at? p := by
  have hm' : (m.insert k a').Separated := hm.insert_of_size_le hk hsz
  split
  · rename_i hp
    rw [at?_eq_none hm']
    intro i b hi hip
    simp only [find?_insert] at hi
    split at hi
    · rename_i hik
      cases hi
      omega
    rename_i hik
    by_contra hlt
    exact hik (hm.unique hi hk hip (by omega) (by omega) hp.2)
  · rename_i hp
    ext x
    rw [at?_eq_some hm', at?_eq_some hm]
    constructor
    · rintro ⟨i, b, hi, hle, hlt, hx⟩
      simp only [find?_insert] at hi
      split at hi
      · rename_i hik
        cases hi
        subst hik
        exact ⟨i, a, hk, hle, by omega, by rw [← hbyte (p - i) (by omega), hx]⟩
      · exact ⟨i, b, hi, hle, hlt, hx⟩
    · rintro ⟨i, b, hi, hle, hlt, hx⟩
      by_cases hik : i = k
      · subst hik
        rw [hk] at hi
        cases hi
        exact ⟨i, a', by simp, hle, by omega, by rw [hbyte (p - i) (by omega), hx]⟩
      · exact ⟨i, b, by simp [hik, hi], hle, hlt, hx⟩

/-! ## Adding an area -/

theorem Separated.insert_fresh (hm : m.Separated)
    (hfree : ∀ i b, m.find? i = some b → i ≠ k ∧ (i < k → i + Area.size b ≤ k) ∧
      (k < i → k + Area.size a ≤ i)) :
    (m.insert k a).Separated := by
  intro i b j c hi hj hij
  simp only [find?_insert] at hi hj
  split at hi <;> split at hj
  · omega
  · cases hi
    have := hfree j c hj
    omega
  · cases hj
    have := hfree i b hi
    omega
  · exact hm i b j c hi hj hij

theorem at?_insert_fresh (hm : m.Separated)
    (hfree : ∀ i b, m.find? i = some b → i ≠ k ∧ (i < k → i + Area.size b ≤ k) ∧
      (k < i → k + Area.size a ≤ i)) :
    (m.insert k a).at? p =
      if k ≤ p ∧ p < k + Area.size a then some (Area.byte a (p - k)) else m.at? p := by
  have hm' := hm.insert_fresh hfree
  split
  · rename_i hp
    exact at?_of_find? hm' (by simp) hp.1 hp.2
  rename_i hp
  ext x
  rw [at?_eq_some hm', at?_eq_some hm]
  constructor
  · rintro ⟨i, b, hi, hle, hlt, hx⟩
    by_cases hik : i = k
    · subst hik
      simp only [find?_insert, if_true, Option.some.injEq] at hi
      subst hi
      omega
    · exact ⟨i, b, by simpa [hik] using hi, hle, hlt, hx⟩
  · rintro ⟨i, b, hi, hle, hlt, hx⟩
    have hik := (hfree i b hi).1
    exact ⟨i, b, by simpa [hik] using hi, hle, hlt, hx⟩

/-! ## Splitting an area and joining two -/

/-- `l` and `r` are the two parts of `a` cut at `off`. The right part may be
    empty. -/
structure Cut (a : α) (off : Nat) (l r : α) : Prop where
  pos : 0 < off
  le : off ≤ Area.size a
  size_left : Area.size l = off
  size_right : Area.size r = Area.size a - off
  byte_left : ∀ o, o < off → Area.byte l o = Area.byte a o
  byte_right : ∀ o, o < Area.size a - off → Area.byte r o = Area.byte a (off + o)

/-- Nothing starts strictly inside an area. -/
theorem Separated.find?_inside (hm : m.Separated) (hk : m.find? k = some a) (hpos : 0 < off)
    (hlt : off < Area.size a) : m.find? (k + off) = none := by
  rw [Option.eq_none_iff_forall_ne_some]
  intro b hb
  have := hm k a (k + off) b hk hb (by omega)
  omega

theorem Separated.split (hm : m.Separated) (hk : m.find? k = some a) (hc : Cut a off l r)
    (hfree : m.find? (k + off) = none) : ((m.insert k l).insert (k + off) r).Separated := by
  have hpos := hc.pos
  have hle := hc.le
  have hl := hc.size_left
  have hr := hc.size_right
  refine (hm.insert_of_size_le hk (by omega)).insert_fresh ?_
  intro i b hi
  simp only [find?_insert] at hi
  split at hi
  · cases hi
    omega
  refine ⟨?_, ?_, ?_⟩
  · rintro rfl
    rw [hfree] at hi
    cases hi
  · intro hik
    by_cases hik' : i < k
    · have := hm i b k a hi hk hik'
      omega
    · have := hm k a i b hk hi (by omega)
      omega
  · intro hik
    have := hm k a i b hk hi (by omega)
    omega

/-- Splitting an area changes no byte. -/
theorem at?_split (hm : m.Separated) (hk : m.find? k = some a) (hc : Cut a off l r)
    (hfree : m.find? (k + off) = none) :
    ((m.insert k l).insert (k + off) r).at? p = m.at? p := by
  have hm' := hm.split hk hc hfree
  have hpos := hc.pos
  have hle := hc.le
  have hl := hc.size_left
  have hr := hc.size_right
  by_cases hp : k ≤ p ∧ p < k + Area.size a
  · rw [at?_of_find? hm hk hp.1 hp.2]
    by_cases hpo : p < k + off
    · rw [at?_of_find? (k := k) (a := l) hm' (by simp [Nat.ne_of_gt hpos]) hp.1 (by omega),
        hc.byte_left _ (by omega)]
    rw [at?_of_find? (k := k + off) (a := r) hm' (by simp) (by omega) (by omega),
      hc.byte_right _ (by omega)]
    congr 2
    omega
  · ext x
    rw [at?_eq_some hm', at?_eq_some hm]
    constructor
    · rintro ⟨i, b, hi, hle, hib, hx⟩
      simp only [find?_insert] at hi
      split at hi
      · cases hi
        omega
      split at hi
      · cases hi
        omega
      · exact ⟨i, b, hi, hle, hib, hx⟩
    · rintro ⟨i, b, hi, hle, hib, hx⟩
      have hik : i ≠ k := by
        rintro rfl
        rw [hk] at hi
        cases hi
        omega
      have hiko : i ≠ k + off := by
        rintro rfl
        rw [hfree] at hi
        cases hi
      exact ⟨i, b, by simpa [hik, hiko] using hi, hle, hib, hx⟩

/-- Joining is splitting read backwards: `a` in the place of `l` and `r`. -/
theorem Separated.join (hm : m.Separated) (hl : m.find? k = some l)
    (hr : m.find? (k + off) = some r) (hc : Cut a off l r) :
    ((m.insert k a).erase (k + off)).Separated := by
  have hpos := hc.pos
  have hle := hc.le
  have hsl := hc.size_left
  have hsr := hc.size_right
  intro i b j c hi hj hij
  simp only [find?_insert, find?_erase] at hi hj
  split at hi
  · cases hi
  split at hj
  · cases hj
  split at hi
  · cases hi
    rw [if_neg (by omega)] at hj
    by_cases hjo : j < k + off
    · have := hm k l j c hl hj (by omega)
      omega
    · have := hm (k + off) r j c hr hj (by omega)
      omega
  · split at hj
    · cases hj
      have := hm i b k l hi hl (by omega)
      omega
    · exact hm i b j c hi hj hij

/-- Joining two areas changes no byte. -/
theorem at?_join (hm : m.Separated) (hl : m.find? k = some l)
    (hr : m.find? (k + off) = some r) (hc : Cut a off l r) :
    ((m.insert k a).erase (k + off)).at? p = m.at? p := by
  have hm' := hm.join hl hr hc
  -- splitting the joined area again gives back the map we started from
  have hoff := Nat.ne_of_gt hc.pos
  have hk : ((m.insert k a).erase (k + off)).find? k = some a := by simp [hoff]
  have hback : ((((m.insert k a).erase (k + off)).insert k l).insert (k + off) r) = m := by
    refine ext_find? fun i => ?_
    by_cases hi : i = k + off
    · simp [hi, hr]
    by_cases hik : i = k
    · simp [hik, hl, hoff]
    · simp [hi, hik]
  rw [← at?_split hm' hk hc (by simp), hback]

/-! ## Tilings -/

/-- The areas cover `[0, n)` without gap, overlap or empty area. -/
structure Tiles (m : StdMap Nat α) (n : Nat) : Prop where
  separated : m.Separated
  pos : ∀ k a, m.find? k = some a → 0 < Area.size a
  le : ∀ k a, m.find? k = some a → k + Area.size a ≤ n
  covered : ∀ o, o < n → ∃ x, m.at? o = some x

/-- An area of a tiling ends where the next one starts, or at the end. -/
theorem Tiles.end_eq {n : Nat} (h : m.Tiles n) (hk : m.find? k = some a) :
    k + Area.size a = n ∨ ∃ b, m.find? (k + Area.size a) = some b := by
  by_cases hn : k + Area.size a = n
  · exact .inl hn
  right
  have hle := h.le k a hk
  obtain ⟨x, hx⟩ := h.covered (k + Area.size a) (by omega)
  obtain ⟨j, b, hj, hjle, hjlt, -⟩ := exists_of_at? hx
  have hkj : j = k + Area.size a := by
    by_contra hne
    have hpos := h.pos k a hk
    rcases Nat.lt_trichotomy j k with hlt | heq | hgt
    · have := h.separated j b k a hj hk hlt
      omega
    · subst heq
      rw [hk] at hj
      cases hj
      omega
    · have := h.separated k a j b hk hj hgt
      omega
  exact ⟨b, hkj ▸ hj⟩

theorem Tiles.next?_eq {n j : Nat} {b : α} (h : m.Tiles n) (hk : m.find? k = some a)
    (hj : m.next? k = some (j, b)) : j = k + Area.size a := by
  obtain ⟨hjb, hkj, hmin⟩ := next?_eq_some.1 hj
  simp only at hjb hkj
  have hsep := h.separated k a j b hk hjb hkj
  rcases h.end_eq hk with hn | ⟨c, hc⟩
  · have := h.le j b hjb
    have := h.pos j b hjb
    omega
  · have hpos := h.pos k a hk
    have := hmin _ c hc (by omega)
    simp only at this
    omega

theorem Tiles.first?_eq {n : Nat} (h : m.Tiles n) (hn : 0 < n) : ∃ a, m.first? = some (0, a) := by
  obtain ⟨x, hx⟩ := h.covered 0 hn
  obtain ⟨k, a, hk, hle, -⟩ := exists_of_at? hx
  have hk0 : k = 0 := by omega
  subst hk0
  exact ⟨a, first?_eq_some.2 ⟨hk, fun i _ _ => Nat.zero_le i⟩⟩

theorem Tiles.last?_eq {n : Nat} (h : m.Tiles n) (hk : m.last? = some (k, a)) :
    k + Area.size a = n := by
  obtain ⟨hka, hmax⟩ := last?_eq_some.1 hk
  simp only at hka hmax
  rcases h.end_eq hka with hn | ⟨b, hb⟩
  · exact hn
  · have := hmax _ b hb
    have := h.pos k a hka
    omega

theorem tiles_empty : (∅ : StdMap Nat α).Tiles 0 where
  separated := by
    intro j a k b hj
    simp at hj
  pos := by simp
  le := by simp
  covered := by simp

/-- Nothing of a tiling lies at or past its end. -/
theorem Tiles.at?_eq_none {n : Nat} (h : m.Tiles n) (hp : n ≤ p) : m.at? p = none := by
  rw [StdMap.at?_eq_none h.separated]
  intro k a hk _
  have := h.le k a hk
  omega

theorem Tiles.startingAt_end {n : Nat} (h : m.Tiles n) : m.startingAt n = [] := by
  rw [List.eq_nil_iff_forall_not_mem]
  rintro ⟨k, a⟩ hmem
  obtain ⟨hk, hle⟩ := mem_startingAt_iff.1 hmem
  have := h.le k a hk
  have := h.pos k a hk
  omega

/-- Appending an area to a tiling. -/
theorem Tiles.append {n : Nat} (h : m.Tiles n) (ha : 0 < Area.size a) :
    (m.insert n a).Tiles (n + Area.size a) ∧
      ∀ p, (m.insert n a).at? p =
        if n ≤ p ∧ p < n + Area.size a then some (Area.byte a (p - n)) else m.at? p := by
  have hfree : ∀ i b, m.find? i = some b → i ≠ n ∧ (i < n → i + Area.size b ≤ n) ∧
      (n < i → n + Area.size a ≤ i) := by
    intro i b hi
    have := h.le i b hi
    have := h.pos i b hi
    omega
  have hat := fun p => at?_insert_fresh (p := p) h.separated hfree
  refine ⟨⟨h.separated.insert_fresh hfree, ?_, ?_, ?_⟩, hat⟩
  · intro k b hk
    simp only [find?_insert] at hk
    split at hk
    · cases hk
      exact ha
    · exact h.pos k b hk
  · intro k b hk
    simp only [find?_insert] at hk
    split at hk
    · cases hk
      omega
    · have := h.le k b hk
      omega
  · intro o ho
    rw [hat]
    split
    · exact ⟨_, rfl⟩
    · exact h.covered o (by omega)

/-- A second tiling put after the first. -/
def concat (m : StdMap Nat α) (n : Nat) (next : StdMap Nat α) : StdMap Nat α :=
  m.insertAll (next.entries.map fun e => (n + e.1, e.2))

theorem Tiles.find?_concat {n₁ : Nat} {next : StdMap Nat α} (h : m.Tiles n₁) :
    (m.concat n₁ next).find? k = some a ↔
      (n₁ ≤ k ∧ next.find? (k - n₁) = some a) ∨ m.find? k = some a := by
  have hkeys : (next.entries.map fun e => (n₁ + e.1, e.2)).Pairwise fun e e' => e.1 ≠ e'.1 := by
    refine List.pairwise_map.2 (next.sorted.imp ?_)
    intro e e' hlt
    simp only
    omega
  rw [concat, find?_insertAll hkeys]
  constructor
  · rintro (hmem | ⟨-, hk⟩)
    · obtain ⟨e, he, heq⟩ := List.mem_map.1 hmem
      simp only [Prod.mk.injEq] at heq
      obtain ⟨rfl, rfl⟩ := heq
      exact .inl ⟨by omega, by simpa using mem_entries_iff.1 he⟩
    · exact .inr hk
  · rintro (⟨hle, hk⟩ | hk)
    · exact .inl (List.mem_map.2 ⟨(k - n₁, a), mem_entries_iff.2 hk, by simp; omega⟩)
    · refine .inr ⟨?_, hk⟩
      intro e he
      obtain ⟨e', -, rfl⟩ := List.mem_map.1 he
      have := h.le k a hk
      have := h.pos k a hk
      simp only
      omega

theorem Tiles.concat {n₁ n₂ : Nat} {next : StdMap Nat α} (h₁ : m.Tiles n₁) (h₂ : next.Tiles n₂) :
    (m.concat n₁ next).Tiles (n₁ + n₂) ∧
      ∀ p, (m.concat n₁ next).at? p = if p < n₁ then m.at? p else next.at? (p - n₁) := by
  have hsep : (m.concat n₁ next).Separated := by
    intro j a k b hj hk hjk
    rw [h₁.find?_concat] at hj hk
    rcases hj with ⟨hjn, hj⟩ | hj <;> rcases hk with ⟨hkn, hk⟩ | hk
    · have := h₂.separated _ a _ b hj hk (by omega)
      omega
    · have := h₁.le k b hk
      have := h₁.pos k b hk
      omega
    · have := h₁.le j a hj
      omega
    · exact h₁.separated j a k b hj hk hjk
  have hat : ∀ p, (m.concat n₁ next).at? p =
      if p < n₁ then m.at? p else next.at? (p - n₁) := by
    intro p
    split
    · rename_i hp
      obtain ⟨x, hx⟩ := h₁.covered p hp
      obtain ⟨k, a, hk, hle, hlt, rfl⟩ := exists_of_at? hx
      rw [hx]
      exact at?_of_find? hsep (h₁.find?_concat.2 (.inr hk)) hle hlt
    · rename_i hp
      ext x
      rw [at?_eq_some hsep, at?_eq_some h₂.separated]
      constructor
      · rintro ⟨k, a, hk, hle, hlt, hx⟩
        rcases h₁.find?_concat.1 hk with ⟨hkn, hk⟩ | hk
        · refine ⟨k - n₁, a, hk, by omega, by omega, ?_⟩
          rw [← hx]
          congr 1
          omega
        · have := h₁.le k a hk
          omega
      · rintro ⟨k, a, hk, hle, hlt, hx⟩
        refine ⟨n₁ + k, a, h₁.find?_concat.2 (.inl ⟨by omega, by simpa using hk⟩), by omega,
          by omega, ?_⟩
        rw [← hx]
        congr 1
        omega
  refine ⟨⟨hsep, ?_, ?_, ?_⟩, hat⟩
  · intro k a hk
    rcases h₁.find?_concat.1 hk with ⟨-, hk⟩ | hk
    · exact h₂.pos _ a hk
    · exact h₁.pos k a hk
  · intro k a hk
    rcases h₁.find?_concat.1 hk with ⟨hkn, hk⟩ | hk
    · have := h₂.le _ a hk
      omega
    · have := h₁.le k a hk
      omega
  · intro o ho
    rw [hat]
    split
    · rename_i hlt
      exact h₁.covered o hlt
    · exact h₂.covered _ (by omega)

/-! ## Counting bytes -/

theorem ncard_Ico_add (k n : Nat) : (Set.Ico k (k + n)).ncard = n := by
  rw [← Finset.coe_Ico, Set.ncard_coe_finset, Nat.card_Ico, Nat.add_sub_cancel_left]

/-- A function that repeats no value below `n` has `n` values there. -/
theorem ncard_values {f : Nat → Nat} {n : Nat}
    (hinj : ∀ o o', o < n → o' < n → f o = f o' → o = o') :
    {q | ∃ o < n, f o = q}.ncard = n := by
  have himage : {q | ∃ o < n, f o = q} = f '' Set.Ico 0 (0 + n) := by
    ext q
    simp
  rw [himage, Set.InjOn.ncard_image, ncard_Ico_add]
  intro o ho o' ho' heq
  rw [Set.mem_Ico] at ho ho'
  exact hinj o o' (by omega) (by omega) heq

/-- The bytes of the areas of a list that satisfy `P`. -/
private def bytesOf (P : α → Prop) (es : List (Nat × α)) : Set Nat :=
  {p | ∃ e ∈ es, P e.2 ∧ e.1 ≤ p ∧ p < e.1 + Area.size e.2}

private theorem bytesOf_cons (P : α → Prop) (e : Nat × α) (es : List (Nat × α)) :
    bytesOf P (e :: es) =
      {p | P e.2 ∧ e.1 ≤ p ∧ p < e.1 + Area.size e.2} ∪ bytesOf P es := by
  ext p
  simp [bytesOf]

private theorem finite_bytesOf (P : α → Prop) (es : List (Nat × α)) : (bytesOf P es).Finite := by
  induction es with
  | nil => simp [bytesOf]
  | cons e es ih =>
    rw [bytesOf_cons]
    exact ((Set.finite_Ico e.1 (e.1 + Area.size e.2)).subset fun p hp => hp.2).union ih

private theorem ncard_bytesOf (P : α → Prop) [DecidablePred P] {es : List (Nat × α)}
    (hs : es.Pairwise fun e e' => e.1 + Area.size e.2 ≤ e'.1) :
    (es.map fun e => if P e.2 then Area.size e.2 else 0).sum = (bytesOf P es).ncard := by
  induction es with
  | nil => simp [bytesOf]
  | cons e es ih =>
    have ⟨hhd, htl⟩ := List.pairwise_cons.1 hs
    have hfin : {p | P e.2 ∧ e.1 ≤ p ∧ p < e.1 + Area.size e.2}.Finite :=
      (Set.finite_Ico e.1 (e.1 + Area.size e.2)).subset fun p hp => hp.2
    have hdisj : Disjoint {p | P e.2 ∧ e.1 ≤ p ∧ p < e.1 + Area.size e.2} (bytesOf P es) := by
      rw [Set.disjoint_left]
      rintro p ⟨-, -, hlt⟩ ⟨e', he', -, hle, -⟩
      have := hhd e' he'
      omega
    rw [bytesOf_cons, Set.ncard_union_eq hdisj hfin (finite_bytesOf P es), List.map_cons,
      List.sum_cons, ih htl]
    congr 1
    split
    · rename_i hP
      have heq : {p | P e.2 ∧ e.1 ≤ p ∧ p < e.1 + Area.size e.2} =
          Set.Ico e.1 (e.1 + Area.size e.2) := by
        ext p
        simp [hP]
      rw [heq, ncard_Ico_add]
    · rename_i hP
      simp [hP]

/-- The total size of the areas that satisfy `P` is the number of their bytes,
    so it depends on the reading of the map alone. -/
theorem sum_eq_ncard (hm : m.Separated) (P : α → Prop) [DecidablePred P] (Q : β → Prop)
    (hPQ : ∀ k a, m.find? k = some a → ∀ o, o < Area.size a → (Q (Area.byte a o) ↔ P a)) :
    m.sum (fun a => if P a then Area.size a else 0) =
      {p | ∃ x, m.at? p = some x ∧ Q x}.ncard := by
  have hs : m.entries.Pairwise fun e e' => e.1 + Area.size e.2 ≤ e'.1 := by
    refine m.sorted.imp_of_mem ?_
    intro e e' he he' hlt
    exact hm e.1 e.2 e'.1 e'.2 (mem_entries_iff.1 he) (mem_entries_iff.1 he') hlt
  rw [sum, ncard_bytesOf P hs]
  congr 1
  ext p
  constructor
  · rintro ⟨e, he, hP, hle, hlt⟩
    have hk := mem_entries_iff.1 he
    exact ⟨_, at?_of_find? hm hk hle hlt, (hPQ _ _ hk _ (by omega)).2 hP⟩
  · rintro ⟨x, hx, hQ⟩
    obtain ⟨k, a, hk, hle, hlt, rfl⟩ := exists_of_at? hx
    exact ⟨(k, a), mem_entries_iff.2 hk, (hPQ k a hk _ (by omega)).1 hQ, hle, hlt⟩

theorem finite_at? (m : StdMap Nat α) (Q : β → Prop) :
    {p | ∃ x, m.at? p = some x ∧ Q x}.Finite := by
  refine (finite_bytesOf (fun _ => True) m.entries).subset ?_
  rintro p ⟨x, hx, -⟩
  obtain ⟨k, a, hk, hle, hlt, -⟩ := exists_of_at? hx
  exact ⟨(k, a), mem_entries_iff.2 hk, trivial, hle, hlt⟩

/-- The byte behind an area is the first one of the next area. -/
theorem next?_of_at? {m : StdMap Nat α} {k : Nat} {a : α} {x : β} (hm : m.Separated)
    (hk : m.find? k = some a) (hpos : 0 < Area.size a) (hx : m.at? (k + Area.size a) = some x) :
    ∃ b, m.next? k = some (k + Area.size a, b) ∧ Area.byte b 0 = x := by
  obtain ⟨j, b, hj, hle, hlt, rfl⟩ := exists_of_at? hx
  have hkj : k < j := by
    by_contra hjk
    rcases Nat.lt_or_eq_of_le (Nat.le_of_not_lt hjk) with hjk | rfl
    · have := hm j b k a hj hk hjk
      omega
    · rw [hk] at hj
      cases hj
      omega
  have hend := hm k a j b hk hj hkj
  obtain rfl : j = k + Area.size a := by omega
  refine ⟨b, next?_eq_some.2 ⟨hj, hkj, fun i c hi hki => hm k a i c hk hi hki⟩, ?_⟩
  rw [Nat.sub_self]

end StdMap

/-! ## Lists of ranges -/

/-- Nonempty ranges in ascending order, with a gap between any two. -/
structure RangesApart (ranges : List (Nat × Nat)) : Prop where
  nonempty : ∀ r ∈ ranges, r.1 < r.2
  apart : ranges.Pairwise fun r r' => r.2 < r'.1

namespace RangesApart

variable {ranges : List (Nat × Nat)} {r r' : Nat × Nat}

theorem ordered (h : RangesApart ranges) (hr : r ∈ ranges) (hr' : r' ∈ ranges)
    (hlt : r.1 < r'.1) : r.2 < r'.1 := by
  refine List.Pairwise.forall_of_forall_of_flip (l := ranges)
    (R := fun r r' : Nat × Nat => r.1 < r'.1 → r.2 < r'.1) ?_ ?_ ?_ hr hr' hlt
  · intro x _ h
    exact absurd h (Nat.lt_irrefl _)
  · refine h.apart.imp ?_
    intro r r' h _
    exact h
  · refine h.apart.imp_of_mem ?_
    intro r r' hr hr' hrr' hlt
    have := h.nonempty r hr
    have := h.nonempty r' hr'
    omega

theorem unique (h : RangesApart ranges) (hr : r ∈ ranges) (hr' : r' ∈ ranges)
    (heq : r.1 = r'.1) : r = r' := by
  have hnodup : (ranges.map Prod.fst).Nodup := by
    refine List.pairwise_map.2 (h.apart.imp_of_mem ?_)
    intro r r' hr _ hrr'
    have := h.nonempty r hr
    omega
  exact List.inj_on_of_nodup_map hnodup hr hr' heq

end RangesApart
