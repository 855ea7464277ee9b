-- SUMMARY: The region table read address by address: cutting a region out, coalescing free ones, and the seams between them.
import W7PS4.AddressSpace.Impl

/-!
# Regions, address by address

The table is read address by address. Cutting and coalescing leave every address as it
was. The cuts are the only new entries, so two free regions can touch only at the ends
of a range that was unmapped, and coalescing around its first address removes these
seams.
-/

namespace Core

open StdMap

namespace MemoryRegion

variable {r : MemoryRegion} {off : Nat}

/-- Whether a region is mapped without physical memory. -/
def Anonymous (r : MemoryRegion) : Prop := r.isMapped ∧ r.physBase = U64.max

/-- What is left of a region from `off` on. -/
def after (r : MemoryRegion) (off : Nat) : MemoryRegion :=
  { r with
    base := r.base + off
    physBase := if r.isMapped then U64.add r.physBase off else U64.max
    size := r.size - off }

/-- A region whose physical memory, if it has any, does not run past the end. -/
def Bounded (r : MemoryRegion) : Prop :=
  r.isMapped → r.physBase = U64.max ∨ r.physBase + r.size < 2 ^ 64

theorem physBase_after (hb : r.Bounded) (ha : ¬r.Anonymous) (hlt : off < r.size)
    (hm : r.isMapped) : (r.after off).physBase = r.physBase + off ∧
      r.physBase + off ≠ U64.max := by
  have hphys : r.physBase + r.size < 2 ^ 64 := (hb hm).resolve_left fun hmax => ha ⟨hm, hmax⟩
  simp only [after, hm, if_true, U64.max]
  rw [U64.add_of_lt (by omega)]
  exact ⟨rfl, by omega⟩

/-- `b` could be a piece of `r`. -/
structure PieceOf (b r : MemoryRegion) : Prop where
  isMapped : b.isMapped = r.isMapped
  prot : b.prot = r.prot
  fd : b.fd = r.fd
  phys : b.physBase = U64.max → r.isMapped → r.physBase = U64.max

theorem PieceOf.refl (r : MemoryRegion) : r.PieceOf r := ⟨rfl, rfl, rfl, fun h _ => h⟩

theorem PieceOf.trans {a b : MemoryRegion} (h : a.PieceOf b) (h' : b.PieceOf r) : a.PieceOf r :=
  ⟨h.isMapped.trans h'.isMapped, h.prot.trans h'.prot, h.fd.trans h'.fd,
    fun hmax hm => h'.phys (h.phys hmax (h'.isMapped.trans hm)) hm⟩

theorem pieceOf_after (hb : r.Bounded) (ha : ¬r.Anonymous) (hlt : off < r.size) :
    (r.after off).PieceOf r where
  isMapped := rfl
  prot := rfl
  fd := rfl
  phys := by
    intro hmax hm
    obtain ⟨hphys, hne⟩ := physBase_after hb ha hlt hm
    exact absurd (hphys.symm.trans hmax) hne

theorem cut_after (hb : r.Bounded) (ha : ¬r.Anonymous) (hpos : 0 < off) (hlt : off < r.size) :
    Cut r off { r with size := off } (r.after off) where
  pos := hpos
  le := hlt.le
  size_left := rfl
  size_right := rfl
  byte_left := fun o _ => rfl
  byte_right := by
    intro o _
    simp only [area_byte, byte]
    by_cases hm : r.isMapped
    · obtain ⟨hphys, hne⟩ := physBase_after hb ha hlt hm
      have hmax : r.physBase ≠ U64.max := fun hmax => ha ⟨hm, hmax⟩
      have hm' : (r.after off).isMapped := hm
      rw [if_pos hm, if_pos hm', hphys, if_neg hmax, if_neg hne]
      have hadd : U64.add (r.physBase + off) o = U64.add r.physBase (off + o) := by
        unfold U64.add
        congr 1
        omega
      rw [hadd]
      rfl
    · have hm' : ¬(r.after off).isMapped := hm
      rw [if_neg hm, if_neg hm']

end MemoryRegion

namespace RegionMap

open MemoryRegion

variable {m m' : RegionMap} {k j va size off p : Nat} {r t : MemoryRegion}

/-- Regions that are keyed by their base, lie apart from each other and are not empty. -/
structure WF (m : RegionMap) : Prop where
  key : ∀ k r, m.find? k = some r → r.base = k
  separated : m.Separated
  pos : ∀ k r, m.find? k = some r → 0 < r.size
  end_lt : ∀ k r, m.find? k = some r → k + r.size < 2 ^ 63
  bounded : ∀ k r, m.find? k = some r → r.Bounded

/-- One cut. -/
theorem WF.cut (h : m.WF) (hk : m.find? k = some r) (ha : ¬r.Anonymous) (hpos : 0 < off)
    (hlt : off < r.size) :
    WF ((m.insert k { r with size := off }).insert (k + off) (r.after off)) ∧
      ∀ p, ((m.insert k { r with size := off }).insert (k + off) (r.after off)).at? p =
        m.at? p := by
  have hbound := h.bounded k r hk
  have hcut := cut_after hbound ha hpos hlt
  have hfree := h.separated.find?_inside hk hpos hlt
  have hend := h.end_lt k r hk
  have hfind : ∀ j b, ((m.insert k { r with size := off }).insert (k + off) (r.after off)).find? j =
      some b → (j = k + off ∧ b = r.after off) ∨ (j = k ∧ b = { r with size := off }) ∨
        m.find? j = some b := by
    intro j b hj
    simp only [find?_insert] at hj
    split at hj
    · rename_i hjk
      exact .inl ⟨hjk, (Option.some.inj hj).symm⟩
    split at hj
    · rename_i hjk
      exact .inr (.inl ⟨hjk, (Option.some.inj hj).symm⟩)
    · exact .inr (.inr hj)
  refine ⟨⟨?_, h.separated.split hk hcut hfree, ?_, ?_, ?_⟩, fun p =>
    at?_split h.separated hk hcut hfree⟩
  · intro j b hj
    rcases hfind j b hj with ⟨rfl, rfl⟩ | ⟨rfl, rfl⟩ | hj
    · simp only [after, h.key k r hk]
    · exact h.key j r hk
    · exact h.key j b hj
  · intro j b hj
    rcases hfind j b hj with ⟨rfl, rfl⟩ | ⟨rfl, rfl⟩ | hj
    · simp only [after]
      omega
    · exact hpos
    · exact h.pos j b hj
  · intro j b hj
    rcases hfind j b hj with ⟨rfl, rfl⟩ | ⟨rfl, rfl⟩ | hj
    · simp only [after]
      omega
    · simp only
      omega
    · exact h.end_lt j b hj
  · intro j b hj
    rcases hfind j b hj with ⟨rfl, rfl⟩ | ⟨rfl, rfl⟩ | hj
    · intro hm
      obtain ⟨hphys, -⟩ := physBase_after hbound ha hlt hm
      have := (hbound hm).resolve_left fun hmax => ha ⟨hm, hmax⟩
      rw [hphys]
      simp only [after]
      omega
    · intro hm
      rcases hbound hm with hmax | hsum
      · exact .inl hmax
      · simp only
        omega
    · exact h.bounded j b hj

/-- `m'` is `m` with the region `r` at `k` cut so that `t` is the region of
    `[va, va + size)`. What is not an entry of `m` is a piece of `r`, at its start or at
    one of the cuts `A`. -/
structure CutOut (m m' : RegionMap) (k : Nat) (r : MemoryRegion) (va size : Nat) (A : Set Nat)
    (t : MemoryRegion) : Prop where
  wf : m'.WF
  bytes : ∀ p, m'.at? p = m.at? p
  target : m'.find? va = some t
  size_eq : t.size = size
  piece : t.PieceOf r
  entries : ∀ j b, m'.find? j = some b → (j ≠ k ∧ m.find? j = some b) ∨
    ((j = k ∨ j ∈ A) ∧ b.PieceOf r)

theorem CutOut.refl (h : m.WF) (hk : m.find? k = some r) : CutOut m m k r k r.size ∅ r where
  wf := h
  bytes := fun _ => rfl
  target := hk
  size_eq := rfl
  piece := .refl r
  entries := by
    intro j b hj
    by_cases hjk : j = k
    · subst hjk
      rw [hk] at hj
      cases hj
      exact .inr ⟨.inl rfl, .refl _⟩
    · exact .inl ⟨hjk, hj⟩

theorem CutOut.trans {m₁ : RegionMap} {t₁ : MemoryRegion} {n : Nat} {A B : Set Nat}
    (h : CutOut m m₁ k r va n A t₁) (hva : va = k ∨ va ∈ A)
    (h' : CutOut m₁ m' va t₁ va size B t) : CutOut m m' k r va size (A ∪ B) t where
  wf := h'.wf
  bytes := fun p => (h'.bytes p).trans (h.bytes p)
  target := h'.target
  size_eq := h'.size_eq
  piece := h'.piece.trans h.piece
  entries := by
    intro j b hj
    rcases h'.entries j b hj with ⟨hne, hj₁⟩ | ⟨rfl | hj', hb⟩
    · rcases h.entries j b hj₁ with hold | ⟨hj', hb⟩
      · exact .inl hold
      · exact .inr ⟨hj'.imp id .inl, hb⟩
    · exact .inr ⟨hva.imp id .inl, hb.trans h.piece⟩
    · exact .inr ⟨.inr (.inr hj'), hb.trans h.piece⟩

theorem CutOut.mono {A B : Set Nat} (h : CutOut m m' k r va size A t) (hAB : A ⊆ B) :
    CutOut m m' k r va size B t :=
  ⟨h.wf, h.bytes, h.target, h.size_eq, h.piece, fun j b hj =>
    (h.entries j b hj).imp id fun hp => ⟨hp.1.imp id fun ha => hAB ha, hp.2⟩⟩

/-- The part before the range is cut off. -/
theorem CutOut.front (h : m.WF) (hk : m.find? k = some r) (ha : ¬r.Anonymous) (hlt : k < va)
    (hend : va < k + r.size) :
    CutOut m ((m.insert k { r with size := va - k }).insert va (r.after (va - k))) k r va
      (k + r.size - va) {va} (r.after (va - k)) := by
  obtain ⟨hwf, hat⟩ := h.cut hk ha (show 0 < va - k by omega) (by omega)
  rw [Nat.add_sub_cancel' hlt.le] at hwf hat
  refine ⟨hwf, hat, by simp, by simp only [after]; omega,
    pieceOf_after (h.bounded k r hk) ha (by omega), fun j b hj => ?_⟩
  simp only [find?_insert] at hj
  split at hj
  · rename_i hj'
    cases hj
    exact .inr ⟨.inr hj', pieceOf_after (h.bounded k r hk) ha (by omega)⟩
  split at hj
  · rename_i hj'
    cases hj
    exact .inr ⟨.inl hj', ⟨rfl, rfl, rfl, fun hmax _ => hmax⟩⟩
  · rename_i hj'
    exact .inl ⟨hj', hj⟩

/-- The part behind the range is cut off. -/
theorem CutOut.back (h : m.WF) (hk : m.find? k = some r) (ha : ¬r.Anonymous) (hpos : 0 < size)
    (hlt : size < r.size) :
    CutOut m ((m.insert k { r with size }).insert (k + size) (r.after size)) k r k size {k + size}
      { r with size } := by
  obtain ⟨hwf, hat⟩ := h.cut hk ha hpos hlt
  refine ⟨hwf, hat, by simp [Nat.ne_of_gt hpos], rfl, ⟨rfl, rfl, rfl, fun hmax _ => hmax⟩,
    fun j b hj => ?_⟩
  simp only [find?_insert] at hj
  split at hj
  · rename_i hj'
    cases hj
    exact .inr ⟨.inr hj', pieceOf_after (h.bounded k r hk) ha hlt⟩
  split at hj
  · rename_i hj'
    cases hj
    exact .inr ⟨.inl hj', ⟨rfl, rfl, rfl, fun hmax _ => hmax⟩⟩
  · rename_i hj'
    exact .inl ⟨hj', hj⟩

/-- The first step of `cutRegion` makes an entry for the part from the range on. -/
theorem WF.emplace_front (h : m.WF) (hk : m.find? k = some r) (hlt : k < va)
    (hend : va < k + r.size) :
    (m.insert k { r with size := U64.sub va r.base }).emplace va
        { r with
          base := va
          physBase := if r.isMapped then U64.add r.physBase (U64.sub va r.base) else U64.max
          size := U64.sub r.size (U64.sub va r.base) } =
      (m.insert k { r with size := va - k }).insert va (r.after (va - k)) := by
  have hkey := h.key k r hk
  have hbound := h.end_lt k r hk
  have hfresh : (m.insert k { r with size := va - k }).find? va = none := by
    rw [find?_insert, if_neg (by omega)]
    have := h.separated.find?_inside hk (show 0 < va - k by omega)
      (by simp only [area_size]; omega)
    rwa [Nat.add_sub_cancel' hlt.le] at this
  have hoff : U64.sub va r.base = va - k := by
    rw [hkey]
    exact U64.sub_of_le (by omega) hlt.le
  rw [hoff, emplace_of_find?_eq_none hfresh, U64.sub_of_le (by omega) (by omega)]
  simp only [after, hkey, Nat.add_sub_cancel' hlt.le]

/-- The second step of `cutRegion` makes an entry for the part behind the range. -/
theorem WF.emplace_back (h : m.WF) (hk : m.find? k = some r) (hpos : 0 < size)
    (hlt : size < r.size) :
    (m.insert k { r with size }).emplace (U64.add r.base size)
        { r with
          base := U64.add r.base size
          physBase := if r.isMapped then U64.add r.physBase size else U64.max
          size := U64.sub r.size size } =
      (m.insert k { r with size }).insert (k + size) (r.after size) := by
  have hkey := h.key k r hk
  have hbound := h.end_lt k r hk
  have hfresh : (m.insert k { r with size }).find? (k + size) = none := by
    rw [find?_insert, if_neg (by omega)]
    exact h.separated.find?_inside hk hpos hlt
  have hnext : U64.add r.base size = k + size := by
    rw [hkey]
    exact U64.add_of_lt (by omega)
  rw [hnext, emplace_of_find?_eq_none hfresh, U64.sub_of_le (by omega) hlt.le]
  simp only [after, hkey]

/-- `cutRegion` cuts, when the region can be cut. -/
theorem WF.cutRegion (h : m.WF) (hk : m.find? k = some r) (ha : ¬r.Anonymous) (hle : k ≤ va)
    (hpos : 0 < size) (hfits : va + size ≤ k + r.size) :
    ∃ m' A t, m.cutRegion k r va size = .ok m' ∧ CutOut m m' k r va size A t ∧
      A ⊆ {va, va + size} := by
  have hkey := h.key k r hk
  have hend := h.end_lt k r hk
  obtain ⟨m₁, A₁, t₁, hm₁, hfirst, hva, hA₁⟩ : ∃ m₁ A₁ t₁,
      (if r.base ≠ va then
        (m.insert k { r with size := U64.sub va r.base }).emplace va
          { r with
            base := va
            physBase := if r.isMapped then U64.add r.physBase (U64.sub va r.base) else U64.max
            size := U64.sub r.size (U64.sub va r.base) }
        else m) = m₁ ∧ CutOut m m₁ k r va (k + r.size - va) A₁ t₁ ∧ (va = k ∨ va ∈ A₁) ∧
        A₁ ⊆ {va} := by
    rcases Nat.eq_or_lt_of_le hle with rfl | hlt
    · refine ⟨m, ∅, r, if_neg (by simpa using hkey), ?_, .inl rfl, Set.empty_subset _⟩
      rw [Nat.add_sub_cancel_left]
      exact .refl h hk
    · refine ⟨_, {va}, _, ?_, .front h hk ha hlt (by omega), .inr rfl, subset_rfl⟩
      rw [if_pos (by omega)]
      exact h.emplace_front hk hlt (by omega)
  have hsize₁ := hfirst.size_eq
  have ha₁ : ¬t₁.Anonymous := fun hanon =>
    ha ⟨hfirst.piece.isMapped ▸ hanon.1, hfirst.piece.phys hanon.2 (hfirst.piece.isMapped ▸ hanon.1)⟩
  unfold RegionMap.cutRegion
  simp only [hm₁, hfirst.target, deref, Outcome.ok_bind]
  by_cases hwhole : t₁.size = size
  · refine ⟨m₁, A₁, t₁, if_neg (by simpa using hwhole), ?_, fun a ha => .inl (hA₁ ha)⟩
    rw [← hwhole, hsize₁]
    exact hfirst
  have hlt : size < t₁.size := by omega
  refine ⟨_, A₁ ∪ {va + size}, { t₁ with size }, if_pos hwhole, ?_, ?_⟩
  · rw [hfirst.wf.emplace_back hfirst.target hpos hlt]
    exact hfirst.trans hva (.back hfirst.wf hfirst.target ha₁ hpos hlt)
  · rintro a (ha | ha)
    · exact .inl (hA₁ ha)
    · exact .inr ha

/-- The region that was cut out is replaced by another one of the same range. -/
theorem CutOut.replace {m₁ : RegionMap} (t' : MemoryRegion)
    (h : CutOut m m₁ k r va size {va, va + size} t) (hk : m.find? k = some r)
    (hbase : t'.base = t.base) (hsize : t'.size = t.size) (hb : t'.Bounded) :
    WF (m₁.insert va t') ∧
      (∀ p, (m₁.insert va t').at? p =
        if va ≤ p ∧ p < va + size then some (t'.byte (p - va)) else m.at? p) ∧
      ∀ j, ((m₁.insert va t').find? j).isSome →
        (m.find? j).isSome ∨ j = va ∨ j = va + size := by
  have hsize' : Area.size t' = Area.size t := hsize
  have hfind : ∀ j b, (m₁.insert va t').find? j = some b →
      (j = va ∧ b = t') ∨ m₁.find? j = some b := by
    intro j b hj
    rw [find?_insert] at hj
    split at hj
    · rename_i hjc
      exact .inl ⟨hjc, (Option.some.inj hj).symm⟩
    · exact .inr hj
  refine ⟨⟨?_, h.wf.separated.insert_of_size_le h.target hsize'.le, ?_, ?_, ?_⟩, ?_, ?_⟩
  · intro j b hj
    rcases hfind j b hj with ⟨rfl, rfl⟩ | hj
    · exact hbase.trans (h.wf.key j t h.target)
    · exact h.wf.key j b hj
  · intro j b hj
    rcases hfind j b hj with ⟨rfl, rfl⟩ | hj
    · exact hsize ▸ h.wf.pos j t h.target
    · exact h.wf.pos j b hj
  · intro j b hj
    rcases hfind j b hj with ⟨rfl, rfl⟩ | hj
    · exact hsize ▸ h.wf.end_lt j t h.target
    · exact h.wf.end_lt j b hj
  · intro j b hj
    rcases hfind j b hj with ⟨rfl, rfl⟩ | hj
    · exact hb
    · exact h.wf.bounded j b hj
  · intro p
    rw [at?_insert_of_size_eq h.wf.separated h.target hsize', area_size, h.size_eq, h.bytes]
    rfl
  · intro j hj
    obtain ⟨b, hb⟩ := Option.isSome_iff_exists.1 hj
    rcases hfind j b hb with ⟨rfl, rfl⟩ | hb
    · exact .inr (.inl rfl)
    · rcases h.entries j b hb with ⟨-, hold⟩ | ⟨rfl | hj, -⟩
      · exact .inl (by simp [hold])
      · exact .inl (by simp [hk])
      · exact .inr hj

/-! ## Coalescing -/

/-- Two free regions touch at `j`. -/
def Seam (m : RegionMap) (j : Nat) : Prop :=
  (m.find? j).isSome ∧ m.at? j = some .unmapped ∧ ∃ q, q + 1 = j ∧ m.at? q = some .unmapped

theorem byte_eq_unmapped {o : Nat} : r.byte o = .unmapped ↔ r.isMapped = false := by
  unfold byte
  split
  · rename_i hm
    simp [hm]
  · rename_i hm
    simpa using hm

/-- A seam is where a free region ends and another one starts. -/
theorem WF.seam_iff (h : m.WF) (hj : m.find? j = some r) :
    Seam m j ↔ r.isMapped = false ∧ ∃ k a, m.find? k = some a ∧ a.isMapped = false ∧
      k + a.size = j := by
  have hat : m.at? j = some (r.byte 0) := by
    have := at?_of_find? h.separated hj le_rfl (by simp only [area_size]; have := h.pos j r hj; omega)
    rwa [Nat.sub_self] at this
  constructor
  · rintro ⟨-, hfree, q, rfl, hq⟩
    rw [hat, Option.some.injEq, byte_eq_unmapped] at hfree
    obtain ⟨k, a, hk, hle, hlt, hbyte⟩ := exists_of_at? hq
    rw [area_byte, byte_eq_unmapped] at hbyte
    have := h.separated k a (q + 1) r hk hj (by omega)
    simp only [area_size] at hlt this
    exact ⟨hfree, k, a, hk, hbyte, by omega⟩
  · rintro ⟨hfree, k, a, hk, hafree, rfl⟩
    have hpos := h.pos k a hk
    refine ⟨by simp [hj], by rw [hat, byte_eq_unmapped.2 hfree], k + a.size - 1, by omega, ?_⟩
    rw [at?_of_find? h.separated hk (by omega) (by simp only [area_size]; omega), area_byte,
      byte_eq_unmapped.2 hafree]

theorem canCoalesce_iff (h : m.WF) {a : MemoryRegion} (hk : m.find? k = some a)
    (hj : m.find? j = some r) :
    canCoalesce a r = true ↔ a.isMapped = false ∧ r.isMapped = false ∧ k + a.size = j := by
  have hend := h.end_lt k a hk
  simp only [canCoalesce, Bool.and_eq_true, Bool.not_eq_true', decide_eq_true_eq, h.key k a hk,
    h.key j r hj, U64.add_of_lt (show k + a.size < 2 ^ 64 by omega), and_assoc]

/-- A join keeps every address and every other entry. -/
theorem WF.joined (h : m.WF) {a : MemoryRegion} (hk : m.find? k = some a)
    (hj : m.find? j = some r) (hcan : canCoalesce a r = true) :
    WF ((m.insert k (coalesced a r)).erase j) ∧
      (∀ p, ((m.insert k (coalesced a r)).erase j).at? p = m.at? p) ∧
      (∀ i, (((m.insert k (coalesced a r)).erase j).find? i).isSome → (m.find? i).isSome) ∧
      ((m.insert k (coalesced a r)).erase j).find? k = some (coalesced a r) ∧
      (coalesced a r).size = a.size + r.size := by
  obtain ⟨hafree, hrfree, rfl⟩ := (canCoalesce_iff h hk hj).1 hcan
  have hpos := h.pos k a hk
  have hrpos := h.pos _ r hj
  have hend := h.end_lt _ r hj
  have hsize : (coalesced a r).size = a.size + r.size := by
    simp only [coalesced]
    exact U64.add_of_lt (by omega)
  have hjoined : (coalesced a r).isMapped = false := hafree
  have hcut : Cut (coalesced a r) a.size a r := by
    refine ⟨hpos, ?_, rfl, ?_, ?_, ?_⟩
    · simp only [area_size, hsize]
      omega
    · simp only [area_size, hsize]
      omega
    · intro o _
      exact (byte_eq_unmapped.2 hafree).trans (byte_eq_unmapped.2 hjoined).symm
    · intro o _
      exact (byte_eq_unmapped.2 hrfree).trans (byte_eq_unmapped.2 hjoined).symm
  have hfind : ∀ i b, ((m.insert k (coalesced a r)).erase (k + a.size)).find? i = some b →
      (i = k ∧ b = coalesced a r) ∨ m.find? i = some b := by
    intro i b hi
    simp only [find?_erase, find?_insert] at hi
    split at hi
    · cases hi
    split at hi
    · rename_i hik
      exact .inl ⟨hik, (Option.some.inj hi).symm⟩
    · exact .inr hi
  refine ⟨⟨?_, h.separated.join hk hj hcut, ?_, ?_, ?_⟩, fun p => at?_join h.separated hk hj hcut,
    ?_, ?_, hsize⟩
  · intro i b hi
    rcases hfind i b hi with ⟨rfl, rfl⟩ | hi
    · exact h.key i a hk
    · exact h.key i b hi
  · intro i b hi
    rcases hfind i b hi with ⟨rfl, rfl⟩ | hi
    · omega
    · exact h.pos i b hi
  · intro i b hi
    rcases hfind i b hi with ⟨rfl, rfl⟩ | hi
    · omega
    · exact h.end_lt i b hi
  · intro i b hi
    rcases hfind i b hi with ⟨rfl, rfl⟩ | hi
    · intro hm
      simp only [coalesced, hafree] at hm
      cases hm
    · exact h.bounded i b hi
  · intro i hi
    obtain ⟨b, hb⟩ := Option.isSome_iff_exists.1 hi
    rcases hfind i b hb with ⟨rfl, rfl⟩ | hb
    · simp [hk]
    · simp [hb]
  · rw [find?_erase, if_neg (by omega), find?_insert, if_pos rfl]

/-- What coalescing keeps, and the region it ends with. -/
structure Coalesces (m m' : RegionMap) (k : Nat) (r : MemoryRegion) : Prop where
  wf : m'.WF
  bytes : ∀ p, m'.at? p = m.at? p
  keys : ∀ j, (m'.find? j).isSome → (m.find? j).isSome
  region : m'.find? k = some r
  free : r.isMapped = false

theorem coalescePrev_eq_ok {fuel it it' : Nat} (h : m.WF) (hk : m.find? it = some r)
    (hfree : r.isMapped = false) (hr : coalescePrev fuel m it = .ok (m', it')) :
    ∃ r', Coalesces m m' it' r' ∧ it' ≤ it ∧ it' + r'.size = it + r.size ∧ ¬Seam m' it' := by
  induction fuel generalizing m it r with
  | zero => cases hr
  | succ fuel ih =>
    -- the loop stops where no free region ends
    have hstop : (∀ j a, m.find? j = some a → ¬canCoalesce a r = true) →
        ∃ r', Coalesces m m it r' ∧ it ≤ it ∧ it + r'.size = it + r.size ∧ ¬Seam m it := by
      intro hno
      refine ⟨r, ⟨h, fun _ => rfl, fun _ => id, hk, hfree⟩, le_rfl, rfl, fun hseam => ?_⟩
      obtain ⟨-, j, a, hj, hafree, hend⟩ := (h.seam_iff hk).1 hseam
      exact hno j a hj ((canCoalesce_iff h hj hk).2 ⟨hafree, hfree, hend⟩)
    rw [coalescePrev, hk] at hr
    cases hprev : m.prev? it with
    | none =>
      rw [hprev] at hr
      cases hr
      refine hstop fun j a hj hcan => ?_
      have := prev?_eq_none.1 hprev j a hj
      have := h.pos j a hj
      have := ((canCoalesce_iff h hj hk).1 hcan).2.2
      omega
    | some e =>
      obtain ⟨j, a⟩ := e
      rw [hprev] at hr
      obtain ⟨hj, hlt, hmax⟩ := prev?_eq_some.1 hprev
      simp only at hr hj hlt hmax
      split at hr
      · rename_i hcan
        obtain ⟨hwf, hat, hkeys, hfind, hsize⟩ := h.joined hj hk hcan
        obtain ⟨hafree, -, hend⟩ := (canCoalesce_iff h hj hk).1 hcan
        obtain ⟨r', hco, hle, hsum, hseam⟩ := ih hwf hfind hafree hr
        refine ⟨r', ⟨hco.wf, fun p => (hco.bytes p).trans (hat p), fun i hi => hkeys i (hco.keys i hi),
          hco.region, hco.free⟩, by omega, by omega, hseam⟩
      · rename_i hno
        cases hr
        refine hstop fun i b hi hcan => ?_
        have hsum := ((canCoalesce_iff h hi hk).1 hcan).2.2
        have hpos := h.pos i b hi
        have hij : i = j := by
          have := hmax i b hi (by omega)
          by_contra hne
          have := h.separated i b j a hi hj (by omega)
          simp only [area_size] at this
          omega
        subst hij
        rw [hj] at hi
        cases hi
        exact hno hcan

theorem coalesceNext_eq_ok {fuel it : Nat} (h : m.WF) (hk : m.find? it = some r)
    (hfree : r.isMapped = false) (hr : coalesceNext fuel m it = .ok m') :
    ∃ r', Coalesces m m' it r' ∧ r.size ≤ r'.size ∧ ¬Seam m' (it + r'.size) := by
  induction fuel generalizing m r with
  | zero => cases hr
  | succ fuel ih =>
    have hstop : (∀ j a, m.find? j = some a → ¬canCoalesce r a = true) →
        ∃ r', Coalesces m m it r' ∧ r.size ≤ r'.size ∧ ¬Seam m (it + r'.size) := by
      intro hno
      refine ⟨r, ⟨h, fun _ => rfl, fun _ => id, hk, hfree⟩, le_rfl, fun hseam => ?_⟩
      obtain ⟨a, ha⟩ := Option.isSome_iff_exists.1 hseam.1
      exact hno _ a ha ((canCoalesce_iff h hk ha).2 ⟨hfree, ((h.seam_iff ha).1 hseam).1, rfl⟩)
    rw [coalesceNext, hk] at hr
    cases hnext : m.next? it with
    | none =>
      rw [hnext] at hr
      simp only [Outcome.pure_eq_ok] at hr
      subst hr
      refine hstop fun j a hj hcan => ?_
      have := next?_eq_none.1 hnext j a hj
      have := h.pos it r hk
      have := ((canCoalesce_iff h hk hj).1 hcan).2.2
      omega
    | some e =>
      obtain ⟨j, a⟩ := e
      rw [hnext] at hr
      obtain ⟨hj, hlt, hmin⟩ := next?_eq_some.1 hnext
      simp only at hr hj hlt hmin
      split at hr
      · rename_i hcan
        obtain ⟨hwf, hat, hkeys, hfind, hsize⟩ := h.joined hk hj hcan
        obtain ⟨r', hco, hle, hseam⟩ := ih hwf hfind hfree hr
        refine ⟨r', ⟨hco.wf, fun p => (hco.bytes p).trans (hat p), fun i hi => hkeys i (hco.keys i hi),
          hco.region, hco.free⟩, by omega, hseam⟩
      · rename_i hno
        simp only [Outcome.pure_eq_ok] at hr
        subst hr
        refine hstop fun i b hi hcan => ?_
        have hsum := ((canCoalesce_iff h hk hi).1 hcan).2.2
        have hpos := h.pos it r hk
        have hij : i = j := by
          have := hmin i b hi (by omega)
          have := h.separated it r j a hk hj hlt
          simp only [area_size] at this
          omega
        subst hij
        rw [hj] at hi
        cases hi
        exact hno hcan

theorem Seam.mono (h : Seam m' j) (hbytes : ∀ p, m'.at? p = m.at? p)
    (hkeys : ∀ j, (m'.find? j).isSome → (m.find? j).isSome) : Seam m j := by
  obtain ⟨hj, hfree, q, hq, hqfree⟩ := h
  exact ⟨hkeys j hj, hbytes j ▸ hfree, q, hq, hbytes q ▸ hqfree⟩

/-- Coalescing around a free address leaves one region there, without a seam at either
    end. -/
theorem coalesceFreeRegions_eq_ok (h : m.WF) (hr : m.coalesceFreeRegions va = .ok m') :
    m'.WF ∧ (∀ p, m'.at? p = m.at? p) ∧ (∀ j, (m'.find? j).isSome → (m.find? j).isSome) ∧
      ((m.at? va).isSome → ∃ b r, m'.find? b = some r ∧ r.isMapped = false ∧ b ≤ va ∧
        va < b + r.size ∧ ¬Seam m' b ∧ ¬Seam m' (b + r.size)) := by
  simp only [coalesceFreeRegions, Outcome.bind_eq_ok, deref_eq_ok, assertMsg_eq_ok,
    Bool.not_eq_true'] at hr
  obtain ⟨⟨it, r⟩, hfloor, -, hfree, ⟨m₁, it₁⟩, hprev, hnext⟩ := hr
  obtain ⟨hit, hle, -⟩ := floor?_eq_some.1 hfloor
  simp only at hit hle hfree hprev hnext
  obtain ⟨r₁, hco₁, hle₁, hsum₁, hseam₁⟩ := coalescePrev_eq_ok h hit hfree hprev
  obtain ⟨r₂, hco₂, hle₂, hseam₂⟩ := coalesceNext_eq_ok hco₁.wf hco₁.region hco₁.free hnext
  refine ⟨hco₂.wf, fun p => (hco₂.bytes p).trans (hco₁.bytes p),
    fun j hj => hco₁.keys j (hco₂.keys j hj), fun hva => ?_⟩
  refine ⟨it₁, r₂, hco₂.region, hco₂.free, by omega, ?_, fun hs => hseam₁ (hs.mono hco₂.bytes hco₂.keys),
    hseam₂⟩
  have hin : va < it + r.size := by
    obtain ⟨x, hx⟩ := Option.isSome_iff_exists.1 hva
    unfold at? at hx
    rw [hfloor] at hx
    simp only at hx
    split at hx
    · assumption
    · cases hx
  omega

/-- `m'` is `m` with the addresses `[a, a + n)` unmapped. The new entries lie there. -/
structure Freed (m m' : RegionMap) (a n : Nat) : Prop where
  wf : m'.WF
  bytes : ∀ p, m'.at? p = if a ≤ p ∧ p < a + n then some .unmapped else m.at? p
  inside : ∀ p, a ≤ p → p < a + n → (m.at? p).isSome
  keys : ∀ j, (m'.find? j).isSome → (m.find? j).isSome ∨ (0 < n ∧ a ≤ j ∧ j ≤ a + n)

theorem Freed.refl (h : m.WF) : Freed m m va 0 where
  wf := h
  bytes := fun p => by rw [if_neg (by omega)]
  inside := by omega
  keys := fun _ => .inl

theorem Freed.trans {m₁ : RegionMap} {n n' : Nat} (h : Freed m m₁ va n)
    (h' : Freed m₁ m' (va + n) n') : Freed m m' va (n + n') where
  wf := h'.wf
  bytes := by
    intro p
    rw [h'.bytes, h.bytes]
    by_cases h₁ : va + n ≤ p ∧ p < va + n + n'
    · rw [if_pos h₁, if_pos (by omega)]
    rw [if_neg h₁]
    by_cases h₂ : va ≤ p ∧ p < va + n
    · rw [if_pos h₂, if_pos (by omega)]
    · rw [if_neg h₂, if_neg (by omega)]
  inside := by
    intro p hle hlt
    by_cases hp : p < va + n
    · exact h.inside p hle hp
    · have := h'.inside p (by omega) (by omega)
      rwa [h.bytes, if_neg (by omega)] at this
  keys := by
    intro j hj
    rcases h'.keys j hj with hj | hj
    · exact (h.keys j hj).imp id fun hj => by omega
    · exact .inr (by omega)

/-- Coalescing around the start of what was unmapped removes every new seam. -/
theorem Freed.coalesced {n : Nat} {m₁ : RegionMap} (h : Freed m m₁ va n)
    (hm : ∀ j, ¬Seam m j) (hr : m₁.coalesceFreeRegions va = .ok m') :
    m'.WF ∧ (∀ p, m'.at? p = m₁.at? p) ∧ ∀ j, ¬Seam m' j := by
  obtain ⟨hwf, hat, hkeys, hregion⟩ := coalesceFreeRegions_eq_ok h.wf hr
  refine ⟨hwf, hat, fun j hj => ?_⟩
  -- outside the range and its two ends nothing has changed
  have hnear : 0 < n ∧ va ≤ j ∧ j ≤ va + n := by
    by_contra hfar
    have hj₁ := hj.mono hat hkeys
    refine hm j ?_
    obtain ⟨hsome, hfree, q, rfl, hq⟩ := hj₁
    rw [h.bytes] at hfree hq
    have hkey := h.keys _ hsome
    rw [if_neg (by omega)] at hq hfree
    exact ⟨hkey.resolve_right (by omega), hfree, q, rfl, hq⟩
  have hva : m₁.at? va = some .unmapped := by rw [h.bytes, if_pos (by omega)]
  obtain ⟨b, r, hb, hbfree, hle, hlt, hstart, hend⟩ := hregion (by simp [hva])
  obtain ⟨c, hc⟩ := Option.isSome_iff_exists.1 hj.1
  rcases Nat.lt_trichotomy j (b + r.size) with hin | rfl | hout
  · rcases Nat.eq_or_lt_of_le (show b ≤ j by omega) with rfl | hbj
    · exact hstart hj
    · have := hwf.separated b r j c hb hc hbj
      simp only [area_size] at this
      omega
  · exact hend hj
  · -- the region would end inside the range, at a seam
    have hnext : m'.at? (b + r.size) = some .unmapped := by
      rw [hat, h.bytes, if_pos (by omega)]
    obtain ⟨i, d, hi, hile, hilt, -⟩ := exists_of_at? hnext
    have hpos := hwf.pos b r hb
    have hid : i = b + r.size := by
      rcases Nat.lt_trichotomy i b with hlt' | rfl | hgt
      · have := hwf.separated i d b r hi hb hlt'
        omega
      · rw [hb] at hi
        cases hi
        simp only [area_size] at hilt
        omega
      · have := hwf.separated b r i d hb hi hgt
        simp only [area_size] at this
        omega
    refine hend ⟨by rw [← hid, hi]; rfl, hnext, b + r.size - 1, by omega, ?_⟩
    rw [at?_of_find? hwf.separated hb (by omega) (by simp only [area_size]; omega), area_byte,
      byte_eq_unmapped.2 hbfree]

end RegionMap

end Core
