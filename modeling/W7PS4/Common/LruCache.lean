-- SUMMARY: The list of least recently used items keeps its links and its order; the callback of the iteration cannot end it.
import W7PS4.Lib.LinkedCells
import W7PS4.Lib.Machine
import W7PS4.Lib.Reaches
import Mathlib.Data.List.Perm.Basic
import Mathlib.Logic.Function.Basic

/-!
# Least recently used items

The items are in a pool, and those that are not free are on a doubly linked list. Insertion and
`Touch` put an item at the end, so the list is in the order of the ticks as long as the ticks of the
calls do not decrease.

`ForEachItemBelow` goes through the list while its callback may free the item that it is given.
-/

namespace Common

/-- `Item`. A pointer to an item is its index in the pool. -/
structure LruItem (O : Type) where
  obj : O
  tick : UInt64
  next : Option Nat
  prev : Option Nat

structure LeastRecentlyUsedCache (O : Type) where
  itemPool : Nat → LruItem O
  /-- `item_pool.size()`. -/
  itemCount : Nat
  freeItems : List Nat
  firstItem : Option Nat
  lastItem : Option Nat

namespace LeastRecentlyUsedCache

variable {O : Type}

def update (c : LeastRecentlyUsedCache O) (id : Nat) (f : LruItem O → LruItem O) :
    LeastRecentlyUsedCache O :=
  { c with itemPool := Function.update c.itemPool id (f (c.itemPool id)) }

def setNext (c : LeastRecentlyUsedCache O) (id : Nat) (next : Option Nat) : LeastRecentlyUsedCache O :=
  c.update id fun item => { item with next := next }

def setPrev (c : LeastRecentlyUsedCache O) (id : Nat) (prev : Option Nat) : LeastRecentlyUsedCache O :=
  c.update id fun item => { item with prev := prev }

/-- A pointer is followed unless it is null. -/
def whenSome (c : LeastRecentlyUsedCache O) (pointer : Option Nat)
    (f : Nat → LeastRecentlyUsedCache O) : LeastRecentlyUsedCache O :=
  match pointer with
  | some id => f id
  | none => c

/-- A new item is at the end of the pool or at the place of the item that has been free longest. -/
def build (c : LeastRecentlyUsedCache O) : Nat × LeastRecentlyUsedCache O :=
  match c.freeItems with
  | [] => (c.itemCount, ({ c with itemCount := c.itemCount + 1 }.setNext c.itemCount none).setPrev
      c.itemCount none)
  | id :: freeItems => (id, ({ c with freeItems := freeItems }.setNext id none).setPrev id none)

def attach (c : LeastRecentlyUsedCache O) (id : Nat) : LeastRecentlyUsedCache O :=
  let c := if c.firstItem = none then { c with firstItem := some id } else c
  match c.lastItem with
  | none => { c with lastItem := some id }
  | some last => { ((c.setPrev id (some last)).setNext last (some id)).setNext id none with
      lastItem := some id }

def detach (c : LeastRecentlyUsedCache O) (id : Nat) : LeastRecentlyUsedCache O :=
  let c := c.whenSome (c.itemPool id).prev fun prev => c.setNext prev (c.itemPool id).next
  let c := c.whenSome (c.itemPool id).next fun next => c.setPrev next (c.itemPool id).prev
  let c :=
    if c.firstItem = some id then
      let c := { c with firstItem := (c.itemPool id).next }
      c.whenSome c.firstItem fun first => c.setPrev first none
    else c
  if c.lastItem = some id then
    let c := { c with lastItem := (c.itemPool id).prev }
    c.whenSome c.lastItem fun last => c.setNext last none
  else c

def insert (c : LeastRecentlyUsedCache O) (obj : O) (tick : UInt64) : Nat × LeastRecentlyUsedCache O :=
  let (newId, c) := c.build
  let c := c.update newId fun item => { item with obj := obj, tick := tick }
  (newId, c.attach newId)

def touch (c : LeastRecentlyUsedCache O) (id : Nat) (tick : UInt64) : LeastRecentlyUsedCache O :=
  if (c.itemPool id).tick ≥ tick then c
  else
    let c := c.update id fun item => { item with tick := tick }
    if c.lastItem = some id then c else (c.detach id).attach id

def free (c : LeastRecentlyUsedCache O) (id : Nat) : LeastRecentlyUsedCache O :=
  let c := ((c.detach id).setPrev id none).setNext id none
  { c with freeItems := c.freeItems ++ [id] }

/-! ## The iteration -/

/-- A callback: its state, whether it frees the item it is given, and what it returns. -/
abbrev Callback (σ O : Type) := σ → O → σ × Bool × Bool

/-- `std::invoke_result` is a class that has the result as a member, so it is never `bool`. -/
def returnsBool : Bool := false

/-- The difference of two ticks in 64 bits with a sign. -/
def ticksSince (tick itemTick : UInt64) : Outcome Int :=
  let d := tick.toInt64.toInt - itemTick.toInt64.toInt
  if -2 ^ 63 ≤ d ∧ d < 2 ^ 63 then .ok d else .error .undefined

/-- The cache after a call of the callback. -/
def afterCall (c : LeastRecentlyUsedCache O) (id : Nat) (frees : Bool) : LeastRecentlyUsedCache O :=
  if frees then c.free id else c

/-- The loop from an item on, with the items that the callback is called for. -/
def forEachLoop {σ : Type} (tick : UInt64) (func : Callback σ O) :
    Nat → Option Nat → LeastRecentlyUsedCache O → σ → Outcome (LeastRecentlyUsedCache O × σ × List Nat)
  | _, none, c, s => .ok (c, s, [])
  | 0, some _, _, _ => .error .diverges
  | fuel + 1, some id, c, s => do
    if (← ticksSince tick (c.itemPool id).tick) < 0 then return (c, s, [])
    let next := (c.itemPool id).next
    let (s, frees, answer) := func s (c.itemPool id).obj
    let c := c.afterCall id frees
    if returnsBool && answer then return (c, s, [id])
    let (c, s, calls) ← forEachLoop tick func fuel next c s
    return (c, s, id :: calls)

/-- `ForEachItemBelow`. The list has no more items than the pool. -/
def forEachItemBelow {σ : Type} (c : LeastRecentlyUsedCache O) (tick : UInt64) (func : Callback σ O)
    (s : σ) : Outcome (LeastRecentlyUsedCache O × σ × List Nat) :=
  forEachLoop tick func (c.itemCount + 1) c.firstItem c s

/-! ## The links -/

def links (c : LeastRecentlyUsedCache O) (id : Nat) : Links Nat :=
  ⟨(c.itemPool id).next, (c.itemPool id).prev⟩

/-- The list from the first item to the last. -/
structure Chained (c : LeastRecentlyUsedCache O) (ids : List Nat) : Prop where
  linked : Linked c.links ids
  first : c.firstItem = ids.head?
  last : c.lastItem = ids.getLast?

/-- Nothing but links and the ends of the list has changed. -/
structure SameItems (c c' : LeastRecentlyUsedCache O) : Prop where
  obj (id : Nat) : (c'.itemPool id).obj = (c.itemPool id).obj
  tick (id : Nat) : (c'.itemPool id).tick = (c.itemPool id).tick
  freeItems : c'.freeItems = c.freeItems
  itemCount : c'.itemCount = c.itemCount

variable {c c' c'' : LeastRecentlyUsedCache O} {id : Nat} {ids before after : List Nat}

theorem SameItems.trans (h : SameItems c c') (h' : SameItems c' c'') : SameItems c c'' :=
  ⟨fun k => (h'.obj k).trans (h.obj k), fun k => (h'.tick k).trans (h.tick k),
    h'.freeItems.trans h.freeItems, h'.itemCount.trans h.itemCount⟩

theorem sameItems_update {f : LruItem O → LruItem O} (hobj : ∀ item, (f item).obj = item.obj)
    (htick : ∀ item, (f item).tick = item.tick) : SameItems c (c.update id f) := by
  refine ⟨fun k => ?_, fun k => ?_, rfl, rfl⟩
  · unfold update
    by_cases hk : k = id
    · rw [hk]
      simpa using hobj _
    · simp [hk]
  · unfold update
    by_cases hk : k = id
    · rw [hk]
      simpa using htick _
    · simp [hk]

theorem sameItems_setNext {next : Option Nat} : SameItems c (c.setNext id next) :=
  sameItems_update (fun _ => rfl) fun _ => rfl

theorem sameItems_setPrev {prev : Option Nat} : SameItems c (c.setPrev id prev) :=
  sameItems_update (fun _ => rfl) fun _ => rfl

theorem sameItems_ends {first last : Option Nat} :
    SameItems c { c with firstItem := first, lastItem := last } :=
  ⟨fun _ => rfl, fun _ => rfl, rfl, rfl⟩

variable {f : Nat → LeastRecentlyUsedCache O} {pointer : Option Nat}

theorem sameItems_whenSome (h : ∀ id, SameItems c (f id)) : SameItems c (c.whenSome pointer f) := by
  cases pointer with
  | none => exact ⟨fun _ => rfl, fun _ => rfl, rfl, rfl⟩
  | some id => exact h id

@[simp] theorem links_setNext (c : LeastRecentlyUsedCache O) (id : Nat) (next : Option Nat) (k : Nat) :
    (c.setNext id next).links k = if k = id then ⟨next, (c.links k).prev⟩ else c.links k := by
  unfold setNext update links
  by_cases hk : k = id
  · simp [hk]
  · simp [hk]

@[simp] theorem links_setPrev (c : LeastRecentlyUsedCache O) (id : Nat) (prev : Option Nat) (k : Nat) :
    (c.setPrev id prev).links k = if k = id then ⟨(c.links k).next, prev⟩ else c.links k := by
  unfold setPrev update links
  by_cases hk : k = id
  · simp [hk]
  · simp [hk]

@[simp] theorem links_ends {first last : Option Nat} :
    { c with firstItem := first, lastItem := last }.links = c.links := rfl

/-- The first case of the function only sets the first item. -/
theorem attach_eq (c : LeastRecentlyUsedCache O) (id : Nat) :
    c.attach id = match c.lastItem with
      | none => { c with firstItem := c.firstItem.or (some id), lastItem := some id }
      | some last => { ((c.setPrev id (some last)).setNext last (some id)).setNext id none with
          firstItem := c.firstItem.or (some id), lastItem := some id } := by
  unfold attach
  cases hfirst : c.firstItem with
  | none => rfl
  | some first =>
    cases hlast : c.lastItem with
    | none => simp [hfirst, hlast]
    | some last => simp [hfirst, hlast, setPrev, setNext, update]

theorem sameItems_attach : SameItems c (c.attach id) := by
  rw [attach_eq]
  split
  · exact sameItems_ends
  · exact ((sameItems_setPrev.trans sameItems_setNext).trans sameItems_setNext).trans sameItems_ends

/-- An item is attached at the end of the list. -/
theorem Chained.attach (h : c.Chained ids) (hnodup : ids.Nodup) (hid : id ∉ ids)
    (hblank : ids = [] → c.links id = ⟨none, none⟩) : (c.attach id).Chained (ids ++ [id]) := by
  rw [attach_eq, h.first, h.last]
  have hfirst : ids.head?.or (some id) = (ids ++ [id]).head? := by
    cases ids <;> rfl
  cases hlast : ids.getLast? with
  | none =>
    obtain rfl := List.getLast?_eq_none_iff.1 hlast
    refine ⟨h.linked.concat hnodup (hblank rfl) (by simp) (by simp), hfirst, rfl⟩
  | some last =>
    have hne : id ≠ last := by
      rintro rfl
      exact hid (List.mem_of_getLast? hlast)
    refine ⟨h.linked.concat hnodup ?_ (fun b hb => ?_) (fun b hb hbne => ?_), hfirst, by simp⟩
    · simp [hne, hlast]
    · obtain rfl : last = b := Option.some.inj (hlast.symm.trans hb)
      simp [hne.symm]
    · have hbid : b ≠ id := by
        rintro rfl
        exact hid hb
      have hblast : b ≠ last := by
        rintro rfl
        exact hbne hlast
      simp [hbid, hblast]

theorem links_whenSome_setNext (c : LeastRecentlyUsedCache O) (pointer next : Option Nat) (k : Nat) :
    (c.whenSome pointer fun id => c.setNext id next).links k
      = ⟨if pointer = some k then next else (c.links k).next, (c.links k).prev⟩ := by
  cases pointer with
  | none => rfl
  | some id =>
    by_cases hk : k = id
    · simp [whenSome, hk]
    · simp [whenSome, hk, Ne.symm hk]

theorem links_whenSome_setPrev (c : LeastRecentlyUsedCache O) (pointer prev : Option Nat) (k : Nat) :
    (c.whenSome pointer fun id => c.setPrev id prev).links k
      = ⟨(c.links k).next, if pointer = some k then prev else (c.links k).prev⟩ := by
  cases pointer with
  | none => rfl
  | some id =>
    by_cases hk : k = id
    · simp [whenSome, hk]
    · simp [whenSome, hk, Ne.symm hk]

/-- The first steps of `detach`: the neighbours are linked to each other. -/
def bypass (c : LeastRecentlyUsedCache O) (id : Nat) : LeastRecentlyUsedCache O :=
  let c := c.whenSome (c.itemPool id).prev fun prev => c.setNext prev (c.itemPool id).next
  c.whenSome (c.itemPool id).next fun next => c.setPrev next (c.itemPool id).prev

/-- The step of `detach` for the first item. -/
def leaveFirst (c : LeastRecentlyUsedCache O) (id : Nat) : LeastRecentlyUsedCache O :=
  if c.firstItem = some id then
    let c := { c with firstItem := (c.itemPool id).next }
    c.whenSome c.firstItem fun first => c.setPrev first none
  else c

/-- The step of `detach` for the last item. -/
def leaveLast (c : LeastRecentlyUsedCache O) (id : Nat) : LeastRecentlyUsedCache O :=
  if c.lastItem = some id then
    let c := { c with lastItem := (c.itemPool id).prev }
    c.whenSome c.lastItem fun last => c.setNext last none
  else c

theorem detach_eq (c : LeastRecentlyUsedCache O) (id : Nat) :
    c.detach id = ((c.bypass id).leaveFirst id).leaveLast id := rfl

theorem sameItems_detach : SameItems c (c.detach id) := by
  have hbypass : SameItems c (c.bypass id) :=
    (sameItems_whenSome fun _ => sameItems_setNext).trans (sameItems_whenSome fun _ => sameItems_setPrev)
  have hfirst {c : LeastRecentlyUsedCache O} : SameItems c (c.leaveFirst id) := by
    unfold leaveFirst
    split
    · exact sameItems_ends.trans (sameItems_whenSome fun _ => sameItems_setPrev)
    · exact sameItems_ends
  have hlast {c : LeastRecentlyUsedCache O} : SameItems c (c.leaveLast id) := by
    unfold leaveLast
    split
    · exact sameItems_ends.trans (sameItems_whenSome fun _ => sameItems_setNext)
    · exact sameItems_ends
  exact (hbypass.trans hfirst).trans hlast

theorem links_bypass (h : before.getLast? ≠ some id) (hlinks : c.links id = ⟨after.head?, before.getLast?⟩)
    (k : Nat) : (c.bypass id).links k =
      ⟨if before.getLast? = some k then after.head? else (c.links k).next,
        if after.head? = some k then before.getLast? else (c.links k).prev⟩ := by
  have hprev : (c.itemPool id).prev = before.getLast? := congrArg Links.prev hlinks
  have hnext : (c.itemPool id).next = after.head? := congrArg Links.next hlinks
  have hmiddle := links_whenSome_setNext c before.getLast? after.head?
  have hself := hmiddle id
  rw [if_neg h, hlinks] at hself
  have hprev' := congrArg Links.prev hself
  have hnext' := congrArg Links.next hself
  unfold links at hprev' hnext'
  unfold bypass
  rw [hprev, hnext]
  dsimp only at hprev' hnext' ⊢
  rw [hprev', hnext', links_whenSome_setPrev, hmiddle]

theorem whenSome_firstItem
    (h : ∀ id, (f id).firstItem = c.firstItem) : (c.whenSome pointer f).firstItem = c.firstItem := by
  cases pointer with
  | none => rfl
  | some id => exact h id

theorem whenSome_lastItem
    (h : ∀ id, (f id).lastItem = c.lastItem) : (c.whenSome pointer f).lastItem = c.lastItem := by
  cases pointer with
  | none => rfl
  | some id => exact h id

/-- The first item of the list is the next one if the first one leaves. -/
theorem leaveFirst_spec (hnodup : (before ++ id :: after).Nodup)
    (hid : (c.links id).next = after.head?) (hfirst : c.firstItem = (before ++ id :: after).head?)
    (hprev : ∀ k, before = [] → after.head? = some k → (c.links k).prev = none) :
    (c.leaveFirst id).links = c.links ∧ (c.leaveFirst id).firstItem = (before ++ after).head? ∧
      (c.leaveFirst id).lastItem = c.lastItem := by
  unfold leaveFirst
  split
  · next hwas =>
    obtain rfl := (Linked.head?_eq_some_iff hnodup).1 (hfirst.symm.trans hwas)
    unfold links at hid
    dsimp only at hid ⊢
    rw [hid]
    refine ⟨?_, whenSome_firstItem fun _ => rfl, whenSome_lastItem fun _ => rfl⟩
    funext k
    rw [links_whenSome_setPrev]
    by_cases hk : after.head? = some k
    · rw [if_pos hk, ← hprev k rfl hk]
      rfl
    · rw [if_neg hk]
      rfl
  · next hnot =>
    cases before with
    | nil => exact absurd hfirst hnot
    | cons b before => exact ⟨rfl, hfirst, rfl⟩

/-- The last item of the list is the one before it if the last one leaves. -/
theorem leaveLast_spec (hnodup : (before ++ id :: after).Nodup)
    (hid : (c.links id).prev = before.getLast?) (hlast : c.lastItem = (before ++ id :: after).getLast?)
    (hnext : ∀ k, after = [] → before.getLast? = some k → (c.links k).next = none) :
    (c.leaveLast id).links = c.links ∧ (c.leaveLast id).lastItem = (before ++ after).getLast? ∧
      (c.leaveLast id).firstItem = c.firstItem := by
  unfold leaveLast
  split
  · next hwas =>
    obtain rfl := (Linked.getLast?_eq_some_iff hnodup).1 (hlast.symm.trans hwas)
    unfold links at hid
    dsimp only at hid ⊢
    rw [hid, List.append_nil]
    refine ⟨?_, whenSome_lastItem fun _ => rfl, whenSome_firstItem fun _ => rfl⟩
    funext k
    rw [links_whenSome_setNext]
    by_cases hk : before.getLast? = some k
    · rw [if_pos hk, ← hnext k rfl hk]
      rfl
    · rw [if_neg hk]
      rfl
  · next hnot =>
    cases after with
    | nil => exact absurd (hlast.trans (by simp)) hnot
    | cons b after => exact ⟨rfl, hlast.trans (by simp), rfl⟩

/-- An item is taken out of the list. -/
theorem Chained.detach (h : c.Chained (before ++ id :: after)) (hnodup : (before ++ id :: after).Nodup) :
    (c.detach id).Chained (before ++ after) := by
  have hlinks := h.linked before id after rfl
  have hnotBefore : before.getLast? ≠ some id := fun hmem =>
    (List.nodup_append.1 hnodup).2.2 id (List.mem_of_getLast? hmem) id (.head _) rfl
  have hnotAfter : after.head? ≠ some id := fun hmem =>
    (List.nodup_cons.1 (List.nodup_append.1 hnodup).2.1).1 (List.mem_of_head? hmem)
  have hbypass := links_bypass hnotBefore hlinks
  have hself : (c.bypass id).links id = ⟨after.head?, before.getLast?⟩ := by
    rw [hbypass, if_neg hnotBefore, if_neg hnotAfter, hlinks]
  have hends : (c.bypass id).firstItem = c.firstItem ∧ (c.bypass id).lastItem = c.lastItem := by
    unfold bypass whenSome
    dsimp only
    split <;> split <;> exact ⟨rfl, rfl⟩
  obtain ⟨hlinks₁, hfirst, hlast₁⟩ := leaveFirst_spec (c := c.bypass id) hnodup
    (congrArg Links.next hself) (hends.1.trans h.first) (fun k hbefore hk => by
      rw [hbypass, if_pos hk, hbefore]
      rfl)
  obtain ⟨hlinks₂, hlast, hfirst₂⟩ := leaveLast_spec (c := (c.bypass id).leaveFirst id) hnodup
    ((congrArg (fun links => (links id).prev) hlinks₁).trans (congrArg Links.prev hself))
    (hlast₁.trans (hends.2.trans h.last)) (fun k hafter hk => by
      rw [hlinks₁, hbypass, if_pos hk, hafter]
      rfl)
  rw [detach_eq]
  refine ⟨?_, hfirst₂.trans hfirst, hlast⟩
  rw [hlinks₂, hlinks₁]
  exact h.linked.erase hnodup fun k _ => hbypass k

/-! ## The calls -/

def tickOf (c : LeastRecentlyUsedCache O) (id : Nat) : UInt64 := (c.itemPool id).tick

/-- The list has the live items, and the free ids are those that it does not have. -/
structure Listed (c : LeastRecentlyUsedCache O) (ids : List Nat) : Prop where
  chained : c.Chained ids
  pool : (ids ++ c.freeItems).Perm (List.range c.itemCount)

/-- The items are in the order of their ticks, none later than `now`. -/
structure Ordered (c : LeastRecentlyUsedCache O) (ids : List Nat) (now : UInt64) : Prop where
  sorted : ids.Pairwise fun a b => c.tickOf a ≤ c.tickOf b
  past (id : Nat) : id ∈ ids → c.tickOf id ≤ now

theorem Listed.nodup (h : c.Listed ids) : ids.Nodup :=
  (List.nodup_append.1 (h.pool.nodup_iff.2 List.nodup_range)).1

/-- An item is live if the pool has it and it is not free. -/
theorem Listed.mem_iff (h : c.Listed ids) : id ∈ ids ↔ id < c.itemCount ∧ id ∉ c.freeItems := by
  have hnodup := h.pool.nodup_iff.2 List.nodup_range
  have hmem : id ∈ ids ++ c.freeItems ↔ id < c.itemCount := (h.pool.mem_iff).trans List.mem_range
  rw [List.mem_append] at hmem
  constructor
  · intro hid
    exact ⟨hmem.1 (.inl hid), fun hfree => (List.nodup_append.1 hnodup).2.2 id hid id hfree rfl⟩
  · rintro ⟨hlt, hfree⟩
    exact (hmem.2 hlt).resolve_right hfree

/-- An item that is freed is taken out of the list and put behind the free ids. -/
theorem Listed.free (h : c.Listed (before ++ id :: after)) : (c.free id).Listed (before ++ after) := by
  have hnodup := h.nodup
  have hdetach := h.chained.detach hnodup
  have hsame : SameItems c (((c.detach id).setPrev id none).setNext id none) :=
    (sameItems_detach.trans sameItems_setPrev).trans sameItems_setNext
  have hid : id ∉ before ++ after := by
    intro hmem
    rw [List.nodup_middle, List.nodup_cons] at hnodup
    exact hnodup.1 hmem
  refine ⟨⟨hdetach.linked.congr fun k hk => ?_, hdetach.first, hdetach.last⟩, ?_⟩
  · have hne : k ≠ id := by
      rintro rfl
      exact hid hk
    change (((c.detach id).setPrev id none).setNext id none).links k = (c.detach id).links k
    simp [hne]
  · change ((before ++ after) ++ ((((c.detach id).setPrev id none).setNext id none).freeItems ++ [id])).Perm
      (List.range (((c.detach id).setPrev id none).setNext id none).itemCount)
    rw [hsame.freeItems, hsame.itemCount]
    refine List.Perm.trans ?_ h.pool
    calc (before ++ after) ++ (c.freeItems ++ [id])
        = (before ++ (after ++ c.freeItems)) ++ [id] := by simp
      _ |>.Perm (id :: (before ++ (after ++ c.freeItems))) := List.perm_append_singleton _ _
      _ |>.Perm (before ++ id :: (after ++ c.freeItems)) := List.perm_middle.symm
      _ = before ++ id :: after ++ c.freeItems := by simp

/-- Blanking the links of an item that is not on the list leaves the list alone. -/
theorem Chained.blank (h : c.Chained ids) (hid : id ∉ ids) :
    ((c.setNext id none).setPrev id none).Chained ids := by
  refine ⟨h.linked.congr fun k hk => ?_, h.first, h.last⟩
  have hne : k ≠ id := by
    rintro rfl
    exact hid hk
  simp [hne]

/-- A new item is none of the list, with nothing linked. -/
theorem Listed.build (h : c.Listed ids) :
    c.build.1 ∉ ids ∧ c.build.2.links c.build.1 = ⟨none, none⟩ ∧ c.build.2.Chained ids ∧
      (ids ++ [c.build.1] ++ c.build.2.freeItems).Perm (List.range c.build.2.itemCount) ∧
      ∀ k, c.build.2.tickOf k = c.tickOf k := by
  unfold LeastRecentlyUsedCache.build
  cases hfree : c.freeItems with
  | nil =>
    have hnew : c.itemCount ∉ ids := fun hmem => absurd (h.mem_iff.1 hmem).1 (Nat.lt_irrefl _)
    have hpool := h.pool
    rw [hfree, List.append_nil] at hpool
    have hchained : { c with itemCount := c.itemCount + 1, freeItems := [] }.Chained ids :=
      ⟨h.chained.linked, h.chained.first, h.chained.last⟩
    refine ⟨hnew, by simp, hchained.blank hnew, ?_, (sameItems_setNext.trans sameItems_setPrev).tick⟩
    change (ids ++ [c.itemCount] ++ []).Perm (List.range (c.itemCount + 1))
    rw [List.append_nil, List.range_succ]
    exact hpool.append_right _
  | cons id freeItems =>
    have hnew : id ∉ ids := fun hmem => (h.mem_iff.1 hmem).2 (by rw [hfree]; exact .head _)
    have hpool := h.pool
    rw [hfree] at hpool
    have hchained : { c with freeItems := freeItems }.Chained ids :=
      ⟨h.chained.linked, h.chained.first, h.chained.last⟩
    refine ⟨hnew, by simp, hchained.blank hnew, ?_, (sameItems_setNext.trans sameItems_setPrev).tick⟩
    change (ids ++ [id] ++ freeItems).Perm (List.range c.itemCount)
    simpa using hpool

/-- Writing the object and the tick of an item leaves the links alone. -/
theorem links_update (c : LeastRecentlyUsedCache O) (id : Nat) (f : LruItem O → LruItem O)
    (h : ∀ item, (f item).next = item.next ∧ (f item).prev = item.prev) : (c.update id f).links = c.links := by
  funext k
  unfold links update
  by_cases hk : k = id
  · simp [hk, h]
  · simp [hk]

theorem tickOf_update (c : LeastRecentlyUsedCache O) (id : Nat) (f : LruItem O → LruItem O) (k : Nat) :
    (c.update id f).tickOf k = if k = id then (f (c.itemPool id)).tick else c.tickOf k := by
  unfold tickOf update
  by_cases hk : k = id
  · simp [hk]
  · simp [hk]

theorem Listed.insert (h : c.Listed ids) (obj : O) (tick : UInt64) :
    (c.insert obj tick).2.Listed (ids ++ [(c.insert obj tick).1]) ∧ (c.insert obj tick).1 ∉ ids ∧
      ∀ k, (c.insert obj tick).2.tickOf k = if k = (c.insert obj tick).1 then tick else c.tickOf k := by
  obtain ⟨hnew, hblank, hchained, hpool, hticks⟩ := h.build
  unfold LeastRecentlyUsedCache.insert
  dsimp only
  have hlinks := links_update c.build.2 c.build.1 (fun item => { item with obj := obj, tick := tick })
    fun _ => ⟨rfl, rfl⟩
  have hsame : SameItems (c.build.2.update c.build.1 fun item => { item with obj := obj, tick := tick })
      ((c.build.2.update c.build.1 fun item => { item with obj := obj, tick := tick }).attach c.build.1) :=
    sameItems_attach
  have hwritten : (c.build.2.update c.build.1 fun item =>
      { item with obj := obj, tick := tick }).Chained ids :=
    ⟨hlinks ▸ hchained.linked, hchained.first, hchained.last⟩
  refine ⟨⟨hwritten.attach h.nodup hnew fun _ => hlinks ▸ hblank, ?_⟩, hnew, fun k => ?_⟩
  · rw [hsame.freeItems, hsame.itemCount]
    exact hpool
  · refine (hsame.tick k).trans ?_
    exact (tickOf_update _ _ _ k).trans (by rw [hticks])

theorem sameItems_free_data (c : LeastRecentlyUsedCache O) (id k : Nat) :
    ((c.free id).itemPool k).obj = (c.itemPool k).obj ∧ (c.free id).tickOf k = c.tickOf k := by
  have hsame : SameItems c (((c.detach id).setPrev id none).setNext id none) :=
    (sameItems_detach.trans sameItems_setPrev).trans sameItems_setNext
  exact ⟨hsame.obj k, hsame.tick k⟩

variable {now tick : UInt64}

theorem Ordered.sublist {ids' : List Nat} (h : c.Ordered ids now) (hsub : ids'.Sublist ids)
    (hticks : ∀ k, c'.tickOf k = c.tickOf k) : c'.Ordered ids' now := by
  refine ⟨(h.sorted.sublist hsub).imp fun {a b} hab => ?_, fun k hk => ?_⟩
  · rwa [hticks, hticks]
  · rw [hticks]
    exact h.past k (hsub.subset hk)

/-- An item with the latest tick belongs at the end. -/
theorem Ordered.concat (h : c.Ordered ids now) (hid : id ∉ ids) (hnow : now ≤ tick)
    (hticks : ∀ k, c'.tickOf k = if k = id then tick else c.tickOf k) :
    c'.Ordered (ids ++ [id]) tick := by
  have hold (k : Nat) (hk : k ∈ ids) : c'.tickOf k = c.tickOf k := by
    rw [hticks, if_neg]
    rintro rfl
    exact hid hk
  have hnew : c'.tickOf id = tick := by rw [hticks, if_pos rfl]
  refine ⟨List.pairwise_append.2 ⟨h.sorted.imp_of_mem fun {a b} ha hb hab => ?_,
    List.pairwise_singleton _ _, fun a ha b hb => ?_⟩, fun k hk => ?_⟩
  · rwa [hold a ha, hold b hb]
  · rw [List.mem_singleton.1 hb, hnew, hold a ha]
    exact UInt64.le_trans (h.past a ha) hnow
  · rcases List.mem_append.1 hk with hk | hk
    · rw [hold k hk]
      exact UInt64.le_trans (h.past k hk) hnow
    · rw [List.mem_singleton.1 hk, hnew]
      exact UInt64.le_refl _

/-- An item that is touched goes to the end, unless it is there or its tick is as late. -/
theorem Listed.touch (h : c.Listed ids) (hordered : c.Ordered ids now) (hid : id ∈ ids) (hnow : now ≤ tick) :
    ∃ ids', (c.touch id tick).Listed ids' ∧ (c.touch id tick).Ordered ids' tick := by
  obtain ⟨before, after, rfl⟩ := List.append_of_mem hid
  have hnodup := h.nodup
  have hpast {k : Nat} (hk : k ∈ before ++ id :: after) : c.tickOf k ≤ tick :=
    UInt64.le_trans (hordered.past k hk) hnow
  unfold LeastRecentlyUsedCache.touch
  split
  · exact ⟨_, h, hordered.sorted, fun k hk => hpast hk⟩
  dsimp only
  have hlinks := links_update c id (fun item => { item with tick := tick }) fun _ => ⟨rfl, rfl⟩
  have hticks := tickOf_update c id fun item => { item with tick := tick }
  have hwritten : (c.update id fun item => { item with tick := tick }).Chained (before ++ id :: after) :=
    ⟨hlinks ▸ h.chained.linked, h.chained.first, h.chained.last⟩
  have hrest : c.Ordered (before ++ after) now :=
    hordered.sublist (List.Sublist.append_left (List.sublist_cons_self id after) before) fun _ => rfl
  have hout : id ∉ before ++ after := by
    rw [List.nodup_middle, List.nodup_cons] at hnodup
    exact hnodup.1
  split
  · next hlast =>
    obtain rfl := (Linked.getLast?_eq_some_iff hnodup).1 (h.chained.last.symm.trans hlast)
    rw [List.append_nil] at hrest hout
    exact ⟨before ++ [id], ⟨hwritten, h.pool⟩, hrest.concat hout hnow hticks⟩
  · next hlast =>
    have hnonempty : before ++ after ≠ [] := by
      intro hempty
      obtain ⟨rfl, rfl⟩ := List.append_eq_nil_iff.1 hempty
      exact hlast h.chained.last
    have hsame : SameItems (c.update id fun item => { item with tick := tick })
        (((c.update id fun item => { item with tick := tick }).detach id).attach id) :=
      sameItems_detach.trans sameItems_attach
    refine ⟨before ++ after ++ [id], ⟨(hwritten.detach hnodup).attach ?_ hout (absurd · hnonempty), ?_⟩,
      hrest.concat hout hnow fun k => (hsame.tick k).trans (hticks k)⟩
    · rw [List.nodup_middle, List.nodup_cons] at hnodup
      exact hnodup.2
    · rw [hsame.freeItems, hsame.itemCount]
      refine List.Perm.trans (List.Perm.append_right _ ?_) h.pool
      exact (List.perm_append_singleton id (before ++ after)).trans List.perm_middle.symm

/-! ## What the callback sees -/

section ForEach

variable {σ : Type}

/-- The calls of a callback for some items, with what it frees, until it returns true if that is to
end them. -/
def visits (stops : Bool) (func : Callback σ O) (obj : Nat → O) : σ → List Nat → σ × List (Nat × Bool)
  | s, [] => (s, [])
  | s, id :: ids =>
    let (s, frees, answer) := func s (obj id)
    if stops && answer then (s, [(id, frees)])
    else
      let (s, calls) := visits stops func obj s ids
      (s, (id, frees) :: calls)

/-- What the callback returns for the items, if nothing ends the calls. -/
def answers (func : Callback σ O) (obj : Nat → O) : σ → List Nat → List Bool
  | _, [] => []
  | s, id :: ids => (func s (obj id)).2.2 :: answers func obj (func s (obj id)).1 ids

theorem visits_cons (stops : Bool) (func : Callback σ O) (obj : Nat → O) (s : σ) (id : Nat)
    (ids : List Nat) : visits stops func obj s (id :: ids) =
      if stops && (func s (obj id)).2.2 then ((func s (obj id)).1, [(id, (func s (obj id)).2.1)])
      else ((visits stops func obj (func s (obj id)).1 ids).1,
        (id, (func s (obj id)).2.1) :: (visits stops func obj (func s (obj id)).1 ids).2) := rfl

/-- If nothing ends the calls all items are visited. -/
theorem visits_false_ids (func : Callback σ O) (obj : Nat → O) (s : σ) (ids : List Nat) :
    (visits false func obj s ids).2.map Prod.fst = ids := by
  induction ids generalizing s with
  | nil => rfl
  | cons id ids ih =>
    rw [visits_cons]
    simp [ih]

theorem visits_nonempty (stops : Bool) (func : Callback σ O) (obj : Nat → O) (s : σ) {ids : List Nat}
    (h : ids ≠ []) : (visits stops func obj s ids).2 ≠ [] := by
  obtain ⟨id, ids, rfl⟩ := List.exists_cons_of_ne_nil h
  rw [visits_cons]
  split
  · simp
  · simp

/-- It makes no difference whether true ends the calls if only the last one returns it. -/
theorem visits_true_eq_iff (func : Callback σ O) (obj : Nat → O) (s : σ) (ids : List Nat) :
    ((visits true func obj s ids).1 = (visits false func obj s ids).1 ∧
        (visits true func obj s ids).2.map Prod.fst = ids) ↔
      true ∉ (answers func obj s ids).dropLast := by
  induction ids generalizing s with
  | nil => simp [visits, answers]
  | cons id ids ih =>
    have hlater := ih (func s (obj id)).1
    rw [visits_cons, visits_cons, answers]
    cases ids with
    | nil => simp [visits, answers]
    | cons id' ids =>
      have hanswers : answers func obj (func s (obj id)).1 (id' :: ids) ≠ [] := by simp [answers]
      rw [List.dropLast_cons_of_ne_nil hanswers]
      cases hanswer : (func s (obj id)).2.2 with
      | true => simp
      | false =>
        simp only [Bool.and_false, Bool.false_eq_true, if_false, List.mem_cons, Bool.true_eq_false,
          false_or, ← hlater, List.map_cons, List.cons.injEq, true_and]

theorem toInt_toInt64 {tick : UInt64} (h : tick.toNat < 2 ^ 63) : tick.toInt64.toInt = tick.toNat :=
  BitVec.toInt_eq_toNat_of_lt (by
    change 2 * tick.toNat < 2 ^ 64
    omega)

/-- Ticks below `2^63` are compared as they are. -/
theorem ticksSince_eq {itemTick : UInt64} (h : tick.toNat < 2 ^ 63) (hitem : itemTick.toNat < 2 ^ 63) :
    ∃ d, ticksSince tick itemTick = .ok d ∧ (d < 0 ↔ tick < itemTick) := by
  unfold ticksSince
  dsimp only
  rw [toInt_toInt64 h, toInt_toInt64 hitem, if_pos (by omega)]
  refine ⟨_, rfl, ?_⟩
  rw [UInt64.lt_iff_toNat_lt]
  omega

/-- The items that a run of the callback does not free, with the first item of the run. -/
theorem filter_unfreed (func : Callback σ O) (obj : Nat → O) (s : σ) (frees : Bool)
    {rest below : List Nat} (hid : id ∉ rest) (hbelow : ∀ k ∈ below, k ∈ rest) :
    (id :: rest).filter (fun k => (k, true) ∉ (id, frees) :: (visits false func obj s below).2)
      = (if frees then [] else [id]) ++ rest.filter fun k => (k, true) ∉ (visits false func obj s below).2 := by
  have hlater : (id, true) ∉ (visits false func obj s below).2 := by
    intro hmem
    refine hid (hbelow id ?_)
    rw [← visits_false_ids func obj s below]
    exact List.mem_map_of_mem hmem
  have hrest : rest.filter (fun k => (k, true) ∉ (id, frees) :: (visits false func obj s below).2)
      = rest.filter fun k => (k, true) ∉ (visits false func obj s below).2 := by
    refine List.filter_congr fun k hk => ?_
    have hne : k ≠ id := by
      rintro rfl
      exact hid hk
    simp [hne]
  rw [List.filter_cons, hrest]
  cases frees with
  | true => simp
  | false => simp [hlater]

/-- The loop calls the callback for the items that are not above the tick, and takes those that it
frees out of the list. -/
theorem forEachLoop_eq {obj : Nat → O} {ticks : Nat → UInt64} (func : Callback σ O)
    (htick : tick.toNat < 2 ^ 63) (kept : List Nat) {rest : List Nat} {fuel : Nat} {c : LeastRecentlyUsedCache O} {s : σ}
    (hfuel : rest.length ≤ fuel) (h : c.Listed (kept ++ rest))
    (hobj : ∀ k, (c.itemPool k).obj = obj k) (hticks : ∀ k, c.tickOf k = ticks k)
    (hsorted : rest.Pairwise fun a b => ticks a ≤ ticks b) (hbound : ∀ k ∈ rest, (ticks k).toNat < 2 ^ 63) :
    ∃ c' : LeastRecentlyUsedCache O,
      forEachLoop tick func fuel rest.head? c s = .ok (c',
        (visits false func obj s (rest.filter fun k => ticks k ≤ tick)).1,
        rest.filter fun k => ticks k ≤ tick) ∧
      c'.Listed (kept ++ rest.filter fun k => (k, true) ∉
        (visits false func obj s (rest.filter fun k => ticks k ≤ tick)).2) := by
  induction rest generalizing kept fuel c s with
  | nil => exact ⟨c, by cases fuel <;> rfl, h⟩
  | cons id rest ih =>
    obtain ⟨fuel, rfl⟩ : ∃ n, fuel = n + 1 := ⟨fuel - 1, by simp at hfuel; omega⟩
    obtain ⟨d, hd, hneg⟩ := ticksSince_eq htick (hbound id (.head _))
    obtain ⟨hfirst, hrest⟩ := List.pairwise_cons.1 hsorted
    have hnodup := h.nodup
    have hid : id ∉ rest := (List.nodup_cons.1 (List.nodup_append.1 hnodup).2.1).1
    have hticks' : (c.itemPool id).tick = ticks id := hticks id
    have hnext : (c.itemPool id).next = rest.head? :=
      congrArg Links.next (h.chained.linked kept id rest rfl)
    rw [List.head?_cons, forEachLoop, hticks', hd, hobj, hnext]
    by_cases habove : tick < ticks id
    · have hnone : (id :: rest).filter (fun k => ticks k ≤ tick) = [] := by
        rw [List.filter_eq_nil_iff]
        intro k hk
        have hle : ticks id ≤ ticks k := by
          rcases List.mem_cons.1 hk with rfl | hk
          · exact UInt64.le_refl _
          · exact hfirst k hk
        rw [decide_eq_true_eq, UInt64.not_le]
        exact UInt64.lt_of_lt_of_le habove hle
      refine ⟨c, ?_, ?_⟩
      · rw [hnone]
        change (if d < 0 then _ else _) = _
        rw [if_pos (hneg.2 habove)]
        rfl
      · rw [hnone]
        simpa [visits] using h
    · have hbelow : (id :: rest).filter (fun k => ticks k ≤ tick)
          = id :: rest.filter fun k => ticks k ≤ tick :=
        List.filter_cons_of_pos (decide_eq_true (UInt64.not_lt.1 habove))
      obtain ⟨s₁, frees, answer, hcall⟩ : ∃ s₁ frees answer, func s (obj id) = (s₁, frees, answer) :=
        ⟨_, _, _, rfl⟩
      -- The list and the data of the items after the call.
      have hlisted : (c.afterCall id frees).Listed
          ((kept ++ if frees then [] else [id]) ++ rest) := by
        cases frees with
        | true => simpa [afterCall] using h.free
        | false => simpa [afterCall] using h
      have hdata (k : Nat) : ((c.afterCall id frees).itemPool k).obj = obj k ∧
          (c.afterCall id frees).tickOf k = ticks k := by
        cases frees with
        | true =>
          obtain ⟨hobj₁, htick₁⟩ := sameItems_free_data c id k
          exact ⟨hobj₁.trans (hobj k), htick₁.trans (hticks k)⟩
        | false => exact ⟨hobj k, hticks k⟩
      obtain ⟨c', hloop, hlisted'⟩ := ih (s := s₁) (kept ++ if frees then [] else [id]) (Nat.le_of_succ_le_succ hfuel) hlisted
        (fun k => (hdata k).1) (fun k => (hdata k).2) hrest fun k hk => hbound k (.tail _ hk)
      refine ⟨c', ?_, ?_⟩
      · rw [hbelow, visits_cons, hcall]
        change (if d < 0 then _ else _) = _
        rw [if_neg (fun hd => habove (hneg.1 hd))]
        dsimp only
        rw [if_neg (by simp [returnsBool]), if_neg (by simp), hloop]
        rfl
      · rw [hbelow, visits_cons, hcall]
        simp only [Bool.false_and, Bool.false_eq_true, if_false]
        rw [filter_unfreed func obj s₁ frees hid (fun k hk => (List.mem_filter.1 hk).1), ← List.append_assoc]
        exact hlisted'

/-- A tick with the highest bit is negative, so no item is below it. -/
theorem forEachItemBelow_negative {func : Callback σ O} {c c' : LeastRecentlyUsedCache O} {s s' : σ}
    {calls : List Nat} (htick : ¬tick.toNat < 2 ^ 63) (hfirst : c.firstItem = some id)
    (hitem : (c.tickOf id).toNat < 2 ^ 63)
    (h : c.forEachItemBelow tick func s = .ok (c', s', calls)) : calls = [] := by
  have hlt := tick.toNat_lt
  have hneg : tick.toInt64.toInt < 0 := by
    change tick.toBitVec.toInt < 0
    rw [BitVec.toInt_eq_toNat_cond, if_neg (by change ¬2 * tick.toNat < 2 ^ 64; omega)]
    change (tick.toNat : Int) - 2 ^ 64 < 0
    omega
  unfold forEachItemBelow at h
  rw [hfirst, forEachLoop] at h
  obtain ⟨d, hd, h⟩ := Outcome.bind_eq_ok.1 h
  unfold ticksSince at hd
  dsimp only at hd
  split at hd
  · have hitem' := toInt_toInt64 hitem
    unfold tickOf at hitem'
    cases hd
    rw [if_pos (by omega)] at h
    obtain ⟨-, -, rfl⟩ := (by simpa using Except.ok.inj h : c = c' ∧ s = s' ∧ [] = calls)
    rfl
  · cases hd

/-- The iteration as it should be: the items that are not above the tick in the order of the list,
until the callback returns true if it returns a `bool`. -/
def IteratesBelow (c : LeastRecentlyUsedCache O) (ids : List Nat) (tick : UInt64) (boolean : Bool)
    (func : Callback σ O) (s : σ) : Prop :=
  ∃ c', c.forEachItemBelow tick func s = .ok (c',
    (visits boolean func (fun k => (c.itemPool k).obj) s (ids.filter fun k => c.tickOf k ≤ tick)).1,
    (visits boolean func (fun k => (c.itemPool k).obj) s
      (ids.filter fun k => c.tickOf k ≤ tick)).2.map Prod.fst)

/-- The callback cannot end the iteration, so it is as it should be if no item but the last returns
true; and a tick with the highest bit is below all others. -/
theorem iteratesBelow_iff {now : UInt64} (h : c.Listed ids) (hordered : c.Ordered ids now)
    (hnow : now.toNat < 2 ^ 63) (boolean : Bool) (func : Callback σ O) (s : σ) :
    c.IteratesBelow ids tick boolean func s ↔
      (tick.toNat < 2 ^ 63 ∨ ids = []) ∧ (boolean = true →
        true ∉ (answers func (fun k => (c.itemPool k).obj) s
          (ids.filter fun k => c.tickOf k ≤ tick)).dropLast) := by
  have hbound (k : Nat) (hk : k ∈ ids) : (c.tickOf k).toNat < 2 ^ 63 :=
    Nat.lt_of_le_of_lt (UInt64.le_iff_toNat_le.1 (hordered.past k hk)) hnow
  unfold IteratesBelow
  by_cases htick : tick.toNat < 2 ^ 63
  · have hlen : ids.length ≤ c.itemCount + 1 := by
      have hpool := h.pool.length_eq
      rw [List.length_append, List.length_range] at hpool
      omega
    obtain ⟨c', hloop, -⟩ := forEachLoop_eq (s := s) func htick [] hlen h (fun _ => rfl)
      (fun _ => rfl) hordered.sorted hbound
    rw [← h.chained.first] at hloop
    change c.forEachItemBelow tick func s = _ at hloop
    rw [hloop]
    generalize ids.filter (fun k => c.tickOf k ≤ tick) = below
    cases boolean with
    | false => exact ⟨fun _ => ⟨.inl htick, by simp⟩, fun _ => ⟨c', by rw [visits_false_ids]⟩⟩
    | true =>
      rw [← visits_true_eq_iff]
      simp only [Except.ok.injEq, Prod.mk.injEq, exists_eq_left', htick, true_or, true_and, true_imp_iff]
      exact and_congr eq_comm eq_comm
  · by_cases hids : ids = []
    · subst hids
      refine iff_of_true ⟨c, ?_⟩ (by simp [answers])
      unfold forEachItemBelow
      rw [h.chained.first]
      rfl
    · refine iff_of_false ?_ fun hcond => hcond.1.elim htick hids
      rintro ⟨c', hloop⟩
      obtain ⟨id, rest, rfl⟩ := List.exists_cons_of_ne_nil hids
      have hall : (id :: rest).filter (fun k => c.tickOf k ≤ tick) = id :: rest := by
        rw [List.filter_eq_self]
        intro k hk
        rw [decide_eq_true_eq, UInt64.le_iff_toNat_le]
        exact (hbound k hk).le.trans (Nat.not_lt.1 htick)
      have hnone := forEachItemBelow_negative htick h.chained.first (hbound id (.head _)) hloop
      rw [hall, List.map_eq_nil_iff] at hnone
      exact visits_nonempty boolean func _ s hids hnone

end ForEach

/-! ## Runs -/

def empty [Inhabited O] : LeastRecentlyUsedCache O := ⟨fun _ => ⟨default, 0, none, none⟩, 0, [], none, none⟩

def Live (c : LeastRecentlyUsedCache O) (id : Nat) : Prop := id < c.itemCount ∧ id ∉ c.freeItems

end LeastRecentlyUsedCache

open LeastRecentlyUsedCache

inductive LruAction (O : Type) where
  | insert (obj : O) (tick : UInt64)
  | touch (id : Nat) (tick : UInt64)
  | free (id : Nat)

/-- The cache between the calls, with the last tick. -/
structure LruRun (O : Type) where
  cache : LeastRecentlyUsedCache O
  now : UInt64

namespace LruRun

variable {O : Type}

/-- The ids of new items are the events. -/
def step (s : LruRun O) : LruAction O → Option (LruRun O × List Nat)
  | .insert obj tick => some (⟨(s.cache.insert obj tick).2, tick⟩, [(s.cache.insert obj tick).1])
  | .touch id tick => some (⟨s.cache.touch id tick, tick⟩, [])
  | .free id => some (⟨s.cache.free id, s.now⟩, [])

/-- The ids are live, and the ticks do not decrease and are below `2^63`. -/
def Allowed (s : LruRun O) : LruAction O → Prop
  | .insert _ tick => s.now ≤ tick ∧ tick.toNat < 2 ^ 63
  | .touch id tick => s.cache.Live id ∧ s.now ≤ tick ∧ tick.toNat < 2 ^ 63
  | .free id => s.cache.Live id

abbrev Reached [Inhabited O] : LruRun O → List Nat → Prop := Reaches step Allowed ⟨empty, 0⟩

/-- What every call keeps. -/
def Sound (s : LruRun O) : Prop :=
  s.now.toNat < 2 ^ 63 ∧ ∃ ids, s.cache.Listed ids ∧ s.cache.Ordered ids s.now

theorem sound_empty [Inhabited O] : (⟨empty, 0⟩ : LruRun O).Sound := by
  have hzero : (0 : UInt64).toNat < 2 ^ 63 := by decide
  refine ⟨hzero, [], ⟨⟨Linked.nil, rfl, rfl⟩, List.Perm.refl _⟩, List.Pairwise.nil, fun id hid => ?_⟩
  cases hid

theorem Sound.step {s s' : LruRun O} {a : LruAction O} {es : List Nat} (h : s.Sound) (hallowed : s.Allowed a)
    (hstep : s.step a = some (s', es)) : s'.Sound := by
  obtain ⟨hnow, ids, hlisted, hordered⟩ := h
  cases a with
  | insert obj tick =>
    cases hstep
    obtain ⟨hlisted', hnew, hticks⟩ := hlisted.insert obj tick
    exact ⟨hallowed.2, _, hlisted', hordered.concat hnew hallowed.1 hticks⟩
  | touch id tick =>
    cases hstep
    obtain ⟨ids', hlisted', hordered'⟩ := hlisted.touch hordered (hlisted.mem_iff.2 hallowed.1) hallowed.2.1
    exact ⟨hallowed.2.2, ids', hlisted', hordered'⟩
  | free id =>
    cases hstep
    obtain ⟨before, after, rfl⟩ := List.append_of_mem (hlisted.mem_iff.2 hallowed)
    refine ⟨hnow, before ++ after, hlisted.free, hordered.sublist ?_ fun k => (sameItems_free_data _ id k).2⟩
    exact List.Sublist.append_left (List.sublist_cons_self id after) before

theorem sound_of_reached [Inhabited O] {s : LruRun O} {events : List Nat} (h : Reached s events) : s.Sound :=
  Reaches.invariant (P := fun s _ => s.Sound) sound_empty
    (fun _ _ _ _ _ hs hallowed hstep => Sound.step hs hallowed hstep) h

end LruRun

/-- The list has each live item once, in the order of the ticks, with consistent links. The iteration
goes through it as it should for the callbacks that return true for no item but the last. -/
theorem lru_iterates [Inhabited O] (s : LruRun O) (events : List Nat) (h : LruRun.Reached s events) :
    ∃ ids, s.cache.Chained ids ∧ ids.Nodup ∧ (∀ id, id ∈ ids ↔ s.cache.Live id) ∧
      ids.Pairwise (fun a b => s.cache.tickOf a ≤ s.cache.tickOf b) ∧
      ∀ (σ : Type) (tick : UInt64) (boolean : Bool) (func : Callback σ O) (t : σ),
        s.cache.IteratesBelow ids tick boolean func t ↔
          (tick.toNat < 2 ^ 63 ∨ ids = []) ∧ (boolean = true →
            true ∉ (answers func (fun k => (s.cache.itemPool k).obj) t
              (ids.filter fun k => s.cache.tickOf k ≤ tick)).dropLast) := by
  obtain ⟨hnow, ids, hlisted, hordered⟩ := LruRun.sound_of_reached h
  exact ⟨ids, hlisted.chained, hlisted.nodup, fun id => hlisted.mem_iff, hordered.sorted,
    fun σ tick boolean func t => iteratesBelow_iff hlisted hordered hnow boolean func t⟩

/-- The items 7 and 8 with the ticks 1 and 2. -/
def twoItems : LruRun Nat := ⟨((empty.insert 7 1).2.insert 8 2).2, 2⟩

theorem twoItems_reached : LruRun.Reached twoItems [0, 1] := by
  have hfirst : LruRun.Allowed (⟨empty, 0⟩ : LruRun Nat) (.insert 7 1) := ⟨by decide, by decide⟩
  have hsecond : LruRun.Allowed (⟨(empty.insert 7 1).2, 1⟩ : LruRun Nat) (.insert 8 2) :=
    ⟨by decide, by decide⟩
  have hone : LruRun.Reached (⟨(empty.insert 7 1).2, 1⟩ : LruRun Nat) [0] := Reaches.start.step hfirst rfl
  exact Reaches.step hone hsecond rfl

/-- A callback that does not return a `bool` and frees what it is given. -/
theorem lru_iterates_twoItems : ∃ ids, twoItems.cache.Chained ids ∧
    twoItems.cache.IteratesBelow ids 1 false (fun (t : Unit) (_ : Nat) => (t, true, true)) () := by
  obtain ⟨ids, hchained, -, -, -, hiff⟩ := lru_iterates twoItems [0, 1] twoItems_reached
  exact ⟨ids, hchained, (hiff Unit 1 false _ ()).2 ⟨.inl (by decide), fun hbool => by cases hbool⟩⟩

/-- A callback that returns true is called again. -/
theorem forEachItemBelow_goesOn :
    ∃ (s : LruRun Nat) (events ids : List Nat), LruRun.Reached s events ∧ s.cache.Chained ids ∧
      ¬s.cache.IteratesBelow ids 5 true (fun (t : Unit) (_ : Nat) => (t, false, true)) () := by
  have hempty : (empty : LeastRecentlyUsedCache Nat).Listed [] :=
    ⟨⟨Linked.nil, rfl, rfl⟩, List.Perm.refl _⟩
  have hlisted : twoItems.cache.Listed [0, 1] := (((hempty.insert 7 1).1).insert 8 2).1
  refine ⟨twoItems, [0, 1], [0, 1], twoItems_reached, hlisted.chained, ?_⟩
  rintro ⟨c', hcalls⟩
  have hboth : twoItems.cache.forEachItemBelow 5 (fun (t : Unit) (_ : Nat) => (t, false, true)) ()
      = .ok (twoItems.cache, (), [0, 1]) := rfl
  have heq : [0, 1] = (visits true (fun (t : Unit) (_ : Nat) => (t, false, true))
      (fun k => (twoItems.cache.itemPool k).obj) ()
      ([0, 1].filter fun k => twoItems.cache.tickOf k ≤ 5)).2.map Prod.fst :=
    congrArg (fun result => result.2.2) (Except.ok.inj (hboth.symm.trans hcalls))
  exact absurd heq (by decide)

end Common
