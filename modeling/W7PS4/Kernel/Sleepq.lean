-- SUMMARY: Sleep queues: a thread that waits lends its queue node to the wait channel and gets one back when it leaves.
import W7PS4.Lib.Loans
import W7PS4.Lib.Machine
import W7PS4.Lib.Reaches

/-!
# Sleep queues

Every thread has a `SleepQueue` node. The node of the first thread that waits on a channel becomes
the queue of the channel, and the nodes of those who follow go to its free list. A thread that
leaves takes a node of the free list, and the last one takes the queue itself.

Pointers are `Option`s of addresses, and `none` is the null pointer. A wait channel is the address
of an object, so it is not null.
-/

namespace Kernel

open Function (update_eq_self update_of_ne update_self)

variable {T N : Type}

structure SleepQueue (T N : Type) where
  sqBlocked : List T := []
  sqFreeq : List N := []
  sqWchan : Option Nat := none

/-- The chains of `sc_table`, the nodes, and the two fields of the threads. -/
structure Sleepqs (T N : Type) where
  scQueues : Nat → List N
  node : N → SleepQueue T N
  sleepqueue : T → Option N
  wchan : T → Option Nat

def hashshift : Nat := 9

def hashsize : Nat := 1 <<< hashshift

def scHash (wchan : Nat) : Nat := ((wchan >>> 3) ^^^ (wchan >>> (hashshift + 3))) &&& (hashsize - 1)

section

variable [DecidableEq T] [DecidableEq N]

namespace Sleepqs

def modify (s : Sleepqs T N) (sq : N) (f : SleepQueue T N → SleepQueue T N) : Sleepqs T N :=
  { s with node := Function.update s.node sq (f (s.node sq)) }

/-- `unlink` takes a node out of whichever list it is in. -/
def unlink (s : Sleepqs T N) (sq : N) : Sleepqs T N :=
  { s with
    scQueues := fun h => (s.scQueues h).filter (· ≠ sq)
    node := fun n => { s.node n with sqFreeq := (s.node n).sqFreeq.filter (· ≠ sq) } }

/-- The thread stops waiting and takes a node. -/
def give (s : Sleepqs T N) (td : T) (sq : N) : Sleepqs T N :=
  { s with
    sleepqueue := Function.update s.sleepqueue td (some sq)
    wchan := Function.update s.wchan td none }

end Sleepqs

variable (s : Sleepqs T N)

def sleepqLookup (wchan : Nat) : Option N :=
  (s.scQueues (scHash wchan)).find? fun sq => (s.node sq).sqWchan == some wchan

/-- The queue of the channel. Where it has none the thread's node becomes it, otherwise the node
goes to the free list. -/
def sleepqEnter (wchan : Nat) (own : N) : N × Sleepqs T N :=
  match sleepqLookup s wchan with
  | some sq => (sq, s.modify sq fun q => { q with sqFreeq := own :: q.sqFreeq })
  | none =>
    let s := { s with
      scQueues := Function.update s.scQueues (scHash wchan) (own :: s.scQueues (scHash wchan)) }
    (own, s.modify own fun q => { q with sqWchan := some wchan })

def sleepqAdd (wchan : Nat) (td : T) : Outcome (Sleepqs T N) := do
  let own ← deref (s.sleepqueue td)
  let (sq, s) := sleepqEnter s wchan own
  let s := { s with
    sleepqueue := Function.update s.sleepqueue td none
    wchan := Function.update s.wchan td (some wchan) }
  return s.modify sq fun q => { q with sqBlocked := q.sqBlocked ++ [td] }

/-- The end of `SleepqRemove`, once the thread is off the list. -/
def sleepqRestore (sq : N) (td : T) : Outcome (Bool × Sleepqs T N) :=
  if (s.node sq).sqBlocked.isEmpty then
    return (false, (s.give td sq).unlink sq)
  else do
    assertMsg (!(s.node sq).sqFreeq.isEmpty) "Sleep queue free list is empty while waiters remain"
    let front ← deref (s.node sq).sqFreeq.head?
    return (true, (s.give td front).modify sq fun q => { q with sqFreeq := q.sqFreeq.tail })

def sleepqRemove (sq : Option N) (td : T) : Outcome (Bool × Sleepqs T N) :=
  match sq with
  | none => .error (.assertion "Cannot remove a thread from a null sleep queue")
  | some sq => do
    let removed := (s.node sq).sqBlocked.count td
    let s := s.modify sq fun q => { q with sqBlocked := q.sqBlocked.filter (· != td) }
    assertMsg (removed == 1) "Thread is missing from its sleep queue"
    sleepqRestore s sq td

/-- The loop of `SleepqDrop` goes over the waiters and the free list together. -/
def sleepqDropLoop (s : Sleepqs T N) : List T → List N → Outcome (Sleepqs T N)
  | [], _ => return s
  | _ :: _, [] => .error .undefined
  | td2 :: tds, sq2 :: free => sleepqDropLoop (s.give td2 sq2) tds free

/-- The threads that the callback is called for, and the state after it. -/
def sleepqDrop (sq : N) : Outcome (List T × Sleepqs T N) :=
  match (s.node sq).sqBlocked with
  | [] => return ([], s)
  | td :: tds => do
    let s := (s.unlink sq).give td sq
    let s ← sleepqDropLoop s tds (s.node sq).sqFreeq
    return (td :: tds, s.modify sq fun q => { q with sqBlocked := [], sqFreeq := [] })

end

/-! ## The chains -/

namespace Sleepqs

/-- The queues of a chain are of different channels, all of which hash to it. A node that is not a
queue is empty. -/
structure Chained (s : Sleepqs T N) : Prop where
  hash {h : Nat} {sq : N} : sq ∈ s.scQueues h → ∃ w, (s.node sq).sqWchan = some w ∧ scHash w = h
  one (h : Nat) : ((s.scQueues h).map fun sq => (s.node sq).sqWchan).Nodup
  idle (sq : N) : (∀ h, sq ∉ s.scQueues h) → (s.node sq).sqBlocked = [] ∧ (s.node sq).sqFreeq = []

variable {s s' : Sleepqs T N} {w : Nat} {sq own : N} {td : T}

theorem Chained.eq_of_wchan (hs : s.Chained) {h : Nat} {n n' : N} (hn : n ∈ s.scQueues h)
    (hn' : n' ∈ s.scQueues h) (heq : (s.node n).sqWchan = (s.node n').sqWchan) : n = n' :=
  List.inj_on_of_nodup_map (hs.one h) hn hn' heq

/-- The queue that is found is the one of the channel. -/
theorem Chained.lookup_eq_some (hs : s.Chained) :
    sleepqLookup s w = some sq ↔ sq ∈ s.scQueues (scHash w) ∧ (s.node sq).sqWchan = some w := by
  unfold sleepqLookup
  constructor
  · intro hfind
    exact ⟨List.mem_of_find?_eq_some hfind, by simpa using List.find?_some hfind⟩
  · rintro ⟨hmem, hw⟩
    cases hfind : (s.scQueues (scHash w)).find? fun sq => (s.node sq).sqWchan == some w with
    | none =>
      rw [List.find?_eq_none] at hfind
      exact absurd (by simpa using hw) (hfind sq hmem)
    | some sq' =>
      have hw' : (s.node sq').sqWchan = some w := by simpa using List.find?_some hfind
      rw [hs.eq_of_wchan (List.mem_of_find?_eq_some hfind) hmem (hw'.trans hw.symm)]

theorem Chained.lookup_of_mem (hs : s.Chained) {h : Nat} (hmem : sq ∈ s.scQueues h) :
    ∃ w, sleepqLookup s w = some sq := by
  obtain ⟨w, hw, rfl⟩ := hs.hash hmem
  exact ⟨w, hs.lookup_eq_some.2 ⟨hmem, hw⟩⟩

theorem Chained.lookup_inj (hs : s.Chained) {w' : Nat} (hw : sleepqLookup s w = some sq)
    (hw' : sleepqLookup s w' = some sq) : w = w' := by
  have heq := (hs.lookup_eq_some.1 hw).2.symm.trans (hs.lookup_eq_some.1 hw').2
  simpa using heq

/-- What the chains say depends on the chains and the channels of the nodes. -/
theorem lookup_congr (hqueues : s'.scQueues = s.scQueues)
    (hwchan : ∀ n, (s'.node n).sqWchan = (s.node n).sqWchan) : sleepqLookup s' w = sleepqLookup s w := by
  unfold sleepqLookup
  rw [hqueues]
  simp only [hwchan]

/-- A step that changes queues, but neither adds nor takes away one. -/
theorem Chained.congr (hs : s.Chained) (hqueues : s'.scQueues = s.scQueues)
    (hwchan : ∀ n, (s'.node n).sqWchan = (s.node n).sqWchan)
    (hidle : ∀ n, (∀ h, n ∉ s.scQueues h) → s'.node n = s.node n) : s'.Chained where
  hash := by
    intro h n hn
    rw [hqueues] at hn
    rw [hwchan]
    exact hs.hash hn
  one := by
    intro h
    rw [hqueues]
    simpa only [hwchan] using hs.one h
  idle := by
    intro n hn
    rw [hqueues] at hn
    rw [hidle n hn]
    exact hs.idle n hn

/-- A node that is in no chain becomes the queue of a channel that has none. -/
theorem Chained.link (hs : s.Chained) (hnone : sleepqLookup s w = none)
    (hown : ∀ h, own ∉ s.scQueues h)
    (hqueues : s'.scQueues = Function.update s.scQueues (scHash w) (own :: s.scQueues (scHash w)))
    (hwchan : (s'.node own).sqWchan = some w) (hnode : ∀ n, n ≠ own → s'.node n = s.node n) :
    s'.Chained := by
  have hne {h : Nat} {n : N} (hn : n ∈ s.scQueues h) : n ≠ own := by
    rintro rfl
    exact hown h hn
  have hmap (h : Nat) : ((s.scQueues h).map fun n => (s'.node n).sqWchan)
      = (s.scQueues h).map fun n => (s.node n).sqWchan :=
    List.map_congr_left fun n hn => by rw [hnode n (hne hn)]
  have hmem {h : Nat} {n : N} : n ∈ s'.scQueues h ↔ h = scHash w ∧ n = own ∨ n ∈ s.scQueues h := by
    rw [hqueues]
    by_cases heq : h = scHash w
    · subst heq
      simp
    · simp [heq]
  constructor
  · intro h n hn
    rcases hmem.1 hn with ⟨rfl, rfl⟩ | hn
    · exact ⟨w, hwchan, rfl⟩
    · rw [hnode n (hne hn)]
      exact hs.hash hn
  · intro h
    rw [hqueues]
    by_cases heq : h = scHash w
    · subst heq
      rw [update_self, List.map_cons, hmap, List.nodup_cons, hwchan]
      refine ⟨?_, hs.one _⟩
      intro hfound
      obtain ⟨n, hn, hw⟩ := List.mem_map.1 hfound
      rw [hs.lookup_eq_some.2 ⟨hn, hw⟩] at hnone
      cases hnone
    · rw [update_of_ne heq, hmap]
      exact hs.one h
  · intro n hn
    have hnown : n ≠ own := by
      rintro rfl
      exact hn (scHash w) (hmem.2 (.inl ⟨rfl, rfl⟩))
    rw [hnode n hnown]
    exact hs.idle n fun h hin => hn h (hmem.2 (.inr hin))

section

variable [DecidableEq N]

@[simp] theorem node_modify_self (s : Sleepqs T N) (sq : N) (f : SleepQueue T N → SleepQueue T N) :
    (s.modify sq f).node sq = f (s.node sq) := by
  simp [modify]

theorem Chained.lookup_link (hs : s.Chained) (hs' : s'.Chained) (hnone : sleepqLookup s w = none)
    (hown : ∀ h, own ∉ s.scQueues h)
    (hqueues : s'.scQueues = Function.update s.scQueues (scHash w) (own :: s.scQueues (scHash w)))
    (hwchan : (s'.node own).sqWchan = some w) (hnode : ∀ n, n ≠ own → s'.node n = s.node n) :
    sleepqLookup s' = Function.update (sleepqLookup s) w (some own) := by
  funext w'
  by_cases heq : w' = w
  · subst heq
    rw [update_self]
    exact hs'.lookup_eq_some.2 ⟨by simp [hqueues], hwchan⟩
  rw [update_of_ne heq]
  ext n
  rw [hs'.lookup_eq_some, hs.lookup_eq_some, hqueues]
  by_cases hn : n = own
  · subst hn
    simp [hwchan, Ne.symm heq, hown]
  rw [hnode n hn]
  by_cases hh : scHash w' = scHash w
  · simp [hh, hn]
  · simp [update_of_ne hh]

/-- The queue of a channel becomes an empty node again. -/
theorem Chained.unlink (hs : s.Chained)
    (hqueues : s'.scQueues = fun h => (s.scQueues h).filter (· ≠ sq))
    (hnode : ∀ n, n ≠ sq → s'.node n = s.node n)
    (hempty : (s'.node sq).sqBlocked = [] ∧ (s'.node sq).sqFreeq = []) : s'.Chained := by
  have hmem {h : Nat} {n : N} : n ∈ s'.scQueues h ↔ n ∈ s.scQueues h ∧ n ≠ sq := by
    rw [hqueues]
    simp
  constructor
  · intro h n hn
    rw [hnode n (hmem.1 hn).2]
    exact hs.hash (hmem.1 hn).1
  · intro h
    have hmap : ((s'.scQueues h).map fun n => (s'.node n).sqWchan)
        = (s'.scQueues h).map fun n => (s.node n).sqWchan :=
      List.map_congr_left fun n hn => by rw [hnode n (hmem.1 hn).2]
    rw [hmap, hqueues]
    exact (hs.one h).sublist ((List.filter_sublist).map _)
  · intro n hn
    by_cases heq : n = sq
    · rw [heq]
      exact hempty
    · rw [hnode n heq]
      exact hs.idle n fun h hin => hn h (hmem.2 ⟨hin, heq⟩)

theorem Chained.lookup_unlink (hs : s.Chained) (hs' : s'.Chained) (hsq : sleepqLookup s w = some sq)
    (hqueues : s'.scQueues = fun h => (s.scQueues h).filter (· ≠ sq))
    (hnode : ∀ n, n ≠ sq → s'.node n = s.node n) :
    sleepqLookup s' = Function.update (sleepqLookup s) w none := by
  funext w'
  ext n
  rw [hs'.lookup_eq_some, hqueues]
  by_cases heq : w' = w
  · subst heq
    rw [update_self]
    simp only [reduceCtorEq, iff_false, not_and, List.mem_filter, decide_eq_true_eq]
    rintro ⟨hn, hne⟩ hw
    rw [hnode n hne] at hw
    have hfound := hs.lookup_eq_some.2 ⟨hn, hw⟩
    rw [hsq] at hfound
    exact hne (by simpa using hfound.symm)
  · rw [update_of_ne heq, hs.lookup_eq_some]
    by_cases hn : n = sq
    · subst hn
      have hw := (hs.lookup_eq_some.1 hsq).2
      simp [hw, Ne.symm heq]
    · rw [hnode n hn]
      simp [hn]

end

/-! ## What the calls do with the nodes -/

/-- Who has which node: a channel has its queue and the free list of it. -/
def loans (s : Sleepqs T N) : Loans T Nat N where
  own := s.sleepqueue
  waits := s.wchan
  lent := fun w => (sleepqLookup s w).elim 0 fun sq => ↑(sq :: (s.node sq).sqFreeq)
  waiters := fun w => (sleepqLookup s w).elim [] fun sq => (s.node sq).sqBlocked

theorem lent_of_lookup (hsq : sleepqLookup s w = some sq) :
    s.loans.lent w = ↑(sq :: (s.node sq).sqFreeq) := by
  simp [loans, hsq]

theorem waiters_of_lookup (hsq : sleepqLookup s w = some sq) :
    s.loans.waiters w = (s.node sq).sqBlocked := by
  simp [loans, hsq]

/-- A step that changes the queue of one channel, or what is in it. -/
theorem loans_eq {r : Option N} (hlookup : sleepqLookup s' = Function.update (sleepqLookup s) w r)
    (hnode : ∀ w' n, w' ≠ w → sleepqLookup s w' = some n → s'.node n = s.node n) :
    s'.loans = {
      own := s'.sleepqueue
      waits := s'.wchan
      lent := Function.update s.loans.lent w (r.elim 0 fun sq => ↑(sq :: (s'.node sq).sqFreeq))
      waiters := Function.update s.loans.waiters w (r.elim [] fun sq => (s'.node sq).sqBlocked) } := by
  have hother {w' : Nat} (hw : w' ≠ w) : s'.loans.lent w' = s.loans.lent w' ∧
      s'.loans.waiters w' = s.loans.waiters w' := by
    simp only [loans, hlookup, update_of_ne hw]
    cases hfound : sleepqLookup s w' with
    | none => exact ⟨rfl, rfl⟩
    | some n => simp [hnode w' n hw hfound]
  apply Loans.ext
  · rfl
  · rfl
  · funext w'
    by_cases hw : w' = w
    · subst hw
      simp [loans, hlookup]
    dsimp only
    rw [update_of_ne hw]
    exact (hother hw).1
  · funext w'
    by_cases hw : w' = w
    · subst hw
      simp [loans, hlookup]
    dsimp only
    rw [update_of_ne hw]
    exact (hother hw).2

variable [DecidableEq T] {tokens : Set N} {arrivals : List T}

/-- The chains are in order, and the nodes are spread over the threads and the channels. -/
structure Inv (tokens : Set N) (arrivals : List T) (s : Sleepqs T N) : Prop where
  chained : s.Chained
  sound : s.loans.Sound tokens arrivals

/-- The node of a thread is in no chain. -/
theorem Inv.notMem_of_own (hs : s.Inv tokens arrivals) (hown : s.sleepqueue td = some own) (h : Nat) :
    own ∉ s.scQueues h := by
  intro hmem
  obtain ⟨w, hw⟩ := hs.chained.lookup_of_mem hmem
  have hplace : own ∈ s.loans.bag (.inr w) := by
    show own ∈ s.loans.lent w
    rw [lent_of_lookup hw]
    simp
  have hthread : own ∈ s.loans.bag (.inl td) := by simp [Loans.bag, loans, hown]
  cases hs.sound.spread.unique hplace hthread

/-- A queue is in no free list, so it is unlinked from its chain only. -/
theorem Inv.notMem_freeq (hs : s.Inv tokens arrivals) (hsq : sleepqLookup s w = some sq) (n : N) :
    sq ∉ (s.node n).sqFreeq := by
  intro hmem
  by_cases hlinked : ∀ h, n ∉ s.scQueues h
  · rw [(hs.chained.idle n hlinked).2] at hmem
    cases hmem
  obtain ⟨h, hn⟩ := not_forall_not.1 hlinked
  obtain ⟨w', hw'⟩ := hs.chained.lookup_of_mem hn
  have hplace : sq ∈ s.loans.bag (.inr w') := by
    show sq ∈ s.loans.lent w'
    rw [lent_of_lookup hw']
    exact Multiset.mem_coe.2 (.tail _ hmem)
  have hqueue : sq ∈ s.loans.bag (.inr w) := by
    show sq ∈ s.loans.lent w
    rw [lent_of_lookup hsq]
    simp
  have hplaces : w' = w := by simpa using hs.sound.spread.unique hplace hqueue
  subst hplaces
  rw [hsq] at hw'
  obtain rfl : sq = n := by simpa using hw'
  have hnodup : (s.loans.lent w').Nodup := hs.sound.spread.nodup (.inr w')
  rw [lent_of_lookup hsq, Multiset.coe_nodup, List.nodup_cons] at hnodup
  exact hnodup.1 hmem

/-- A queue that is linked has a waiter, and one node fewer on its free list than waiters. -/
theorem Inv.length_freeq (hs : s.Inv tokens arrivals) (hsq : sleepqLookup s w = some sq) :
    (s.node sq).sqFreeq.length + 1 = (s.node sq).sqBlocked.length := by
  have hcard := hs.sound.card w
  rw [lent_of_lookup hsq, waiters_of_lookup hsq] at hcard
  simpa using hcard

theorem Inv.lookup_of_wchan (hs : s.Inv tokens arrivals) (hwaits : s.wchan td = some w) :
    ∃ sq, sleepqLookup s w = some sq ∧ td ∈ (s.node sq).sqBlocked := by
  have hmem := (hs.sound.waits_iff td w).1 hwaits
  cases hsq : sleepqLookup s w with
  | none =>
    simp [loans, hsq] at hmem
  | some sq =>
    rw [waiters_of_lookup hsq] at hmem
    exact ⟨sq, rfl, hmem⟩

theorem sleepqDropLoop_eq (tds : List T) (free : List N) (s : Sleepqs T N)
    (hlength : tds.length = free.length) :
    sleepqDropLoop s tds free = .ok { s with
      sleepqueue := (tds.zip free).foldl
        (fun (own : T → Option N) p => Function.update own p.1 (some p.2)) s.sleepqueue
      wchan := (tds.zip free).foldl
        (fun (waits : T → Option Nat) p => Function.update waits p.1 none) s.wchan } := by
  induction tds generalizing s free with
  | nil => rfl
  | cons td tds ih =>
    cases free with
    | nil => cases hlength
    | cons sq free => exact ih free (s.give td sq) (by simpa using hlength)

variable [DecidableEq N]

theorem Inv.node_unlink (hs : s.Inv tokens arrivals) (hsq : sleepqLookup s w = some sq) (n : N) :
    (s.unlink sq).node n = s.node n := by
  have hnot := hs.notMem_freeq hsq n
  unfold unlink
  dsimp only
  rw [List.filter_eq_self.2]
  rintro m hm
  simp only [ne_eq, decide_eq_true_eq]
  rintro rfl
  exact hnot hm

/-- A thread that waits on a channel with a queue lends its node to the free list. -/
theorem Inv.enter_some (hs : s.Inv tokens arrivals) (hown : s.sleepqueue td = some own)
    (hsq : sleepqLookup s w = some sq) (hqueues : s'.scQueues = s.scQueues)
    (hnode : ∀ n, n ≠ sq → s'.node n = s.node n)
    (hqueue : s'.node sq = { s.node sq with
      sqBlocked := (s.node sq).sqBlocked ++ [td], sqFreeq := own :: (s.node sq).sqFreeq })
    (hsleepqueue : s'.sleepqueue = Function.update s.sleepqueue td none)
    (hwchan : s'.wchan = Function.update s.wchan td (some w)) : s'.Inv tokens (arrivals ++ [td]) := by
  have hchannel (n : N) : (s'.node n).sqWchan = (s.node n).sqWchan := by
    by_cases hn : n = sq
    · rw [hn, hqueue]
    · rw [hnode n hn]
  have hlinked := (hs.chained.lookup_eq_some.1 hsq).1
  refine ⟨hs.chained.congr hqueues hchannel fun n hn => hnode n ?_, ?_⟩
  · rintro rfl
    exact hn _ hlinked
  · have hlookup : sleepqLookup s' = Function.update (sleepqLookup s) w (some sq) := by
      rw [← hsq, update_eq_self]
      funext w'
      exact lookup_congr hqueues hchannel
    have hloans : s'.loans = s.loans.wait td w own := by
      rw [loans_eq hlookup fun w' n hw hn => hnode n fun heq =>
        hw (hs.chained.lookup_inj (heq ▸ hn) hsq)]
      apply Loans.ext
      · exact hsleepqueue
      · exact hwchan
      · simp [Loans.wait, lent_of_lookup hsq, hqueue, ← Multiset.cons_coe, Multiset.cons_swap own]
      · simp [Loans.wait, waiters_of_lookup hsq, hqueue]
    rw [hloans]
    exact hs.sound.wait hown

/-- The node of the first thread that waits on a channel becomes its queue. -/
theorem Inv.enter_none (hs : s.Inv tokens arrivals) (hown : s.sleepqueue td = some own)
    (hnone : sleepqLookup s w = none)
    (hqueues : s'.scQueues = Function.update s.scQueues (scHash w) (own :: s.scQueues (scHash w)))
    (hnode : ∀ n, n ≠ own → s'.node n = s.node n)
    (hqueue : s'.node own = { s.node own with
      sqBlocked := (s.node own).sqBlocked ++ [td], sqWchan := some w })
    (hsleepqueue : s'.sleepqueue = Function.update s.sleepqueue td none)
    (hwchan : s'.wchan = Function.update s.wchan td (some w)) : s'.Inv tokens (arrivals ++ [td]) := by
  have hfree := hs.notMem_of_own hown
  have hchannel : (s'.node own).sqWchan = some w := by rw [hqueue]
  have hchained := hs.chained.link hnone hfree hqueues hchannel hnode
  refine ⟨hchained, ?_⟩
  have hlookup := hs.chained.lookup_link hchained hnone hfree hqueues hchannel hnode
  have hloans : s'.loans = s.loans.wait td w own := by
    rw [loans_eq hlookup]
    · obtain ⟨hblocked, hfreeq⟩ := hs.chained.idle own hfree
      apply Loans.ext
      · exact hsleepqueue
      · exact hwchan
      · simp [Loans.wait, loans, hnone, hqueue, hfreeq]
      · simp [Loans.wait, loans, hnone, hqueue, hblocked]
    · intro w' n hw hn
      apply hnode
      rintro rfl
      exact hfree _ (hs.chained.lookup_eq_some.1 hn).1
  rw [hloans]
  exact hs.sound.wait hown

/-- The thread waits on the channel afterwards. -/
theorem sleepqAdd_spec (hs : s.Inv tokens arrivals) (hfree : s.wchan td = none) :
    ∃ s', sleepqAdd s w td = .ok s' ∧ s'.Inv tokens (arrivals ++ [td]) ∧
      s'.wchan = Function.update s.wchan td (some w) := by
  have hsome : s.sleepqueue td ≠ none := by
    intro hnone
    exact (hs.sound.own_iff td).1 hnone hfree
  obtain ⟨own, hown⟩ := Option.ne_none_iff_exists'.1 hsome
  simp only [sleepqAdd, hown, deref, Outcome.ok_bind]
  unfold sleepqEnter
  cases hlookup : sleepqLookup s w with
  | some sq =>
    refine ⟨_, rfl, ?_, rfl⟩
    refine hs.enter_some hown hlookup rfl ?_ ?_ rfl rfl
    · intro n hn
      simp [modify, hn]
    · simp [modify]
  | none =>
    refine ⟨_, rfl, ?_, rfl⟩
    refine hs.enter_none hown hlookup rfl ?_ ?_ rfl rfl
    · intro n hn
      simp [modify, hn]
    · simp [modify]

/-- A thread that does not leave last takes the first node of the free list. -/
theorem Inv.leave_one (hs : s.Inv tokens arrivals) (hsq : sleepqLookup s w = some sq)
    (hmem : td ∈ (s.node sq).sqBlocked) {front : N} {free : List N}
    (hfreeq : (s.node sq).sqFreeq = front :: free) (hqueues : s'.scQueues = s.scQueues)
    (hnode : ∀ n, n ≠ sq → s'.node n = s.node n)
    (hqueue : s'.node sq = { s.node sq with
      sqBlocked := (s.node sq).sqBlocked.erase td, sqFreeq := free })
    (hsleepqueue : s'.sleepqueue = Function.update s.sleepqueue td (some front))
    (hwchan : s'.wchan = Function.update s.wchan td none) : s'.Inv tokens arrivals := by
  have hchannel (n : N) : (s'.node n).sqWchan = (s.node n).sqWchan := by
    by_cases hn : n = sq
    · rw [hn, hqueue]
    · rw [hnode n hn]
  have hlinked := (hs.chained.lookup_eq_some.1 hsq).1
  refine ⟨hs.chained.congr hqueues hchannel fun n hn => hnode n ?_, ?_⟩
  · rintro rfl
    exact hn _ hlinked
  · have hlookup : sleepqLookup s' = Function.update (sleepqLookup s) w (some sq) := by
      rw [← hsq, update_eq_self]
      funext w'
      exact lookup_congr hqueues hchannel
    have hloans : s'.loans = s.loans.leave td w front ↑(sq :: free) := by
      rw [loans_eq hlookup fun w' n hw hn => hnode n fun heq =>
        hw (hs.chained.lookup_inj (heq ▸ hn) hsq)]
      apply Loans.ext
      · exact hsleepqueue
      · exact hwchan
      · simp [Loans.leave, hqueue]
      · simp [Loans.leave, waiters_of_lookup hsq, hqueue]
    rw [hloans]
    refine hs.sound.leave ?_ ?_
    · rwa [waiters_of_lookup hsq]
    · rw [lent_of_lookup hsq, hfreeq]
      simp [← Multiset.cons_coe, Multiset.cons_swap front]

/-- All waiters leave, and the queue is unlinked. -/
theorem Inv.leave_all (hs : s.Inv tokens arrivals) (hsq : sleepqLookup s w = some sq)
    (hqueues : s'.scQueues = fun h => (s.scQueues h).filter (· ≠ sq))
    (hnode : ∀ n, n ≠ sq → s'.node n = s.node n)
    (hempty : (s'.node sq).sqBlocked = [] ∧ (s'.node sq).sqFreeq = []) {pairs : List (T × N)}
    (hblocked : (s.node sq).sqBlocked = pairs.map Prod.fst)
    (hnodes : sq :: (s.node sq).sqFreeq = pairs.map Prod.snd)
    (hsleepqueue : s'.sleepqueue =
      pairs.foldl (fun (own : T → Option N) p => Function.update own p.1 (some p.2)) s.sleepqueue)
    (hwchan : s'.wchan =
      pairs.foldl (fun (waits : T → Option Nat) p => Function.update waits p.1 none) s.wchan) :
    s'.Inv tokens arrivals := by
  have hchained := hs.chained.unlink hqueues hnode hempty
  refine ⟨hchained, ?_⟩
  have hwaiters : s.loans.waiters w = pairs.map Prod.fst := by
    rw [waiters_of_lookup hsq, hblocked]
  have hlent : s.loans.lent w = ↑(pairs.map Prod.snd) := by
    rw [lent_of_lookup hsq, hnodes]
  -- for the loans: every waiter gets back a node, one of them the queue itself
  have hloans : s'.loans = s.loans.leaveAll w pairs := by
    rw [loans_eq (hs.chained.lookup_unlink hchained hsq hqueues hnode)]
    · apply Loans.ext
      · rw [Loans.leaveAll_own]
        exact hsleepqueue
      · rw [Loans.leaveAll_waits]
        exact hwchan
      · rw [Loans.leaveAll_lent hlent]
        rfl
      · rw [Loans.leaveAll_waiters hwaiters]
        rfl
    · intro w' n hw hn
      apply hnode
      rintro rfl
      exact hw (hs.chained.lookup_inj hn hsq)
  rw [hloans]
  exact hs.sound.leaveAll hwaiters hlent

/-- The thread waits no longer, and whether another one does is the result. -/
theorem sleepqRemove_spec (hs : s.Inv tokens arrivals) (hwaits : s.wchan td = some w) :
    ∃ r s', sleepqRemove s (sleepqLookup s w) td = .ok (r, s') ∧ s'.Inv tokens arrivals ∧
      s'.wchan = Function.update s.wchan td none ∧ r = !((s.loans.waiters w).erase td).isEmpty := by
  obtain ⟨sq, hsq, hmem⟩ := hs.lookup_of_wchan hwaits
  have hnodup : (s.node sq).sqBlocked.Nodup := by
    rw [← waiters_of_lookup hsq]
    exact hs.sound.waiters_nodup w
  have hcount : (s.node sq).sqBlocked.count td = 1 := List.count_eq_one_of_mem hnodup hmem
  have hlength := hs.length_freeq hsq
  have hrest := List.length_erase_of_mem hmem
  simp only [sleepqRemove, hsq, hcount, assertMsg, beq_self_eq_true, if_true, Outcome.ok_bind]
  unfold sleepqRestore
  simp only [node_modify_self, ← hnodup.erase_eq_filter]
  rw [waiters_of_lookup hsq]
  cases hleft : (s.node sq).sqBlocked.erase td with
  | nil =>
    -- the last waiter takes the queue itself
    have hone : (s.node sq).sqBlocked.length = 1 := by
      rw [hleft, List.length_nil] at hrest
      have hpos := List.length_pos_of_mem hmem
      omega
    have hblocked : (s.node sq).sqBlocked = [td] := by
      obtain ⟨first, hfirst⟩ := List.length_eq_one_iff.1 hone
      rw [hfirst, List.mem_singleton] at hmem
      rw [hfirst, hmem]
    have hfreeq : (s.node sq).sqFreeq = [] := List.length_eq_zero_iff.1 (by omega)
    have hpairs : (s.node sq).sqBlocked = [(td, sq)].map Prod.fst := hblocked
    refine ⟨_, _, rfl, ?_, rfl, rfl⟩
    refine hs.leave_all hsq rfl ?_ ?_ hpairs ?_ rfl rfl
    · intro n hn
      rw [← hs.node_unlink hsq n]
      simp [unlink, give, modify, hn]
    · simp [unlink, give, modify, hfreeq, ← hnodup.erase_eq_filter, hleft]
    · simp [hfreeq]
  | cons first others =>
    cases hfreeq : (s.node sq).sqFreeq with
    | nil =>
      rw [hleft, List.length_cons] at hrest
      rw [hfreeq, List.length_nil] at hlength
      omega
    | cons front free =>
      refine ⟨_, _, rfl, ?_, rfl, rfl⟩
      -- the thread takes the front of the free list, the queue stays
      refine hs.leave_one hsq hmem hfreeq rfl ?_ ?_ rfl rfl
      · intro n hn
        simp [modify, give, hn]
      · simp [modify, give, ← hnodup.erase_eq_filter, hfreeq]

omit [DecidableEq N] in
theorem foldl_update_none (pairs : List (T × N)) (waits : T → Option Nat) :
    pairs.foldl (fun (waits : T → Option Nat) p => Function.update waits p.1 none) waits =
      fun td => if td ∈ pairs.map Prod.fst then none else waits td := by
  induction pairs generalizing waits with
  | nil => simp
  | cons p pairs ih =>
    funext td
    rw [List.foldl_cons, ih]
    show (if td ∈ pairs.map Prod.fst then none else Function.update waits p.1 none td) =
      if td ∈ p.1 :: pairs.map Prod.fst then none else waits td
    by_cases hmem : td ∈ pairs.map Prod.fst
    · rw [if_pos hmem, if_pos (List.mem_cons_of_mem _ hmem)]
    rw [if_neg hmem]
    by_cases htd : td = p.1
    · rw [htd, update_self, if_pos (List.mem_cons_self ..)]
    · rw [update_of_ne htd, if_neg]
      exact List.not_mem_cons_of_ne_of_not_mem htd hmem

/-- No thread waits in the queue any longer. -/
theorem sleepqDrop_spec (hs : s.Inv tokens arrivals) (sq : N) :
    ∃ s', sleepqDrop s sq = .ok ((s.node sq).sqBlocked, s') ∧ s'.Inv tokens arrivals ∧
      s'.wchan = fun td => if td ∈ (s.node sq).sqBlocked then none else s.wchan td := by
  unfold sleepqDrop
  cases hblocked : (s.node sq).sqBlocked with
  | nil => exact ⟨s, rfl, hs, by simp⟩
  | cons td tds =>
    -- a queue with waiters is linked
    have hlinked : ¬∀ h, sq ∉ s.scQueues h := by
      intro hnot
      rw [(hs.chained.idle sq hnot).1] at hblocked
      cases hblocked
    obtain ⟨h, hmem⟩ := not_forall_not.1 hlinked
    obtain ⟨w, hsq⟩ := hs.chained.lookup_of_mem hmem
    have hlength : tds.length = (s.node sq).sqFreeq.length := by
      have hsize := hs.length_freeq hsq
      rw [hblocked, List.length_cons] at hsize
      omega
    have hfreeq : (((s.unlink sq).give td sq).node sq).sqFreeq = (s.node sq).sqFreeq := by
      show ((s.unlink sq).node sq).sqFreeq = _
      rw [hs.node_unlink hsq]
    dsimp only
    rw [hfreeq, sleepqDropLoop_eq _ _ _ hlength]
    -- the first waiter gets the queue, the others one free node each
    have hpairs : (s.node sq).sqBlocked =
        ((td, sq) :: tds.zip (s.node sq).sqFreeq).map Prod.fst := by
      rw [hblocked, List.map_cons, List.map_fst_zip hlength.le]
    refine ⟨_, rfl, hs.leave_all hsq rfl ?_ ?_ hpairs ?_ rfl rfl, ?_⟩
    · intro n hn
      rw [← hs.node_unlink hsq n]
      simp [unlink, give, modify, hn]
    · simp [modify]
    · rw [List.map_cons, List.map_snd_zip hlength.ge]
    · rw [← hblocked, hpairs]
      exact foldl_update_none ((td, sq) :: tds.zip (s.node sq).sqFreeq) s.wchan

/-! ## Runs -/

/-- No thread waits, and each has its own node. -/
def start (own : T → N) : Sleepqs T N where
  scQueues := fun _ => []
  node := fun _ => {}
  sleepqueue := fun td => some (own td)
  wchan := fun _ => none

omit [DecidableEq N] in
theorem inv_start {own : T → N} (hown : Function.Injective own) : (start own).Inv (Set.range own) [] where
  chained := {
    hash := by
      intro h sq hmem
      cases hmem
    one := fun _ => List.nodup_nil
    idle := fun _ _ => ⟨rfl, rfl⟩ }
  sound := {
    spread := {
      nodup := by
        rintro (td | w)
        · exact Multiset.nodup_singleton _
        · exact Multiset.nodup_zero
      unique := by
        rintro n (td | w) (td' | w') hn hn'
        · have htd : n = own td := Multiset.mem_singleton.1 hn
          have htd' : n = own td' := Multiset.mem_singleton.1 hn'
          rw [hown (htd.symm.trans htd')]
        · cases Multiset.notMem_zero n hn'
        · cases Multiset.notMem_zero n hn
        · cases Multiset.notMem_zero n hn
      complete := by
        intro n
        constructor
        · rintro ⟨td, rfl⟩
          exact ⟨.inl td, Multiset.mem_singleton_self _⟩
        · rintro ⟨td | w, hn⟩
          · exact ⟨td, (Multiset.mem_singleton.1 hn).symm⟩
          · cases Multiset.notMem_zero n hn }
    own_iff := by
      intro td
      simp [loans, start]
    waits_iff := by
      intro td w
      simp [loans, start, sleepqLookup]
    card := fun _ => rfl
    ordered := fun _ => List.nil_sublist _ }

end Sleepqs

inductive SleepqCall (T N : Type) where
  | add (wchan : Nat) (td : T)
  | remove (sq : Option N) (td : T)
  | drop (sq : N)

section

variable [DecidableEq T] [DecidableEq N]

/-- A call, with the thread that starts to wait in it. -/
def SleepqCall.run (s : Sleepqs T N) : SleepqCall T N → Outcome (Sleepqs T N × List T)
  | .add wchan td => do
    let s ← sleepqAdd s wchan td
    return (s, [td])
  | .remove sq td => do
    let (_, s) ← sleepqRemove s sq td
    return (s, [])
  | .drop sq => do
    let (_, s) ← sleepqDrop s sq
    return (s, [])

def SleepqCall.step (s : Sleepqs T N) (call : SleepqCall T N) : Option (Sleepqs T N × List T) :=
  (call.run s).toOption

/-- A thread is added when it does not wait, and removed from the queue that it waits in. -/
def SleepqCall.Allowed (s : Sleepqs T N) : SleepqCall T N → Prop
  | .add _ td => s.wchan td = none
  | .remove sq td => s.wchan td ≠ none ∧ sq = (s.wchan td).bind (sleepqLookup s)
  | .drop _ => True

/-- A thread that is added waits on the channel afterwards, those that leave do not wait, and the
others wait as before. -/
def SleepqCall.Moves (s s' : Sleepqs T N) : SleepqCall T N → Prop
  | .add wchan td => s'.wchan = Function.update s.wchan td (some wchan)
  | .remove _ td => s'.wchan = Function.update s.wchan td none
  | .drop sq => s'.wchan = fun td => if td ∈ (s.node sq).sqBlocked then none else s.wchan td

instance (s : Sleepqs T N) : ∀ call : SleepqCall T N, Decidable (call.Allowed s)
  | .add _ td => inferInstanceAs (Decidable (s.wchan td = none))
  | .remove sq td =>
    inferInstanceAs (Decidable (s.wchan td ≠ none ∧ sq = (s.wchan td).bind (sleepqLookup s)))
  | .drop _ => inferInstanceAs (Decidable True)

end

namespace Sleepqs

/-- What the queues look like between the calls: where the nodes `tokens` are after the threads have
come in the order of `arrivals`. -/
structure Conserved [DecidableEq T] (tokens : Set N) (arrivals : List T) (s : Sleepqs T N) : Prop where
  /-- A channel has one linked queue at most. -/
  unique {h h' : Nat} {sq sq' : N} : sq ∈ s.scQueues h → sq' ∈ s.scQueues h' →
    (s.node sq).sqWchan = (s.node sq').sqWchan → h = h' ∧ sq = sq'
  once (h : Nat) : (s.scQueues h).Nodup
  size {h : Nat} {sq : N} : sq ∈ s.scQueues h →
    (s.node sq).sqBlocked ≠ [] ∧ (s.node sq).sqFreeq.length = (s.node sq).sqBlocked.length - 1
  ordered {h : Nat} {sq : N} : sq ∈ s.scQueues h →
    (s.node sq).sqBlocked.Sublist (lastArrivals arrivals)
  idle (sq : N) : (∀ h, sq ∉ s.scQueues h) → (s.node sq).sqBlocked = [] ∧ (s.node sq).sqFreeq = []
  waits_iff (td : T) (w : Nat) :
    s.wchan td = some w ↔ ∃ sq, sleepqLookup s w = some sq ∧ td ∈ (s.node sq).sqBlocked
  /-- A thread has one node while its `wchan` is null, and none while it waits. -/
  own_iff (td : T) : s.sleepqueue td = none ↔ s.wchan td ≠ none
  /-- A node is with one thread, or in one queue that is linked or the free list of it. -/
  spread : Spread tokens s.loans.bag

variable [DecidableEq T] {tokens : Set N} {arrivals : List T} {s s' : Sleepqs T N}

theorem Inv.conserved (hs : s.Inv tokens arrivals) : s.Conserved tokens arrivals where
  unique := by
    intro h h' sq sq' hsq hsq' heq
    obtain ⟨w, hw, rfl⟩ := hs.chained.hash hsq
    obtain ⟨w', hw', rfl⟩ := hs.chained.hash hsq'
    obtain rfl : w = w' := by
      rw [hw, hw'] at heq
      simpa using heq
    exact ⟨rfl, hs.chained.eq_of_wchan hsq hsq' heq⟩
  once := fun h => (hs.chained.one h).of_map _
  size := by
    intro h sq hsq
    obtain ⟨w, hw⟩ := hs.chained.lookup_of_mem hsq
    have hlength := hs.length_freeq hw
    refine ⟨?_, by omega⟩
    intro hnil
    rw [hnil] at hlength
    cases hlength
  ordered := by
    intro h sq hsq
    obtain ⟨w, hw⟩ := hs.chained.lookup_of_mem hsq
    rw [← waiters_of_lookup hw]
    exact hs.sound.ordered w
  idle := hs.chained.idle
  waits_iff := by
    intro td w
    constructor
    · exact hs.lookup_of_wchan
    · rintro ⟨sq, hsq, hmem⟩
      refine (hs.sound.waits_iff td w).2 ?_
      rwa [waiters_of_lookup hsq]
  own_iff := hs.sound.own_iff
  spread := hs.sound.spread

variable [DecidableEq N]

/-- A call that is allowed does not fail, and the nodes stay in order. -/
theorem Inv.run (hs : s.Inv tokens arrivals) {call : SleepqCall T N} (hallowed : call.Allowed s) :
    ∃ s' es, call.run s = .ok (s', es) ∧ s'.Inv tokens (arrivals ++ es) ∧ call.Moves s s' := by
  cases call with
  | add wchan td =>
    obtain ⟨s', hrun, hs', hmoves⟩ := sleepqAdd_spec (w := wchan) hs hallowed
    exact ⟨s', [td], by rw [SleepqCall.run, hrun]; rfl, hs', hmoves⟩
  | remove sq td =>
    obtain ⟨hwaits, rfl⟩ := hallowed
    obtain ⟨w, hw⟩ := Option.ne_none_iff_exists'.1 hwaits
    obtain ⟨r, s', hrun, hs', hmoves, -⟩ := sleepqRemove_spec hs hw
    refine ⟨s', [], ?_, by rwa [List.append_nil], hmoves⟩
    rw [SleepqCall.run, hw, Option.bind_some, hrun]
    rfl
  | drop sq =>
    obtain ⟨s', hrun, hs', hmoves⟩ := sleepqDrop_spec hs sq
    exact ⟨s', [], by rw [SleepqCall.run, hrun]; rfl, by rwa [List.append_nil], hmoves⟩

theorem inv_of_reaches {own : T → N} (hown : Function.Injective own)
    (hreach : Reaches SleepqCall.step (fun s call => call.Allowed s) (start own) s arrivals) :
    s.Inv (Set.range own) arrivals := by
  refine Reaches.invariant (P := fun s arrivals => s.Inv (Set.range own) arrivals)
    (inv_start hown) ?_ hreach
  intro s arrivals call s' es hs hallowed hstep
  obtain ⟨s'', es', hrun, hs'', -⟩ := hs.run hallowed
  rw [SleepqCall.step, hrun] at hstep
  obtain ⟨rfl, rfl⟩ : s'' = s' ∧ es' = es := by simpa [Except.toOption] using hstep
  exact hs''

end Sleepqs

/-- After every run the nodes are where they belong, and a call that is allowed does not fail and
moves the threads that it is about. -/
theorem sleepq_conserves [DecidableEq T] [DecidableEq N] (own : T → N)
    (hown : Function.Injective own) (s : Sleepqs T N) (arrivals : List T)
    (hreach : Reaches SleepqCall.step (fun s call => call.Allowed s) (Sleepqs.start own) s arrivals) :
    s.Conserved (Set.range own) arrivals ∧
      ∀ call : SleepqCall T N, call.Allowed s → ∃ r, call.run s = .ok r ∧ call.Moves s r.1 := by
  have hs := Sleepqs.inv_of_reaches hown hreach
  refine ⟨hs.conserved, ?_⟩
  intro call hallowed
  obtain ⟨s', es, hrun, -, hmoves⟩ := hs.run hallowed
  exact ⟨_, hrun, hmoves⟩

/-- Two threads wait on one channel, and the first of them leaves first. -/
def swapped : List (SleepqCall Nat Nat) :=
  [.add 0x1000 1, .add 0x1000 2, .add 0x2000 3, .remove (some 1) 1, .drop 3]

/-- The thread that left has the node of the one that still waits. -/
theorem sleepq_conserves_swapped : ∃ (s : Sleepqs Nat Nat) (arrivals : List Nat),
    runAllowed SleepqCall.step (fun s call => SleepqCall.Allowed s call) (Sleepqs.start id) [] swapped
      = some (s, arrivals) ∧
    arrivals = [1, 2, 3] ∧ s.sleepqueue 1 = some 2 ∧ s.wchan 2 = some 0x1000 ∧ s.sleepqueue 3 = some 3 ∧
    s.Conserved (Set.range id) arrivals ∧
      ∀ call : SleepqCall Nat Nat, call.Allowed s → ∃ r, call.run s = .ok r ∧ call.Moves s r.1 := by
  have hrun : (match runAllowed SleepqCall.step (fun s call => SleepqCall.Allowed s call)
        (Sleepqs.start id) [] swapped with
      | some (s, arrivals) => decide (arrivals = [1, 2, 3] ∧ s.sleepqueue 1 = some 2 ∧
          s.wchan 2 = some 0x1000 ∧ s.sleepqueue 3 = some 3)
      | none => false) = true := by decide
  split at hrun
  · next s arrivals heq =>
    obtain ⟨harrivals, hfirst, hsecond, hthird⟩ := of_decide_eq_true hrun
    exact ⟨s, arrivals, heq, harrivals, hfirst, hsecond, hthird,
      sleepq_conserves id Function.injective_id s arrivals (Reaches.of_runAllowed .start heq)⟩
  · cases hrun

end Kernel
