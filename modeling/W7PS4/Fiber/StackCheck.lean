-- SUMMARY: The size check of fiber stacks: the pattern that fills a stack, and when `sceFiberGetInfo` gets to the end of it.
import W7PS4.Lib.Machine
import W7PS4.Lib.Reaches

/-!
# The stack check of fibers

A stack that is to be checked is filled with a pattern above the signature in its first word, and
`sceFiberGetInfo` measures how far the pattern still goes. The fill is written in
`sceFiberInitializeImpl` and in `_sceFiberAttachContext`.

Pointers and sizes are natural numbers, and 0 is the null pointer. A stack lies in memory as a
whole and does not overlap the fiber. The memory holds a word at every address that is a multiple
of 8.
-/

namespace Fiber

def kFiberSignature0 : UInt32 := 0xdef1649c
def kFiberSignature1 : UInt32 := 0xb37592a0
def kFiberOptSignature : UInt32 := 0xbb40e64d
def kFiberStackSignature : UInt64 := 0x7149f2ca7149f2ca
def kFiberStackSizeCheck : UInt64 := 0xdeadbeefdeadbeef

def orbisOk : Int := 0
def orbisFiberErrorNull : Int := 0x80590001 - 2 ^ 32
def orbisFiberErrorAlignment : Int := 0x80590002 - 2 ^ 32
def orbisFiberErrorRange : Int := 0x80590003 - 2 ^ 32
def orbisFiberErrorInvalid : Int := 0x80590004 - 2 ^ 32
def orbisFiberErrorPermission : Int := 0x80590005 - 2 ^ 32
def orbisFiberErrorState : Int := 0x80590006 - 2 ^ 32

def orbisFiberMaxNameLength : Nat := 31
def orbisFiberContextMinimumSize : Nat := 512

def fw350 : UInt32 := 0x3500000

inductive FiberState where
  | run
  | idle
  | terminated
deriving DecidableEq, Repr

namespace FiberFlags

def contextSizeCheck : UInt32 := 0x10
def setFpuRegs : UInt32 := 0x100

end FiberFlags

structure OrbisFiber where
  magicStart : UInt32
  state : FiberState
  entry : Nat
  argOnInitialize : UInt64
  addrContext : Nat
  sizeContext : Nat
  name : List UInt8
  context : Nat
  flags : UInt32
  contextStart : Nat
  contextEnd : Nat
  magicEnd : UInt32

structure OrbisFiberInfo where
  size : Nat
  entry : Nat
  argOnInitialize : UInt64
  addrContext : Nat
  sizeContext : Nat
  name : List UInt8
  sizeContextMargin : Nat

/-- `sizeof(OrbisFiberInfo)` -/
def orbisFiberInfoSize : Nat := 128

structure OrbisFiberOptParam where
  ptr : Nat
  magic : UInt32

/-- The flag of the library, the memory and the fiber. -/
structure FiberSys where
  contextSizeCheck : UInt32
  mem : Nat → UInt64
  fiber : OrbisFiber

/-- Exactly `n` bytes are written: those of `src`, which ends before its null, and nulls. -/
def strncpy (dst src : List UInt8) (n : Nat) : List UInt8 :=
  src.take n ++ List.replicate (n - src.length) 0 ++ dst.drop n

/-! ## The loops over a stack -/

def fillCheck (mem : Nat → UInt64) (stackPtr stackEnd : Nat) : Nat → UInt64 :=
  if stackPtr < stackEnd then
    fillCheck (Function.update mem stackPtr kFiberStackSizeCheck) (stackPtr + 8) stackEnd
  else mem
termination_by stackEnd - stackPtr

/-- The pointer only moves on from a word that holds the pattern. -/
def scanCheck (mem : Nat → UInt64) (stackPtr stackEnd : Nat) : Outcome Nat :=
  if stackPtr < stackEnd then
    if mem stackPtr = kFiberStackSizeCheck then scanCheck mem (stackPtr + 8) stackEnd
    else .error .diverges
  else .ok stackPtr
termination_by stackEnd - stackPtr

/-! ## The functions of the library -/

/-- Give the stack its signature, and fill it if `check`. -/
def prepareStack (mem : Nat → UInt64) (addrContext sizeContext : Nat) (check : Bool) :
    Nat → UInt64 :=
  let mem := Function.update mem addrContext kFiberStackSignature
  if check then fillCheck mem (addrContext + 8) (addrContext + sizeContext) else mem

def attachContext (s : FiberSys) (addrContext sizeContext : Nat) : FiberSys :=
  let check := s.fiber.flags &&& FiberFlags.contextSizeCheck != 0
  { s with
    fiber := { s.fiber with
      addrContext, sizeContext
      contextStart := addrContext
      contextEnd := addrContext + sizeContext }
    mem := prepareStack s.mem addrContext sizeContext check }

def sceFiberAttachContext (s : FiberSys) (addrContext sizeContext : Nat) : Int × FiberSys :=
  if sizeContext ≠ 0 ∧ sizeContext < orbisFiberContextMinimumSize then (orbisFiberErrorRange, s)
  else if sizeContext &&& 15 ≠ 0 then (orbisFiberErrorInvalid, s)
  else if addrContext = 0 ∨ sizeContext = 0 then (orbisFiberErrorInvalid, s)
  else if s.fiber.addrContext ≠ 0 then (orbisFiberErrorInvalid, s)
  else (orbisOk, attachContext s addrContext sizeContext)

structure InitializeArgs where
  name : Option (List UInt8)
  entry : Nat
  argOnInitialize : UInt64
  addrContext : Nat
  sizeContext : Nat
  optParam : Option OrbisFiberOptParam
  flags : UInt32
  buildVer : UInt32

/-- The checks of the arguments, in order. -/
def initializeError (fiber : Nat) (a : InitializeArgs) : Option Int :=
  if fiber = 0 ∨ a.name = none ∨ a.entry = 0 then some orbisFiberErrorNull
  else if fiber &&& 7 ≠ 0 ∨ a.addrContext &&& 15 ≠ 0 then some orbisFiberErrorAlignment
  else if a.optParam.any (fun p => p.ptr &&& 7 ≠ 0) then some orbisFiberErrorAlignment
  else if a.sizeContext ≠ 0 ∧ a.sizeContext < orbisFiberContextMinimumSize then some orbisFiberErrorRange
  else if a.sizeContext &&& 15 ≠ 0 then some orbisFiberErrorInvalid
  else if a.addrContext = 0 ∧ a.sizeContext ≠ 0 then some orbisFiberErrorInvalid
  else if a.addrContext ≠ 0 ∧ a.sizeContext = 0 then some orbisFiberErrorInvalid
  else if a.optParam.any (fun p => p.magic ≠ kFiberOptSignature) then some orbisFiberErrorInvalid
  else none

/-- `user_flags` -/
def userFlags (contextSizeCheck : UInt32) (a : InitializeArgs) : UInt32 :=
  let flags := if fw350 ≤ a.buildVer then a.flags ||| FiberFlags.setFpuRegs else a.flags
  if contextSizeCheck ≠ 0 then flags ||| FiberFlags.contextSizeCheck else flags

def initializedFiber (s : FiberSys) (a : InitializeArgs) : OrbisFiber :=
  { magicStart := kFiberSignature0
    state := .idle
    entry := a.entry
    argOnInitialize := a.argOnInitialize
    addrContext := a.addrContext
    sizeContext := a.sizeContext
    name := strncpy s.fiber.name (a.name.getD []) orbisFiberMaxNameLength
    context := 0
    flags := userFlags s.contextSizeCheck a
    contextStart := if a.addrContext ≠ 0 then a.addrContext else s.fiber.contextStart
    contextEnd := if a.addrContext ≠ 0 then a.addrContext + a.sizeContext else s.fiber.contextEnd
    magicEnd := kFiberSignature1 }

def sceFiberInitializeImpl (s : FiberSys) (fiber : Nat) (a : InitializeArgs) : Int × FiberSys :=
  match initializeError fiber a with
  | some error => (error, s)
  | none =>
    -- The stack is filled if the argument has the flag. `user_flags` is not asked.
    let check := a.flags &&& FiberFlags.contextSizeCheck != 0
    let mem := if a.addrContext ≠ 0 then prepareStack s.mem a.addrContext a.sizeContext check else s.mem
    (orbisOk, { s with fiber := initializedFiber s a, mem })

def OrbisFiber.hasMagic (fiber : OrbisFiber) : Prop :=
  fiber.magicStart = kFiberSignature0 ∧ fiber.magicEnd = kFiberSignature1

instance (fiber : OrbisFiber) : Decidable fiber.hasMagic := inferInstanceAs (Decidable (_ ∧ _))

def FiberSys.withState (s : FiberSys) (state : FiberState) : FiberSys :=
  { s with fiber := { s.fiber with state } }

/-- What `sceFiberRunImpl` and `sceFiberSwitchImpl` do before the fiber gets to run. -/
def enterFiber (permitted : Bool) (s : FiberSys) (fiber addrContext sizeContext : Nat) :
    Int × FiberSys :=
  if fiber = 0 then (orbisFiberErrorNull, s)
  else if fiber &&& 7 ≠ 0 ∨ addrContext &&& 15 ≠ 0 then (orbisFiberErrorAlignment, s)
  else if ¬s.fiber.hasMagic then (orbisFiberErrorInvalid, s)
  else if !permitted then (orbisFiberErrorPermission, s)
  else
    let (res, s) :=
      if addrContext ≠ 0 ∨ sizeContext ≠ 0 then sceFiberAttachContext s addrContext sizeContext
      else (orbisOk, s)
    if res < 0 then (res, s)
    else if s.fiber.state ≠ .idle then (orbisFiberErrorState, s)
    else (orbisOk, s.withState .run)

/-- `tcbFiber` says whether the thread runs a fiber. -/
def sceFiberRunImpl (tcbFiber : Bool) (s : FiberSys) (fiber addrContext sizeContext : Nat) :
    Int × FiberSys :=
  enterFiber (!tcbFiber) s fiber addrContext sizeContext

def sceFiberSwitchImpl (tcbFiber : Bool) (s : FiberSys) (fiber addrContext sizeContext : Nat) :
    Int × FiberSys :=
  enterFiber tcbFiber s fiber addrContext sizeContext

/-- `size_context_margin`, which is -1 as a `u64` where there is nothing to measure. -/
def contextMargin (s : FiberSys) : Outcome Nat :=
  if s.fiber.flags &&& FiberFlags.contextSizeCheck ≠ 0 ∧ s.fiber.addrContext ≠ 0 then
    if s.mem s.fiber.contextStart = kFiberStackSignature then do
      let stackPtr ← scanCheck s.mem (s.fiber.contextStart + 8) s.fiber.contextEnd
      return stackPtr - (s.fiber.contextStart + 8)
    else return 0
  else return 2 ^ 64 - 1

def sceFiberGetInfo (s : FiberSys) (fiber fiberInfo : Nat) (info : OrbisFiberInfo) :
    Outcome (Int × OrbisFiberInfo) :=
  if fiber = 0 ∨ fiberInfo = 0 then return (orbisFiberErrorNull, info)
  else if fiber &&& 7 ≠ 0 ∨ fiberInfo &&& 7 ≠ 0 then return (orbisFiberErrorAlignment, info)
  else if info.size ≠ orbisFiberInfoSize then return (orbisFiberErrorInvalid, info)
  else if ¬s.fiber.hasMagic then return (orbisFiberErrorInvalid, info)
  else do
    let margin ← contextMargin s
    return (orbisOk, { info with
      entry := s.fiber.entry
      argOnInitialize := s.fiber.argOnInitialize
      addrContext := s.fiber.addrContext
      sizeContext := s.fiber.sizeContext
      name := strncpy info.name s.fiber.name orbisFiberMaxNameLength
      sizeContextMargin := margin })

def sceFiberStartContextSizeCheck (s : FiberSys) (flags : UInt32) : Int × FiberSys :=
  if flags ≠ 0 then (orbisFiberErrorInvalid, s)
  else if s.contextSizeCheck ≠ 0 then (orbisFiberErrorState, s)
  else (orbisOk, { s with contextSizeCheck := 1 })

def sceFiberStopContextSizeCheck (s : FiberSys) : Int × FiberSys :=
  if s.contextSizeCheck ≠ 1 then (orbisFiberErrorState, s)
  else (orbisOk, { s with contextSizeCheck := 0 })

/-! ## What the loops do -/

variable {mem : Nat → UInt64} {stackPtr stackEnd addr size : Nat}

theorem fillCheck_of_lt (mem : Nat → UInt64) (haddr : addr < stackPtr) :
    fillCheck mem stackPtr stackEnd addr = mem addr := by
  fun_induction fillCheck mem stackPtr stackEnd with
  | case1 mem stackPtr hlt ih =>
    rw [ih (by omega), Function.update_of_ne (by omega)]
  | case2 => rfl

theorem fillCheck_word (n : Nat) : ∀ (mem : Nat → UInt64) (stackPtr i : Nat), i < n →
    fillCheck mem stackPtr (stackPtr + 8 * n) (stackPtr + 8 * i) = kFiberStackSizeCheck := by
  induction n with
  | zero =>
    intro mem stackPtr i hi
    omega
  | succ n ih =>
    intro mem stackPtr i hi
    rw [fillCheck, if_pos (by omega)]
    cases i with
    | zero =>
      rw [fillCheck_of_lt _ (by omega)]
      exact Function.update_self ..
    | succ i =>
      have hrest := ih (Function.update mem stackPtr kFiberStackSizeCheck) (stackPtr + 8) i (by omega)
      have hend : stackPtr + 8 + 8 * n = stackPtr + 8 * (n + 1) := by omega
      have hword : stackPtr + 8 + 8 * i = stackPtr + 8 * (i + 1) := by omega
      rwa [hend, hword] at hrest

/-- The scan gets to the end if no word has been overwritten. -/
theorem scanCheck_eq_ok (n : Nat) : ∀ (stackPtr : Nat) {r : Nat},
    scanCheck mem stackPtr (stackPtr + 8 * n) = .ok r ↔
      (∀ i < n, mem (stackPtr + 8 * i) = kFiberStackSizeCheck) ∧ r = stackPtr + 8 * n := by
  induction n with
  | zero =>
    intro stackPtr r
    rw [scanCheck, if_neg (by omega)]
    simp [eq_comm]
  | succ n ih =>
    intro stackPtr r
    have hend : stackPtr + 8 * (n + 1) = stackPtr + 8 + 8 * n := by omega
    rw [scanCheck, if_pos (by omega), hend]
    have hwords : (∀ i < n + 1, mem (stackPtr + 8 * i) = kFiberStackSizeCheck) ↔
        mem stackPtr = kFiberStackSizeCheck ∧
          ∀ i < n, mem (stackPtr + 8 + 8 * i) = kFiberStackSizeCheck := by
      rw [Nat.forall_lt_succ_left]
      refine and_congr Iff.rfl (forall₂_congr fun i _ => ?_)
      rw [show stackPtr + 8 * (i + 1) = stackPtr + 8 + 8 * i by omega]
    rw [hwords]
    by_cases hfirst : mem stackPtr = kFiberStackSizeCheck
    · rw [if_pos hfirst, ih]
      simp [hfirst]
    · rw [if_neg hfirst]
      simp [hfirst]

/-- The words of a stack above the one with the signature. -/
def stackWords (mem : Nat → UInt64) (addr size : Nat) : List UInt64 :=
  (List.range ((size - 8) / 8)).map fun i => mem (addr + 8 + 8 * i)

/-- All words of the stack above the signature hold the pattern. -/
def Untouched (mem : Nat → UInt64) (addr size : Nat) : Prop :=
  ∀ word ∈ stackWords mem addr size, word = kFiberStackSizeCheck

/-- How many of the words above the signature still hold the pattern, before the first that does not. -/
def checkedWords (mem : Nat → UInt64) (addr size : Nat) : Nat :=
  ((stackWords mem addr size).takeWhile (· == kFiberStackSizeCheck)).length

/-- A size that `sceFiberInitializeImpl` and `_sceFiberAttachContext` take. -/
def SizeOk (size : Nat) : Prop := orbisFiberContextMinimumSize ≤ size ∧ size % 16 = 0

theorem untouched_iff : Untouched mem addr size ↔
    ∀ i < (size - 8) / 8, mem (addr + 8 + 8 * i) = kFiberStackSizeCheck := by
  simp [Untouched, stackWords]

theorem SizeOk.end_eq (hsize : SizeOk size) (addr : Nat) : addr + size = addr + 8 + 8 * ((size - 8) / 8) := by
  obtain ⟨hmin, hmod⟩ := hsize
  unfold orbisFiberContextMinimumSize at hmin
  omega

theorem SizeOk.pos (hsize : SizeOk size) : size ≠ 0 := by
  obtain ⟨hmin, -⟩ := hsize
  unfold orbisFiberContextMinimumSize at hmin
  omega

/-- On an untouched stack all words count. -/
theorem Untouched.checkedWords (hsize : SizeOk size) (h : Untouched mem addr size) :
    8 * checkedWords mem addr size = size - 8 := by
  have hall : (stackWords mem addr size).takeWhile (· == kFiberStackSizeCheck)
      = stackWords mem addr size := by
    rw [List.takeWhile_eq_self_iff]
    intro word hword
    simpa using h word hword
  have hend := hsize.end_eq 0
  have hpos := hsize.pos
  unfold Fiber.checkedWords
  rw [hall, stackWords, List.length_map, List.length_range]
  omega

theorem prepareStack_signature (check : Bool) :
    prepareStack mem addr size check addr = kFiberStackSignature := by
  unfold prepareStack
  cases check with
  | true =>
    rw [if_pos rfl, fillCheck_of_lt _ (by omega)]
    exact Function.update_self ..
  | false =>
    rw [if_neg (by decide)]
    exact Function.update_self ..

variable (mem addr) in
/-- A prepared stack is untouched if it has been filled, or if the memory has been so before. -/
theorem untouched_prepareStack (hsize : SizeOk size) (check : Bool) :
    Untouched (prepareStack mem addr size check) addr size ↔ check = true ∨ Untouched mem addr size := by
  unfold prepareStack
  cases check with
  | true =>
    rw [if_pos rfl, hsize.end_eq, untouched_iff]
    simp only [true_or, iff_true]
    intro i hi
    exact fillCheck_word _ _ _ _ hi
  | false =>
    rw [if_neg (by decide), untouched_iff, untouched_iff]
    simp only [Bool.false_eq_true, false_or]
    refine forall₂_congr fun i _ => ?_
    rw [Function.update_of_ne (by omega)]

/-! ## What a fiber with a context looks like -/

/-- A fiber with the signatures is at a good address, and its context is one that the checks of the
arguments let through. -/
structure FiberSys.Valid (fiber : Nat) (s : FiberSys) : Prop where
  address : s.fiber.hasMagic → fiber ≠ 0 ∧ fiber &&& 7 = 0
  context : s.fiber.hasMagic → s.fiber.addrContext ≠ 0 →
    s.fiber.contextStart = s.fiber.addrContext ∧
      s.fiber.contextEnd = s.fiber.addrContext + s.fiber.sizeContext ∧ SizeOk s.fiber.sizeContext

variable {s s' : FiberSys} {fiber : Nat} {a : InitializeArgs} {res : Int}

theorem sizeOk_of_checks (hpos : size ≠ 0) (hmin : ¬(size ≠ 0 ∧ size < orbisFiberContextMinimumSize))
    (hmask : ¬size &&& 15 ≠ 0) : SizeOk size := by
  have hmod : size &&& 2 ^ 4 - 1 = size % 2 ^ 4 := Nat.and_two_pow_sub_one_eq_mod size 4
  rw [not_not] at hmask
  refine ⟨not_lt.1 fun hlt => hmin ⟨hpos, hlt⟩, ?_⟩
  exact hmod.symm.trans hmask

theorem sceFiberAttachContext_cases (s : FiberSys) (addr size : Nat) :
    (sceFiberAttachContext s addr size).1 < 0 ∧ (sceFiberAttachContext s addr size).2 = s ∨
      sceFiberAttachContext s addr size = (orbisOk, attachContext s addr size) ∧
        addr ≠ 0 ∧ SizeOk size ∧ s.fiber.addrContext = 0 := by
  have hrange : orbisFiberErrorRange < 0 := by decide
  have hinvalid : orbisFiberErrorInvalid < 0 := by decide
  unfold sceFiberAttachContext
  split
  · exact .inl ⟨hrange, rfl⟩
  next hmin =>
  split
  · exact .inl ⟨hinvalid, rfl⟩
  next hmask =>
  split
  · exact .inl ⟨hinvalid, rfl⟩
  next hnull =>
  split
  · exact .inl ⟨hinvalid, rfl⟩
  next hfree =>
  rw [not_or] at hnull
  exact .inr ⟨rfl, hnull.1, sizeOk_of_checks hnull.2 hmin hmask, not_not.1 hfree⟩

/-- A fiber that is entered keeps what it has, or gets a context. -/
theorem enterFiber_cases (permitted : Bool) (s : FiberSys) (fiber addr size : Nat) :
    ∃ state, (enterFiber permitted s fiber addr size).2 = s.withState state ∨
      (enterFiber permitted s fiber addr size).2 = (attachContext s addr size).withState state ∧
        s.fiber.hasMagic ∧ addr ≠ 0 ∧ SizeOk size ∧ s.fiber.addrContext = 0 := by
  have hsame : s = s.withState s.fiber.state := rfl
  unfold enterFiber
  split
  · exact ⟨_, .inl hsame⟩
  split
  · exact ⟨_, .inl hsame⟩
  split
  · exact ⟨_, .inl hsame⟩
  next hmagic =>
  split
  · exact ⟨_, .inl hsame⟩
  by_cases hgiven : addr ≠ 0 ∨ size ≠ 0
  · rw [if_pos hgiven]
    rcases sceFiberAttachContext_cases s addr size with ⟨hneg, hsame'⟩ | ⟨hok, haddr, hsize, hfree⟩
    · dsimp only
      rw [if_pos hneg, hsame']
      exact ⟨_, .inl hsame⟩
    · rw [hok]
      dsimp only
      rw [if_neg (by decide)]
      split
      · exact ⟨_, .inr ⟨rfl, not_not.1 hmagic, haddr, hsize, hfree⟩⟩
      · exact ⟨_, .inr ⟨rfl, not_not.1 hmagic, haddr, hsize, hfree⟩⟩
  · rw [if_neg hgiven]
    dsimp only
    rw [if_neg (by decide)]
    split
    · exact ⟨_, .inl hsame⟩
    · exact ⟨_, .inl rfl⟩

theorem initializeError_eq_none (h : initializeError fiber a = none) :
    fiber ≠ 0 ∧ fiber &&& 7 = 0 ∧ (a.addrContext ≠ 0 → SizeOk a.sizeContext) := by
  unfold initializeError at h
  split at h
  · cases h
  next hnull =>
  split at h
  · cases h
  next halign =>
  split at h
  · cases h
  split at h
  · cases h
  next hmin =>
  split at h
  · cases h
  next hmask =>
  split at h
  · cases h
  split at h
  · cases h
  next hboth =>
  rw [not_or] at hnull halign
  refine ⟨hnull.1, not_not.1 halign.1, ?_⟩
  intro haddr
  exact sizeOk_of_checks (fun hsize => hboth ⟨haddr, hsize⟩) hmin hmask

theorem initializeError_neg (h : initializeError fiber a = some res) : res < 0 := by
  unfold initializeError at h
  split_ifs at h
  all_goals
    cases h
    decide

/-- `initializeImpl` fails and changes nothing, or it sets up the fiber. -/
theorem sceFiberInitializeImpl_cases (s : FiberSys) (fiber : Nat) (a : InitializeArgs) :
    (∃ error < 0, sceFiberInitializeImpl s fiber a = (error, s)) ∨
      sceFiberInitializeImpl s fiber a = (orbisOk, { s with
        fiber := initializedFiber s a
        mem := if a.addrContext ≠ 0 then
            prepareStack s.mem a.addrContext a.sizeContext (a.flags &&& FiberFlags.contextSizeCheck != 0)
          else s.mem }) ∧
      fiber ≠ 0 ∧ fiber &&& 7 = 0 ∧ (a.addrContext ≠ 0 → SizeOk a.sizeContext) := by
  unfold sceFiberInitializeImpl
  cases herror : initializeError fiber a with
  | some error => exact .inl ⟨error, initializeError_neg herror, rfl⟩
  | none => exact .inr ⟨rfl, initializeError_eq_none herror⟩

/-! ## Runs -/

/-- What happens to the fiber: the calls of the library, the end of a turn of the fiber, and
whatever the program writes to memory. -/
inductive FiberCall where
  | startContextSizeCheck (flags : UInt32)
  | stopContextSizeCheck
  | initializeImpl (a : InitializeArgs)
  | runImpl (tcbFiber : Bool) (addrContext sizeContext : Nat)
  | switchImpl (tcbFiber : Bool) (addrContext sizeContext : Nat)
  | idle
  | store (mem : Nat → UInt64)

def FiberCall.apply (fiber : Nat) (s : FiberSys) : FiberCall → FiberSys
  | .startContextSizeCheck flags => (sceFiberStartContextSizeCheck s flags).2
  | .stopContextSizeCheck => (sceFiberStopContextSizeCheck s).2
  | .initializeImpl a => (sceFiberInitializeImpl s fiber a).2
  | .runImpl tcbFiber addr size => (sceFiberRunImpl tcbFiber s fiber addr size).2
  | .switchImpl tcbFiber addr size => (sceFiberSwitchImpl tcbFiber s fiber addr size).2
  | .idle => s.withState .idle
  | .store mem => { s with mem }

def FiberCall.step (fiber : Nat) (s : FiberSys) (call : FiberCall) : Option (FiberSys × List Empty) :=
  some (call.apply fiber s, [])

theorem sceFiberStartContextSizeCheck_fiber (s : FiberSys) (flags : UInt32) :
    (sceFiberStartContextSizeCheck s flags).2.fiber = s.fiber := by
  unfold sceFiberStartContextSizeCheck
  split
  · rfl
  · split <;> rfl

theorem sceFiberStopContextSizeCheck_fiber (s : FiberSys) :
    (sceFiberStopContextSizeCheck s).2.fiber = s.fiber := by
  unfold sceFiberStopContextSizeCheck
  split <;> rfl

namespace FiberSys.Valid

theorem congr (hs : s.Valid fiber) (hfiber : ∃ state, s'.fiber = { s.fiber with state }) :
    s'.Valid fiber := by
  obtain ⟨state, hfiber⟩ := hfiber
  constructor
  · rw [hfiber]
    exact hs.address
  · rw [hfiber]
    exact hs.context

theorem attach (hs : s.Valid fiber) (hsize : SizeOk size) : (attachContext s addr size).Valid fiber where
  address := hs.address
  context := fun _ _ => ⟨rfl, rfl, hsize⟩

theorem enter (hs : s.Valid fiber) (permitted : Bool) (addr size : Nat) :
    (enterFiber permitted s fiber addr size).2.Valid fiber := by
  obtain ⟨state, hkept | ⟨hattached, -, -, hsize, -⟩⟩ := enterFiber_cases permitted s fiber addr size
  · rw [hkept]
    exact hs.congr ⟨state, rfl⟩
  · rw [hattached]
    exact (hs.attach hsize).congr ⟨state, rfl⟩

theorem initialized (hs : s.Valid fiber) (a : InitializeArgs) :
    (sceFiberInitializeImpl s fiber a).2.Valid fiber := by
  rcases sceFiberInitializeImpl_cases s fiber a with ⟨error, -, hfailed⟩ | ⟨hok, hnull, halign, hsize⟩
  · rw [hfailed]
    exact hs
  · rw [hok]
    refine ⟨fun _ => ⟨hnull, halign⟩, ?_⟩
    intro _ haddr
    exact ⟨if_pos haddr, if_pos haddr, hsize haddr⟩

theorem apply (hs : s.Valid fiber) (call : FiberCall) : (call.apply fiber s).Valid fiber := by
  have hsame {s' : FiberSys} (hfiber : s'.fiber = s.fiber) : s'.Valid fiber :=
    hs.congr ⟨s.fiber.state, hfiber⟩
  cases call with
  | startContextSizeCheck flags => exact hsame (sceFiberStartContextSizeCheck_fiber s flags)
  | stopContextSizeCheck => exact hsame (sceFiberStopContextSizeCheck_fiber s)
  | initializeImpl a => exact hs.initialized a
  | runImpl tcbFiber addr size => exact hs.enter _ addr size
  | switchImpl tcbFiber addr size => exact hs.enter _ addr size
  | idle => exact hs.congr ⟨.idle, rfl⟩
  | store mem => exact hsame rfl

theorem of_reaches {start : FiberSys} {h : List Empty} (hstart : ¬start.fiber.hasMagic)
    (hreach : Reaches (FiberCall.step fiber) (fun _ _ => True) start s h) : s.Valid fiber := by
  refine hreach.invariant (P := fun s _ => s.Valid fiber) ?_ ?_
  · exact ⟨fun hmagic => absurd hmagic hstart, fun hmagic => absurd hmagic hstart⟩
  · intro s h call s' es hs _ hstep
    obtain ⟨rfl, -⟩ : call.apply fiber s = s' ∧ [] = es := by simpa [FiberCall.step] using hstep
    exact hs.apply call

end FiberSys.Valid

/-! ## The margin -/

/-- The fiber has a context, and the flag that asks for the check of its size. -/
def FiberSys.HasCheckedContext (s : FiberSys) : Prop :=
  s.fiber.hasMagic ∧ s.fiber.addrContext ≠ 0 ∧ s.fiber.flags &&& FiberFlags.contextSizeCheck ≠ 0

/-- `sceFiberGetInfo` returns, and tells this margin. -/
def Reports (s : FiberSys) (fiber fiberInfo : Nat) (info : OrbisFiberInfo) (margin : Nat) : Prop :=
  ∃ info', sceFiberGetInfo s fiber fiberInfo info = .ok (orbisOk, info') ∧
    info'.sizeContextMargin = margin

/-- A pointer to an `OrbisFiberInfo` that `sceFiberGetInfo` accepts. -/
def InfoOk (fiberInfo : Nat) (info : OrbisFiberInfo) : Prop :=
  fiberInfo ≠ 0 ∧ fiberInfo &&& 7 = 0 ∧ info.size = orbisFiberInfoSize

variable {fiberInfo margin : Nat} {info : OrbisFiberInfo}

theorem contextMargin_eq_ok (hs : s.Valid fiber) (hchecked : s.HasCheckedContext)
    (hsignature : s.mem s.fiber.addrContext = kFiberStackSignature) :
    contextMargin s = .ok margin ↔
      Untouched s.mem s.fiber.addrContext s.fiber.sizeContext ∧ margin = s.fiber.sizeContext - 8 := by
  obtain ⟨hmagic, haddr, hflag⟩ := hchecked
  obtain ⟨hstart, hend, hsize⟩ := hs.context hmagic haddr
  have hlast := hsize.end_eq s.fiber.addrContext
  unfold contextMargin
  rw [if_pos ⟨hflag, haddr⟩, hstart, if_pos hsignature, hend, untouched_iff, hlast]
  constructor
  · intro hok
    obtain ⟨stackPtr, hscan, hmargin⟩ := Outcome.bind_eq_ok.1 hok
    obtain ⟨hwords, rfl⟩ := (scanCheck_eq_ok _ _).1 hscan
    refine ⟨hwords, ?_⟩
    have hdiff := Outcome.pure_eq_ok.1 hmargin
    omega
  · rintro ⟨hwords, rfl⟩
    rw [(scanCheck_eq_ok _ _).2 ⟨hwords, rfl⟩]
    simp only [Outcome.ok_bind, Outcome.pure_eq_ok]
    omega

/-- The fiber is told its margin if nothing above the signature has been overwritten. The loop does
not come past a word that has. -/
theorem reports_iff (hs : s.Valid fiber) (hchecked : s.HasCheckedContext)
    (hsignature : s.mem s.fiber.addrContext = kFiberStackSignature) (hinfo : InfoOk fiberInfo info) :
    Reports s fiber fiberInfo info margin ↔
      Untouched s.mem s.fiber.addrContext s.fiber.sizeContext ∧ margin = s.fiber.sizeContext - 8 := by
  obtain ⟨hnull, halign⟩ := hs.address hchecked.1
  obtain ⟨hinfoNull, hinfoAlign, hinfoSize⟩ := hinfo
  have hmagic := hchecked.1
  rw [← contextMargin_eq_ok hs hchecked hsignature]
  unfold Reports sceFiberGetInfo
  rw [if_neg (by simp [hnull, hinfoNull]), if_neg (by simp [halign, hinfoAlign]),
    if_neg (by simp [hinfoSize]), if_neg (by simp [hmagic])]
  cases hmargin : contextMargin s with
  | error e => simp
  | ok m =>
    simp

/-- A fiber that gets a context from `sceFiberInitializeImpl` is told the size of it if the flag was
in the argument. With the flag of the library alone, the memory must have held the pattern before. -/
theorem reports_initialized_iff {s' : FiberSys} (hs : s.Valid fiber) (hinfo : InfoOk fiberInfo info)
    (hok : sceFiberInitializeImpl s fiber a = (orbisOk, s')) (hchecked : s'.HasCheckedContext) :
    Reports s' fiber fiberInfo info (a.sizeContext - 8) ↔
      a.flags &&& FiberFlags.contextSizeCheck ≠ 0 ∨ Untouched s.mem a.addrContext a.sizeContext := by
  have hvalid : s'.Valid fiber := by
    have hinit := hs.initialized a
    rwa [hok] at hinit
  rcases sceFiberInitializeImpl_cases s fiber a with ⟨error, hneg, hfailed⟩ | ⟨hok', -, -, hsize⟩
  · rw [hfailed, Prod.mk.injEq] at hok
    rw [hok.1] at hneg
    exact absurd hneg (by decide)
  · rw [hok', Prod.mk.injEq] at hok
    obtain ⟨-, rfl⟩ := hok
    have haddr : a.addrContext ≠ 0 := hchecked.2.1
    rw [reports_iff hvalid hchecked ?_ hinfo]
    · have hmem := untouched_prepareStack s.mem a.addrContext (hsize haddr)
        (a.flags &&& FiberFlags.contextSizeCheck != 0)
      simp only [initializedFiber, if_pos haddr, hmem, bne_iff_ne, and_true]
    · simp only [initializedFiber, if_pos haddr, prepareStack_signature]

/-- A context that is attached is filled whenever the fiber has the flag. -/
theorem reports_entered (hs : s.Valid fiber) (hinfo : InfoOk fiberInfo info) {permitted : Bool}
    (hnone : s.fiber.addrContext = 0)
    (hchecked : (enterFiber permitted s fiber addr size).2.HasCheckedContext) :
    Reports (enterFiber permitted s fiber addr size).2 fiber fiberInfo info (size - 8) := by
  have hvalid := hs.enter permitted addr size
  obtain ⟨state, hkept | ⟨hattached, -, -, hsize, -⟩⟩ := enterFiber_cases permitted s fiber addr size
  · rw [hkept] at hchecked
    exact absurd hnone hchecked.2.1
  · rw [hattached] at hvalid hchecked ⊢
    refine (reports_iff hvalid hchecked (prepareStack_signature _) hinfo).2 ⟨?_, rfl⟩
    exact (untouched_prepareStack _ _ hsize _).2 (.inl (bne_iff_ne.2 hchecked.2.2))

/-- When the margin is told. Nothing above the signature may have been overwritten, and a fiber that
has not run must have got its context with the flag in the argument, or attached. -/
theorem sceFiberGetInfo_reports_iff (fiber fiberInfo : Nat) (info : OrbisFiberInfo)
    (start s : FiberSys) (h : List Empty) (hstart : ¬start.fiber.hasMagic)
    (hreach : Reaches (FiberCall.step fiber) (fun _ _ => True) start s h)
    (hinfo : InfoOk fiberInfo info) :
    (s.HasCheckedContext → s.mem s.fiber.addrContext = kFiberStackSignature →
      (Reports s fiber fiberInfo info
          (8 * checkedWords s.mem s.fiber.addrContext s.fiber.sizeContext) ↔
        Untouched s.mem s.fiber.addrContext s.fiber.sizeContext)) ∧
      (∀ a s', sceFiberInitializeImpl s fiber a = (orbisOk, s') → s'.HasCheckedContext →
        (Reports s' fiber fiberInfo info (a.sizeContext - 8) ↔
          a.flags &&& FiberFlags.contextSizeCheck ≠ 0 ∨
            Untouched s.mem a.addrContext a.sizeContext)) ∧
      ∀ permitted addr size, s.fiber.addrContext = 0 →
        (enterFiber permitted s fiber addr size).2.HasCheckedContext →
          Reports (enterFiber permitted s fiber addr size).2 fiber fiberInfo info (size - 8) := by
  have hs := FiberSys.Valid.of_reaches hstart hreach
  refine ⟨?_, ?_, ?_⟩
  · intro hchecked hsignature
    rw [reports_iff hs hchecked hsignature hinfo]
    constructor
    · exact And.left
    · intro huntouched
      obtain ⟨-, -, hsize⟩ := hs.context hchecked.1 hchecked.2.1
      exact ⟨huntouched, huntouched.checkedWords hsize⟩
  · intro a s' hok hchecked
    exact reports_initialized_iff hs hinfo hok hchecked
  · intro permitted addr size hnone hchecked
    exact reports_entered hs hinfo hnone hchecked

/-- A fiber in fresh memory, and arguments that give it a stack of 512 bytes. -/
def freshSys : FiberSys where
  contextSizeCheck := 0
  mem := fun _ => 0
  fiber := {
    magicStart := 0, state := .idle, entry := 0, argOnInitialize := 0, addrContext := 0
    sizeContext := 0, name := [], context := 0, flags := 0, contextStart := 0, contextEnd := 0
    magicEnd := 0 }

def stackArgs (flags : UInt32) : InitializeArgs where
  name := some []
  entry := 0x400000
  argOnInitialize := 0
  addrContext := 0x1000
  sizeContext := 512
  optParam := none
  flags := flags
  buildVer := 0

def freshInfo : OrbisFiberInfo where
  size := orbisFiberInfoSize
  entry := 0
  argOnInitialize := 0
  addrContext := 0
  sizeContext := 0
  name := []
  sizeContextMargin := 0

theorem sceFiberGetInfo_reports_fresh :
    Reports (sceFiberInitializeImpl freshSys 8 (stackArgs 0x10)).2 8 8 freshInfo 504 :=
  ((sceFiberGetInfo_reports_iff 8 8 freshInfo freshSys freshSys [] (by decide) .start
    ⟨by decide, by decide, rfl⟩).2.1 (stackArgs 0x10) _ rfl
      ⟨by decide, by decide, by decide⟩).2 (.inl (by decide))

/-- The fiber has used its stack, and the scan stays at the first word that it has used. With the flag
of the library alone the stack is not filled, and the scan stays at the second word. -/
theorem sceFiberGetInfo_stuck :
    (∃ s h, Reaches (FiberCall.step 8) (fun _ _ => True) freshSys s h ∧ s.HasCheckedContext ∧
      s.mem s.fiber.addrContext = kFiberStackSignature ∧
        ¬Reports s 8 8 freshInfo
          (8 * checkedWords s.mem s.fiber.addrContext s.fiber.sizeContext)) ∧
      ∃ s h s', Reaches (FiberCall.step 8) (fun _ _ => True) freshSys s h ∧
        sceFiberInitializeImpl s 8 (stackArgs 0) = (orbisOk, s') ∧ s'.HasCheckedContext ∧
          ¬Reports s' 8 8 freshInfo 504 := by
  have hnot : ¬freshSys.fiber.hasMagic := by decide
  have hinfo : InfoOk 8 freshInfo := ⟨by decide, by decide, rfl⟩
  constructor
  · have hinit : Reaches (FiberCall.step 8) (fun _ _ => True) freshSys
        (FiberCall.apply 8 freshSys (.initializeImpl (stackArgs 0x10))) [] :=
      Reaches.start.step (a := .initializeImpl (stackArgs 0x10)) trivial rfl
    have hused := hinit.step trivial
      (rfl : FiberCall.step 8 _ (.store fun addr => if addr = 0x1000 then kFiberStackSignature else 0)
        = some (_, []))
    have hchecked : FiberSys.HasCheckedContext
        (FiberCall.apply 8 (FiberCall.apply 8 freshSys (.initializeImpl (stackArgs 0x10)))
          (.store fun addr => if addr = 0x1000 then kFiberStackSignature else 0)) :=
      ⟨by decide, by decide, by decide⟩
    refine ⟨_, _, hused, hchecked, by decide, ?_⟩
    rw [reports_iff (FiberSys.Valid.of_reaches hnot hused) hchecked (by decide) hinfo, untouched_iff]
    rintro ⟨hwords, -⟩
    exact absurd (hwords 0 (by decide)) (by decide)
  · have hcheck : Reaches (FiberCall.step 8) (fun _ _ => True) freshSys
        (FiberCall.apply 8 freshSys (.startContextSizeCheck 0)) [] :=
      Reaches.start.step (a := .startContextSizeCheck 0) trivial rfl
    refine ⟨_, _, _, hcheck, rfl, ⟨by decide, by decide, by decide⟩, ?_⟩
    have hvalid := FiberSys.Valid.of_reaches hnot hcheck
    have hiff := reports_initialized_iff hvalid hinfo
      (rfl : sceFiberInitializeImpl (FiberCall.apply 8 freshSys (.startContextSizeCheck 0)) 8
        (stackArgs 0) = (orbisOk, _)) ⟨by decide, by decide, by decide⟩
    intro hreports
    rcases hiff.1 hreports with hflag | huntouched
    · exact hflag rfl
    · rw [untouched_iff] at huntouched
      exact absurd (huntouched 0 (by decide)) (by decide)

end Fiber
