-- SUMMARY: Runs that may stop at a fault, and the wrapping arithmetic of `u64`, `u32` and `s32`.
import Mathlib

/-!
# Faulting runs and machine arithmetic

A run of a C++ function ends with a result or stops. It stops when an assertion
fails, when it does something the language leaves undefined, or when a loop
makes no more progress. `Outcome` is the monad of such runs.

Addresses and sizes are natural numbers. Where an argument nobody has checked
enters a sum or a difference, `U64.add` and `U64.sub` wrap as the machine does; the
operations on `u32` and `s32` do so for narrower intermediate results.
-/

inductive Fault where
  /-- A failed `ASSERT`; the process stops. -/
  | assertion (msg : String)
  /-- Undefined behaviour: an iterator before `begin()`, a division by zero. -/
  | undefined
  /-- A loop whose state repeats. -/
  | diverges
deriving DecidableEq, Repr

abbrev Outcome (α : Type) := Except Fault α

def assertMsg (cond : Bool) (msg : String) : Outcome Unit :=
  if cond then .ok () else .error (.assertion msg)

/-- Dereference an iterator. -/
def deref {α : Type} (it : Option α) : Outcome α :=
  match it with
  | some a => .ok a
  | none => .error .undefined

namespace Outcome

variable {α β : Type} {f : α → Outcome β} {x : Outcome α} {e : Fault}

theorem bind_eq_ok {b : β} : (x >>= f) = .ok b ↔ ∃ a, x = .ok a ∧ f a = .ok b := by
  cases x with
  | error e => simp [bind, Except.bind]
  | ok a => simp [bind, Except.bind]

@[simp] theorem ok_bind {a : α} : ((.ok a : Outcome α) >>= f) = f a := rfl

@[simp] theorem error_bind : ((.error e : Outcome α) >>= f) = .error e := rfl

theorem map_eq_ok {f : α → β} {b : β} : f <$> x = .ok b ↔ ∃ a, x = .ok a ∧ f a = b := by
  cases x with
  | error e => simp [Functor.map, Except.map]
  | ok a => simp [Functor.map, Except.map]

theorem pure_eq_ok {a b : α} : (pure a : Outcome α) = .ok b ↔ a = b := by
  simp [pure, Except.pure]

/-- What the computation returns, if it returns, satisfies `P`. -/
def Ensures (x : Outcome α) (P : α → Prop) : Prop := ∀ a, x = .ok a → P a

theorem ensures_pure {P : α → Prop} {a : α} (h : P a) : Ensures (pure a) P := by
  intro b hb
  rwa [← pure_eq_ok.1 hb]

theorem ensures_throw {P : α → Prop} : Ensures (throw e : Outcome α) P := by
  intro a ha
  cases ha

theorem Ensures.bind {x : Outcome α} {f : α → Outcome β} {P : α → Prop} {Q : β → Prop}
    (hx : x.Ensures P) (hf : ∀ a, P a → (f a).Ensures Q) : (x >>= f).Ensures Q := by
  intro b hb
  obtain ⟨a, ha, hfa⟩ := bind_eq_ok.1 hb
  exact hf a (hx a ha) b hfa

/-- The rule for a step that nothing has to be known about. -/
theorem ensures_bind {Q : β → Prop} (hf : ∀ a, (f a).Ensures Q) : (x >>= f).Ensures Q := by
  intro b hb
  obtain ⟨a, -, hfa⟩ := bind_eq_ok.1 hb
  exact hf a b hfa

/-- A loop over a list keeps what every turn keeps. -/
theorem ensures_foldlM {I : β → Prop} {f : β → α → Outcome β} {b : β} (as : List α) (hb : I b)
    (hf : ∀ b a, I b → (f b a).Ensures I) : (as.foldlM f b).Ensures I := by
  induction as generalizing b with
  | nil => exact ensures_pure hb
  | cons a as ih =>
    rw [List.foldlM_cons]
    exact (hf b a hb).bind fun b' hb' => ih hb'

end Outcome

@[simp] theorem assertMsg_eq_ok {cond : Bool} {msg : String} {u : Unit} :
    assertMsg cond msg = .ok u ↔ cond = true := by
  unfold assertMsg
  split <;> simp_all

@[simp] theorem deref_eq_ok {α : Type} {it : Option α} {a : α} :
    deref it = .ok a ↔ it = some a := by
  cases it <;> simp [deref]

/-! ## 64-bit arithmetic -/

namespace U64

-- Unfolding these while comparing two terms would count up to `2 ^ 64`.
@[irreducible] def add (a b : Nat) : Nat := (a + b) % 2 ^ 64

@[irreducible] def sub (a b : Nat) : Nat := (a + 2 ^ 64 - b) % 2 ^ 64

/-- `u64(-1)`, the marker for "no address". -/
def max : Nat := 2 ^ 64 - 1

theorem add_of_lt {a b : Nat} (h : a + b < 2 ^ 64) : add a b = a + b := by
  unfold add
  exact Nat.mod_eq_of_lt h

theorem sub_of_le {a b : Nat} (ha : a < 2 ^ 64) (h : b ≤ a) : sub a b = a - b := by
  unfold sub
  omega

theorem eq_of_sub_eq_zero {a b : Nat} (ha : a < 2 ^ 64) (hb : b < 2 ^ 64) (h : sub a b = 0) :
    a = b := by
  unfold sub at h
  omega

theorem add_add (a b c : Nat) : add (add a b) c = add a (b + c) := by
  unfold add
  omega

theorem add_lt (a b : Nat) : add a b < 2 ^ 64 := by
  unfold add
  exact Nat.mod_lt _ (by decide)

theorem sub_lt (a b : Nat) : sub a b < 2 ^ 64 := by
  unfold sub
  exact Nat.mod_lt _ (by decide)

/-- The conversion of a signed number. -/
def ofInt (n : Int) : Nat := (n % 2 ^ 64).toNat

theorem add_ofInt (a : Nat) (n : Int) : add a (ofInt n) = ofInt (a + n) := by
  unfold add ofInt
  omega

end U64

/-! ## 32-bit arithmetic -/

namespace U32

@[irreducible] def add (a b : Nat) : Nat := (a + b) % 2 ^ 32

@[irreducible] def sub (a b : Nat) : Nat := (a + 2 ^ 32 - b) % 2 ^ 32

@[irreducible] def mul (a b : Nat) : Nat := a * b % 2 ^ 32

theorem add_of_lt {a b : Nat} (h : a + b < 2 ^ 32) : add a b = a + b := by
  unfold add
  exact Nat.mod_eq_of_lt h

theorem sub_of_le {a b : Nat} (ha : a < 2 ^ 32) (h : b ≤ a) : sub a b = a - b := by
  unfold sub
  omega

theorem mul_of_lt {a b : Nat} (h : a * b < 2 ^ 32) : mul a b = a * b := by
  unfold mul
  exact Nat.mod_eq_of_lt h

end U32

/-- A signed 32-bit result that does not fit wraps. -/
def S32.wrap (n : Int) : Int := n.bmod (2 ^ 32)

theorem S32.wrap_of_fits {n : Int} (hlow : -2 ^ 31 ≤ n) (hhigh : n < 2 ^ 31) : S32.wrap n = n :=
  Int.bmod_eq_of_le (by omega) (by omega)

/-- `Common::AlignUp`. -/
def alignUp (value size : Nat) : Nat :=
  let mod := value % size
  if mod = 0 then value - mod else U64.add (value - mod) size

/-- `Common::AlignDown`. -/
def alignDown (value size : Nat) : Nat := value - value % size

variable {value size : Nat}

theorem alignUp_lt (h : value < 2 ^ 64) : alignUp value size < 2 ^ 64 := by
  simp only [alignUp]
  split
  · omega
  · exact U64.add_lt _ _

theorem alignDown_lt (h : value < 2 ^ 64) : alignDown value size < 2 ^ 64 := by
  unfold alignDown
  omega

/-- Below the middle of the address space aligning cannot wrap. -/
theorem le_alignUp (hpos : 0 < size) (hsize : size < 2 ^ 64)
    (h : value < 2 ^ 63) : value ≤ alignUp value size := by
  have hmod := Nat.mod_lt value hpos
  have hle := Nat.mod_le value size
  have hfit : value - value % size + size < 2 ^ 64 := by
    rcases Nat.lt_or_ge value size with hlt | hge
    · rw [Nat.mod_eq_of_lt hlt]
      omega
    · omega
  simp only [alignUp]
  split
  · omega
  · rw [U64.add_of_lt hfit]
    omega
