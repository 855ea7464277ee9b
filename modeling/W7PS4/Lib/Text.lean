-- SUMMARY: Strings as lists of characters: substrings by position, and decimal numbers written and read again.
import Mathlib

/-!
# Strings

A `std::string` is the list of its characters. `toString` and `stoi` write and read a
decimal number; `substr` and `charAt` count positions from the start and fail outside.
-/

namespace Text

inductive StdError where
  | invalidArgument
  | outOfRange
  /-- An index beyond the terminating null. -/
  | undefined
deriving DecidableEq, Repr

def substr (s : List Char) (pos len : Nat) : Except StdError (List Char) :=
  if pos ≤ s.length then .ok ((s.drop pos).take len) else .error .outOfRange

/-- After the last character there is a null. -/
def charAt (s : List Char) (i : Nat) : Except StdError Char :=
  if i ≤ s.length then .ok (s.getD i (Char.ofNat 0)) else .error .undefined

def toString (n : Int) : List Char :=
  if n < 0 then '-' :: Nat.toDigits 10 n.natAbs else Nat.toDigits 10 n.natAbs

/-- The characters that are skipped before a number. -/
def isSpace (c : Char) : Bool := c.toNat = 32 ∨ 9 ≤ c.toNat ∧ c.toNat ≤ 13

/-- The sign, and what follows it. -/
def splitSign : List Char → Bool × List Char
  | '-' :: s => (true, s)
  | '+' :: s => (false, s)
  | s => (false, s)

/-- What follows the digits is ignored. -/
def stoi (s : List Char) : Except StdError Int :=
  let (negative, s) := splitSign (s.dropWhile isSpace)
  let digits := s.takeWhile Char.isDigit
  if digits.isEmpty then .error .invalidArgument
  else
    let n : Int := Nat.ofDigitChars 10 digits 0
    let n := if negative then -n else n
    if -2 ^ 31 ≤ n ∧ n < 2 ^ 31 then .ok n else .error .outOfRange

/-! ## Reading digits -/

theorem not_isSpace_of_isDigit {c : Char} (h : c.isDigit = true) : ¬isSpace c = true := by
  have hbounds : 48 ≤ c.toNat ∧ c.toNat ≤ 57 := Char.isDigit_iff_toNat.mp h
  simp only [isSpace, decide_eq_true_eq]
  omega

theorem splitSign_of_isDigit {c : Char} (h : c.isDigit = true) (s : List Char) :
    splitSign (c :: s) = (false, c :: s) := by
  unfold splitSign
  split
  · next heq =>
    obtain ⟨rfl, -⟩ := List.cons.inj heq
    exact absurd h (by decide)
  · next heq =>
    obtain ⟨rfl, -⟩ := List.cons.inj heq
    exact absurd h (by decide)
  · rfl

/-- Digits, and then something else. -/
theorem stoi_append {digits rest : List Char} (hne : digits ≠ [])
    (hdigits : ∀ c ∈ digits, c.isDigit = true) (hrest : ∀ c ∈ rest.head?, ¬c.isDigit = true)
    (hsmall : Nat.ofDigitChars 10 digits 0 < 2 ^ 31) :
    stoi (digits ++ rest) = .ok (Nat.ofDigitChars 10 digits 0 : Nat) := by
  have hstop : rest.takeWhile Char.isDigit = [] := by
    cases rest with
    | nil => rfl
    | cons c rest => exact List.takeWhile_cons_of_neg (hrest c rfl)
  have htake : (digits ++ rest).takeWhile Char.isDigit = digits := by
    rw [List.takeWhile_append_of_pos hdigits, hstop, List.append_nil]
  cases digits with
  | nil => exact absurd rfl hne
  | cons c digits =>
    have hc := hdigits c List.mem_cons_self
    have hskip : (c :: digits ++ rest).dropWhile isSpace = c :: (digits ++ rest) :=
      List.dropWhile_cons_of_neg (not_isSpace_of_isDigit hc)
    simp only [stoi, hskip, splitSign_of_isDigit hc]
    rw [← List.cons_append, htake]
    simp only [List.isEmpty_cons, Bool.false_eq_true, if_false]
    rw [if_pos (by omega)]

/-- A number in a field of its own. -/
theorem stoi_toDigits {n : Nat} (hn : n < 2 ^ 31) : stoi (Nat.toDigits 10 n) = .ok (n : Int) := by
  have h := @stoi_append (Nat.toDigits 10 n) [] Nat.toDigits_ne_nil
    (fun c hc => Nat.isDigit_of_mem_toDigits (by decide) (by decide) hc) (by simp)
    (by rwa [Nat.ofDigitChars_ten_toDigits])
  rwa [List.append_nil, Nat.ofDigitChars_ten_toDigits] at h

end Text
