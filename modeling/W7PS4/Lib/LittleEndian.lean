-- SUMMARY: Numbers as little-endian bytes: writing them into a buffer and reading them back.
import Mathlib.Data.Nat.Bitwise
import Mathlib.Data.List.Basic
import Mathlib.Tactic.Common

/-!
# Little-endian bytes

A number is written one byte at a time at an offset of a buffer and read back as the
disjunction of its shifted bytes. What is read is the number up to the width.
-/

namespace LittleEndian

/-- The byte with the given index. -/
def byteAt (v i : Nat) : UInt8 := UInt8.ofNat (v >>> (8 * i))

/-- The `n` lowest bytes. -/
def bytes (n v : Nat) : List UInt8 := (List.range n).map (byteAt v)

def put (n : Nat) (b : List UInt8) (off v : Nat) : List UInt8 :=
  (List.range n).foldl (fun b i => b.set (off + i) (byteAt v i)) b

def get (n : Nat) (p : List UInt8) : Nat :=
  (List.range n).foldl (fun v i => v ||| (p.getD i 0).toNat <<< (8 * i)) 0

@[simp] theorem bytes_length {n v : Nat} : (bytes n v).length = n := by simp [bytes]

theorem byteAt_toNat (v i : Nat) : (byteAt v i).toNat = v >>> (8 * i) % 2 ^ 8 := by
  simp [byteAt]

theorem bytes_succ (n v : Nat) : bytes (n + 1) v = bytes n v ++ [byteAt v n] := by
  simp [bytes, List.range_succ]

theorem put_succ (n : Nat) (b : List UInt8) (off v : Nat) :
    put (n + 1) b off v = (put n b off v).set (off + n) (byteAt v n) := by
  unfold put
  rw [List.range_succ, List.foldl_append]
  rfl

/-- The bytes take the place of what the buffer held there. -/
theorem put_append {n off v : Nat} {a b c : List UInt8} (hoff : a.length = off) (hb : b.length = n) :
    put n (a ++ (b ++ c)) off v = a ++ (bytes n v ++ c) := by
  induction n generalizing b c with
  | zero =>
    rw [List.length_eq_zero_iff] at hb
    rw [hb]
    rfl
  | succ n ih =>
    obtain ⟨b, x, rfl⟩ : ∃ b' x, b = b' ++ [x] :=
      ⟨b.dropLast, b.getLast (List.ne_nil_of_length_eq_add_one hb), (List.dropLast_append_getLast _).symm⟩
    have hb' : b.length = n := by simpa using hb
    rw [put_succ, List.append_assoc, ih hb', bytes_succ, List.set_append_right _ _ (by omega), hoff,
      Nat.add_sub_cancel_left, List.set_append_right _ _ (by simp), bytes_length, Nat.sub_self]
    simp

/-- One more byte on top of the ones below it. -/
theorem mod_or_byte (v k : Nat) :
    v % 2 ^ k ||| (v >>> k % 2 ^ 8) <<< k = v % 2 ^ (k + 8) := by
  apply Nat.eq_of_testBit_eq
  intro i
  simp only [Nat.testBit_or, Nat.testBit_mod_two_pow, Nat.testBit_shiftLeft, Nat.testBit_shiftRight]
  by_cases hlow : i < k
  · have hlow' : ¬k ≤ i := by omega
    have hwide : i < k + 8 := by omega
    simp [hlow, hlow', hwide]
  · have hge : k ≤ i := by omega
    have hsum : k + (i - k) = i := by omega
    have hbyte : i - k < 8 ↔ i < k + 8 := by omega
    simp [hlow, hge, hsum, hbyte]

theorem get_succ (n : Nat) (p : List UInt8) :
    get (n + 1) p = get n p ||| (p.getD n 0).toNat <<< (8 * n) := by
  unfold get
  rw [List.range_succ, List.foldl_append]
  rfl

theorem get_of_bytes {p : List UInt8} {n v : Nat} (hp : ∀ i < n, p.getD i 0 = byteAt v i) :
    get n p = v % 2 ^ (8 * n) := by
  induction n with
  | zero => simp [get, Nat.mod_one]
  | succ n ih =>
    have hbelow : get n p = v % 2 ^ (8 * n) := ih fun i hi => hp i (by omega)
    rw [get_succ, hbelow, hp n (Nat.lt_succ_self n), byteAt_toNat, mod_or_byte]
    rfl

theorem get_bytes_append {n v : Nat} {rest : List UInt8} :
    get n (bytes n v ++ rest) = v % 2 ^ (8 * n) := by
  refine get_of_bytes fun i hi => ?_
  rw [List.getD_append _ _ _ _ (by simpa using hi)]
  simp [bytes, List.getD_eq_getElem?_getD, hi]

/-- What lies before the number is skipped. -/
theorem get_drop {n v k : Nat} {before rest : List UInt8} (hk : before.length = k) :
    get n ((before ++ (bytes n v ++ rest)).drop k) = v % 2 ^ (8 * n) := by
  rw [← hk, List.drop_left]
  exact get_bytes_append

variable {n m k : Nat}

/-- What is read is determined by the bytes read. -/
theorem get_congr {p q : List UInt8} (h : ∀ i < n, p[i]? = q[i]?) : get n p = get n q := by
  unfold get
  refine List.foldl_ext _ _ _ fun v i hi => ?_
  simp only [List.getD_eq_getElem?_getD, h i (List.mem_range.mp hi)]

/-- A number that lies inside of what was copied is read from the copy. -/
theorem get_take_drop {p : List UInt8} (hfits : k + n ≤ m) :
    get n ((p.take m).drop k) = get n (p.drop k) := by
  refine get_congr fun i hi => ?_
  rw [List.getElem?_drop, List.getElem?_drop, List.getElem?_take_of_lt (by omega)]

end LittleEndian
