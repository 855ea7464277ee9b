-- SUMMARY: Reads from and writes to byte buffers that must stay inside them.
import W7PS4.Lib.Machine

/-!
# Byte buffers

A buffer is a list of bytes. A read or a write that leaves it is undefined.
-/

namespace Buffer

open List (append_assoc drop_drop length_append)

/-- One byte. -/
def load (buf : List UInt8) (i : Nat) : Outcome UInt8 := deref buf[i]?

/-- `memcpy` into the buffer. -/
def write (buf : List UInt8) (off : Nat) (bytes : List UInt8) : Outcome (List UInt8) :=
  if off + bytes.length ≤ buf.length then
    .ok (buf.take off ++ (bytes ++ buf.drop (off + bytes.length)))
  else .error .undefined

def store (buf : List UInt8) (i : Nat) (b : UInt8) : Outcome (List UInt8) := write buf i [b]

variable {buf bytes : List UInt8} {off : Nat}

@[simp] theorem load_eq_ok {i : Nat} {b : UInt8} : load buf i = .ok b ↔ buf[i]? = some b := by
  unfold load
  exact deref_eq_ok

theorem write_of_le (h : off + bytes.length ≤ buf.length) :
    write buf off bytes = .ok (buf.take off ++ (bytes ++ buf.drop (off + bytes.length))) := by
  unfold write
  exact if_pos h

/-- What is written in two parts. -/
theorem write_append (buf first bytes : List UInt8) (off : Nat) :
    write buf off (first ++ bytes)
      = write buf off first >>= fun buf => write buf (off + first.length) bytes := by
  unfold write
  by_cases hfirst : off + first.length ≤ buf.length
  · have htake : (buf.take off).length = off := List.length_take_of_le (by omega)
    have hlen : (buf.take off ++ (first ++ buf.drop (off + first.length))).length = buf.length := by
      simp only [length_append, List.length_drop, htake]
      omega
    have hfront : (buf.take off ++ (first ++ buf.drop (off + first.length))).take
        (off + first.length) = buf.take off ++ first := by
      rw [← append_assoc]
      exact List.take_left' (by rw [length_append, htake])
    have hrest : (buf.take off ++ (first ++ buf.drop (off + first.length))).drop
        (off + first.length + bytes.length) = buf.drop (off + first.length + bytes.length) := by
      rw [← append_assoc, ← drop_drop,
        List.drop_left' (by rw [length_append, htake]), drop_drop]
    rw [if_pos hfirst, Outcome.ok_bind, hlen, hfront, hrest, length_append]
    simp only [append_assoc, Nat.add_assoc]
  · have hboth : ¬off + (first ++ bytes).length ≤ buf.length := by
      rw [length_append]
      omega
    rw [if_neg hfirst, if_neg hboth, Outcome.error_bind]

theorem write_cons (buf bytes : List UInt8) (off : Nat) (b : UInt8) :
    write buf off (b :: bytes) = store buf off b >>= fun buf => write buf (off + 1) bytes :=
  write_append buf [b] bytes off

end Buffer
