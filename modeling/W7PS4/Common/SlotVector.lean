-- SUMMARY: The slot vector: values in numbered slots, with a stack of free slots.
import Mathlib.Data.List.Basic
import Mathlib.Tactic.Common

/-!
# Slot vectors

`SlotVector` hands out slot numbers. A slot holds a value or is free; the free ones are
on a stack, and the storage doubles when the stack is empty.
-/

namespace Common

structure SlotVector (α : Type) where
  /-- One entry a slot: `values` where `stored_bitset` has the slot's bit. -/
  values : List (Option α)
  /-- `free_list`, its back first. -/
  freeList : List Nat

namespace SlotVector

variable {α : Type}

def valuesCapacity (v : SlotVector α) : Nat := v.values.length

def reserve (v : SlotVector α) (newCapacity : Nat) : SlotVector α :=
  { values := v.values ++ List.replicate (newCapacity - v.valuesCapacity) none
    freeList := List.range' v.valuesCapacity (newCapacity - v.valuesCapacity) ++ v.freeList }

def InitialCapacity : Nat := 2048

def empty : SlotVector α := reserve ⟨[], []⟩ InitialCapacity

/-- `stored_bitset` has a bit for the slot. Asking for another one reads outside of it. -/
def InStorage (v : SlotVector α) (id : Nat) : Prop := id < v.valuesCapacity

instance (v : SlotVector α) (id : Nat) : Decidable (v.InStorage id) := inferInstanceAs (Decidable (_ < _))

/-- The value in a slot of the storage. -/
def get? (v : SlotVector α) (id : Nat) : Option α := v.values[id]?.join

/-- The free slot comes first. -/
def freeValueIndex (v : SlotVector α) : Nat × SlotVector α :=
  let v := if v.freeList.isEmpty then
      v.reserve (if v.valuesCapacity ≠ 0 then v.valuesCapacity * 2 else 1)
    else v
  (v.freeList.headD 0, { v with freeList := v.freeList.tail })

/-- Write to an allocated slot through `operator[]`. -/
def assign (v : SlotVector α) (id : Nat) (a : α) : SlotVector α :=
  { v with values := v.values.set id (some a) }

/-- The new slot comes first. -/
def insert (v : SlotVector α) (a : α) : Nat × SlotVector α :=
  let (index, v) := v.freeValueIndex
  (index, v.assign index a)

/-! ## What is stored -/

variable {id : Nat} {v : SlotVector α} {a b : α}

@[simp] theorem get?_empty : (empty : SlotVector α).get? id = none := by
  simp only [get?, empty, reserve, List.nil_append, List.getElem?_replicate]
  split <;> rfl

theorem get?_reserve {n id : Nat} : (v.reserve n).get? id = v.get? id := by
  simp only [get?, reserve, List.getElem?_append]
  split
  · rfl
  · next h =>
    rw [List.getElem?_eq_none (Nat.le_of_not_lt h), List.getElem?_replicate]
    split <;> rfl

theorem get?_freeValueIndex : (v.freeValueIndex).2.get? id = v.get? id := by
  simp only [freeValueIndex]
  split
  · exact get?_reserve
  · rfl

theorem get?_assign {id i : Nat} (h : (v.assign id a).get? i = some b) :
    b = a ∧ i = id ∨ v.get? i = some b := by
  simp only [get?, assign, List.getElem?_set] at h
  split at h
  · next heq =>
    split at h
    · exact .inl ⟨by simpa using h.symm, heq.symm⟩
    · cases h
  · exact .inr h

theorem get?_insert {i : Nat} (h : (v.insert a).2.get? i = some b) : b = a ∨ v.get? i = some b := by
  cases get?_assign h with
  | inl h => exact .inl h.1
  | inr h => exact .inr (get?_freeValueIndex ▸ h)

theorem get?_assign_self (ha : v.get? id = some a) : (v.assign id b).get? id = some b := by
  have hlt : id < v.values.length := by
    by_contra hge
    simp [get?, List.getElem?_eq_none (Nat.le_of_not_lt hge)] at ha
  simp [get?, assign, hlt]

end SlotVector

end Common
