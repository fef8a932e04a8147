import Mathlib

/-! Mutable objects with identity: a heap that hands out references in order, so that two components
    holding the same reference see each other's changes, as code that shares an object does. -/

/-- `next` is the reference the next object gets; what lies beyond it means nothing. -/
structure ObjectHeap (α : Type*) where
  next : ℕ
  get : ℕ → α

namespace ObjectHeap

variable {α : Type*}

/-- Create an object; its reference is `h.next`. -/
def alloc (h : ObjectHeap α) (a : α) : ObjectHeap α := ⟨h.next + 1, Function.update h.get h.next a⟩

/-- Change the object behind `r`. -/
def modify (h : ObjectHeap α) (r : ℕ) (f : α → α) : ObjectHeap α :=
  ⟨h.next, Function.update h.get r (f (h.get r))⟩

@[simp] theorem next_alloc (h : ObjectHeap α) (a : α) : (h.alloc a).next = h.next + 1 := rfl
@[simp] theorem next_modify (h : ObjectHeap α) (r : ℕ) (f : α → α) :
    (h.modify r f).next = h.next := rfl

@[simp] theorem get_alloc_self (h : ObjectHeap α) (a : α) : (h.alloc a).get h.next = a := by
  simp [alloc]

theorem get_alloc_of_lt (h : ObjectHeap α) (a : α) {r : ℕ} (hr : r < h.next) :
    (h.alloc a).get r = h.get r := by simp [alloc, Function.update_of_ne (Nat.ne_of_lt hr)]

@[simp] theorem get_modify_self (h : ObjectHeap α) (r : ℕ) (f : α → α) :
    (h.modify r f).get r = f (h.get r) := by simp [modify]

theorem get_modify_of_ne (h : ObjectHeap α) {r r' : ℕ} (f : α → α) (hr : r' ≠ r) :
    (h.modify r f).get r' = h.get r' := by simp [modify, Function.update_of_ne hr]

/-- What no object's change touches is the same for all objects after the change. -/
theorem map_get_modify {β : Type*} (g : α → β) (h : ObjectHeap α) (r r' : ℕ) {f : α → α}
    (hf : ∀ a, g (f a) = g a) : g ((h.modify r f).get r') = g (h.get r') := by
  by_cases hr : r' = r
  · rw [hr, get_modify_self, hf]
  · rw [get_modify_of_ne h f hr]

end ObjectHeap
