import Mathlib.Data.List.Basic
import Mathlib.Algebra.Order.BigOperators.Group.List

/-!
# Bounded queues

A queue that never holds more than its capacity: the bound is part of the value. An operation that
would break it is not offered: pushing onto a full queue has no result.
-/

namespace CppUtils

/-- A queue of at most `capacity` items, oldest first. -/
structure BoundedQueue (α : Type*) (capacity : ℕ) where
  items : List α
  length_le : items.length ≤ capacity

namespace BoundedQueue

variable {α : Type*} {capacity : ℕ} {q q' : BoundedQueue α capacity} {x : α}

@[ext] theorem ext (h : q.items = q'.items) : q = q' := by
  cases q
  cases q'
  simpa using h

def empty : BoundedQueue α capacity := ⟨[], Nat.zero_le _⟩

@[simp] theorem items_empty : (empty : BoundedQueue α capacity).items = [] := rfl

/-- The queue with one more item at its end; none when it is full. -/
def pushBack (q : BoundedQueue α capacity) (x : α) : Option (BoundedQueue α capacity) :=
  if h : q.items.length < capacity then
    some ⟨q.items ++ [x], by simpa using Nat.succ_le_of_lt h⟩
  else
    none

/-- The oldest item and the queue without it; none when the queue is empty. -/
def popFront : BoundedQueue α capacity → Option (α × BoundedQueue α capacity)
  | ⟨[], _⟩ => none
  | ⟨x :: xs, h⟩ => some (x, ⟨xs, (Nat.le_succ _).trans h⟩)

def eraseIf (q : BoundedQueue α capacity) (p : α → Bool) : BoundedQueue α capacity :=
  ⟨q.items.filter fun x => !p x, (List.length_filter_le _ _).trans q.length_le⟩

@[simp] theorem items_eraseIf (p : α → Bool) :
    (q.eraseIf p).items = q.items.filter fun x => !p x := rfl

theorem pushBack_eq_some (h : q.pushBack x = some q') : q'.items = q.items ++ [x] := by
  unfold pushBack at h
  split at h
  · rw [← Option.some.inj h]
  · cases h

theorem pushBack_eq_none : q.pushBack x = none ↔ capacity ≤ q.items.length := by
  unfold pushBack
  split <;> simp <;> omega

theorem popFront_eq_some (h : q.popFront = some (x, q')) : q.items = x :: q'.items := by
  unfold popFront at h
  split at h
  · cases h
  · cases h
    rfl

theorem popFront_eq_none : q.popFront = none ↔ q.items = [] := by
  unfold popFront
  split <;> simp

end BoundedQueue

end CppUtils
