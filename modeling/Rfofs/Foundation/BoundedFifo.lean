import Mathlib

namespace Rfofs
namespace Foundation

/-!
# A bounded first-in first-out buffer

The buffer between two parties: one pushes at the back and is refused exactly
when the buffer is full, the other looks at and removes the front.  The bound is
a field, so a buffer that holds more than its capacity cannot be built.
-/

/-- A queue that never holds more than its capacity; the bound is a field, so an overfull one
cannot be built. -/
@[ext] structure BoundedFifo (X : Type*) where
  capacity : Nat
  items : List X
  bounded : items.length ≤ capacity

namespace BoundedFifo

variable {X : Type*}

def empty (capacity : Nat) : BoundedFifo X := ⟨capacity, [], Nat.zero_le capacity⟩

/-- Append at the back, or return the refused item when the buffer is full. -/
def push (fifo : BoundedFifo X) (item : X) : Except X (BoundedFifo X) :=
  if room : fifo.items.length < fifo.capacity then
    .ok ⟨fifo.capacity, fifo.items ++ [item], by rw [List.length_append]; exact room⟩
  else
    .error item

/-- Remove the front, if there is one. -/
def pop (fifo : BoundedFifo X) : Option (X × BoundedFifo X) :=
  match fifo with
  | ⟨_, [], _⟩ => none
  | ⟨capacity, item :: rest, bounded⟩ =>
      some (item, ⟨capacity, rest, Nat.le_trans (Nat.le_succ _) bounded⟩)

/-- Keep a suffix of the contents: what several removals in a row leave. -/
def keep (fifo : BoundedFifo X) (rest : List X) (shorter : rest.length ≤ fifo.items.length) :
    BoundedFifo X :=
  ⟨fifo.capacity, rest, Nat.le_trans shorter fifo.bounded⟩

@[simp] theorem empty_items (capacity : Nat) : (empty capacity : BoundedFifo X).items = [] := rfl

@[simp] theorem empty_capacity (capacity : Nat) :
    (empty capacity : BoundedFifo X).capacity = capacity := rfl

@[simp] theorem keep_items (fifo : BoundedFifo X) (rest : List X)
    (shorter : rest.length ≤ fifo.items.length) : (fifo.keep rest shorter).items = rest := rfl

@[simp] theorem keep_capacity (fifo : BoundedFifo X) (rest : List X)
    (shorter : rest.length ≤ fifo.items.length) :
    (fifo.keep rest shorter).capacity = fifo.capacity := rfl

/-- A push either appends to a buffer with room or refuses at a full one. -/
theorem push_cases (fifo : BoundedFifo X) (item : X) :
    (∃ next, fifo.push item = .ok next ∧ next.items = fifo.items ++ [item] ∧
      next.capacity = fifo.capacity ∧ fifo.items.length < fifo.capacity) ∨
    (fifo.push item = .error item ∧ fifo.items.length = fifo.capacity) := by
  by_cases room : fifo.items.length < fifo.capacity
  · exact Or.inl ⟨_, dif_pos room, rfl, rfl, room⟩
  · exact Or.inr ⟨dif_neg room, Nat.le_antisymm fifo.bounded (Nat.le_of_not_lt room)⟩

theorem push_ok {fifo next : BoundedFifo X} {item : X} (pushed : fifo.push item = .ok next) :
    next.items = fifo.items ++ [item] ∧ next.capacity = fifo.capacity := by
  rcases push_cases fifo item with ⟨other, equal, items, capacity, _⟩ | ⟨refused, _⟩
  · rw [equal] at pushed
    cases pushed
    exact ⟨items, capacity⟩
  · rw [refused] at pushed
    cases pushed

theorem pop_eq_none {fifo : BoundedFifo X} : fifo.pop = none ↔ fifo.items = [] := by
  rcases fifo with ⟨capacity, items, bounded⟩
  cases items <;> simp [pop]

theorem pop_eq_some {fifo next : BoundedFifo X} {item : X} (popped : fifo.pop = some (item, next)) :
    fifo.items = item :: next.items ∧ next.capacity = fifo.capacity := by
  rcases fifo with ⟨capacity, items, bounded⟩
  cases items with
  | nil => cases popped
  | cons head rest =>
      cases popped
      exact ⟨rfl, rfl⟩

theorem push_eq_ok {fifo next : BoundedFifo X} {item : X}
    (room : fifo.items.length < fifo.capacity) (capacity : next.capacity = fifo.capacity)
    (items : next.items = fifo.items ++ [item]) : fifo.push item = .ok next := by
  rcases push_cases fifo item with ⟨other, equal, otherItems, otherCapacity, _⟩ | ⟨_, full⟩
  · rw [equal, BoundedFifo.ext (capacity.trans otherCapacity.symm) (items.trans otherItems.symm)]
  · omega

theorem push_eq_error {fifo : BoundedFifo X} (full : fifo.items.length = fifo.capacity)
    (item : X) : fifo.push item = .error item := by
  rcases push_cases fifo item with ⟨_, _, _, _, room⟩ | ⟨refused, _⟩
  · omega
  · exact refused

theorem pop_eq {fifo next : BoundedFifo X} {item : X} (capacity : next.capacity = fifo.capacity)
    (items : fifo.items = item :: next.items) : fifo.pop = some (item, next) := by
  rcases fifo with ⟨size, content, bounded⟩
  rcases next with ⟨nextSize, rest, nextBounded⟩
  cases capacity
  cases items
  rfl

end BoundedFifo
end Foundation
end Rfofs
