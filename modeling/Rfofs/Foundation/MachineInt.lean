import Mathlib

namespace Rfofs
namespace Foundation

/-!
# Fixed-width unsigned arithmetic on natural numbers

Machine words are natural numbers below `2 ^ width`.  Three readings of an
operation are kept apart, as the languages that use them do: the *checked* one
fails on overflow, the *wrapping* one reduces modulo `2 ^ width`, and the exact
one is ordinary arithmetic.  Each lemma says under which bound two of these
readings agree, so a development that computes with exact numbers can state its
absence of overflow as an equation with the checked reading.

The last section is about counters that are never reduced by hand.  Two such
counters are compared through their wrapped difference, and index an array whose
length divides `2 ^ width`; both uses agree with the unbounded counters.
-/

/-! ## Checked operations -/

/-- Addition that fails when the sum does not fit. -/
def checkedAdd (width a b : Nat) : Option Nat :=
  if a + b < 2 ^ width then some (a + b) else none

/-- Subtraction that fails below zero. -/
def checkedSub (a b : Nat) : Option Nat :=
  if b ≤ a then some (a - b) else none

/-- Multiplication that fails when the product does not fit. -/
def checkedMul (width a b : Nat) : Option Nat :=
  if a * b < 2 ^ width then some (a * b) else none

theorem checkedAdd_eq_some {width a b : Nat} (fits : a + b < 2 ^ width) :
    checkedAdd width a b = some (a + b) := if_pos fits

theorem checkedSub_eq_some {a b : Nat} (ordered : b ≤ a) :
    checkedSub a b = some (a - b) := if_pos ordered

theorem checkedMul_eq_some {width a b : Nat} (fits : a * b < 2 ^ width) :
    checkedMul width a b = some (a * b) := if_pos fits

/-! ## Wrapping operations -/

/-- Addition modulo the word size. -/
def wrappingAdd (width a b : Nat) : Nat := (a + b) % 2 ^ width

/-- Subtraction modulo the word size. -/
def wrappingSub (width a b : Nat) : Nat := (a + (2 ^ width - b % 2 ^ width)) % 2 ^ width

theorem wrappingAdd_eq {width a b : Nat} (fits : a + b < 2 ^ width) :
    wrappingAdd width a b = a + b := Nat.mod_eq_of_lt fits

/-! ## Counters that wrap -/

/-- Incrementing a wrapped counter wraps the incremented counter. -/
theorem wrappingAdd_mod (width a b : Nat) :
    wrappingAdd width (a % 2 ^ width) b = (a + b) % 2 ^ width := by
  unfold wrappingAdd
  rw [Nat.mod_add_mod]

/-- The wrapped difference of two wrapped counters is their difference modulo the
word size, however often each of them has wrapped. -/
theorem wrappingSub_mod (width : Nat) {low high : Nat} (ordered : low ≤ high) :
    wrappingSub width (high % 2 ^ width) (low % 2 ^ width) = (high - low) % 2 ^ width := by
  unfold wrappingSub
  have positive := Nat.two_pow_pos width
  generalize 2 ^ width = size at positive ⊢
  rw [Nat.mod_mod, Nat.mod_add_mod]
  have lowSplit := Nat.div_add_mod low size
  have lowBound := Nat.mod_lt low positive
  have shifted : high + (size - low % size) = (high - low) + size * (low / size + 1) := by
    rw [Nat.mul_add, Nat.mul_one]
    omega
  rw [shifted, Nat.add_mul_mod_self_left]

/-- While the counters stay closer than the word size the wrapped difference is
the difference. -/
theorem wrappingSub_mod_of_lt {width low high : Nat} (ordered : low ≤ high)
    (near : high - low < 2 ^ width) :
    wrappingSub width (high % 2 ^ width) (low % 2 ^ width) = high - low := by
  rw [wrappingSub_mod width ordered, Nat.mod_eq_of_lt near]

/-- Two counters closer than the word size agree once wrapped only when equal. -/
theorem mod_eq_mod_iff_of_near {size low high : Nat} (ordered : low ≤ high)
    (near : high - low < size) : low % size = high % size ↔ low = high := by
  constructor
  · intro same
    have divides : size ∣ high - low := (Nat.modEq_iff_dvd' ordered).mp same
    have zero := Nat.eq_zero_of_dvd_of_lt divides near
    omega
  · rintro rfl
    rfl

/-- An array whose length divides the word size is indexed by the wrapped counter
exactly as by the counter itself. -/
theorem mod_mod_of_capacity_dvd {capacity size : Nat} (divides : capacity ∣ size) (count : Nat) :
    count % size % capacity = count % capacity :=
  Nat.mod_mod_of_dvd count divides

/-- Every residue occurs in every window of one period. -/
theorem exists_mod_eq_in_window {size : Nat} (positive : 0 < size) (low residue : Nat) :
    ∃ count, low ≤ count ∧ count < low + size ∧ count % size = residue % size := by
  have lowSplit := Nat.div_add_mod low size
  have lowBound := Nat.mod_lt low positive
  have bound := Nat.mod_lt residue positive
  by_cases ahead : low % size ≤ residue % size
  · refine ⟨low + (residue % size - low % size), by omega, by omega, ?_⟩
    have shifted : low + (residue % size - low % size) =
        size * (low / size) + residue % size := by omega
    rw [shifted, Nat.mul_add_mod, Nat.mod_mod]
  · refine ⟨low + (size + residue % size - low % size), by omega, by omega, ?_⟩
    have shifted : low + (size + residue % size - low % size) =
        size * (low / size + 1) + residue % size := by
      rw [Nat.mul_add, Nat.mul_one]
      omega
    rw [shifted, Nat.mul_add_mod, Nat.mod_mod]

end Foundation
end Rfofs
