import Rfofs.Foundation.CircleGrid
import Rfofs.Grain.Fof
import Rfofs.Grain.SampleMachine

namespace Rfofs
namespace Grain

open Foundation

/-!
# The two sine tables

The carrier oscillator can look its sine up.  One table covers the whole cycle, the
other only its first quarter, and the rest of the cycle is reconstructed from the
symmetry of the sine.  Both are generated before the program is built, from a
function on cycles that is a parameter here; an entry is the exact value of that
function.

A lookup yields nothing when the index lies outside the table, where the program
would stop.  Both tables have one entry more than their cycle has steps.
-/

/-- The full-cycle table has 4096 steps, and one more entry. -/
def tableBits : Nat := 12
def quarterBits : Nat := 10
def tableSize : Nat := 2 ^ tableBits
def tableMask : Nat := tableSize - 1
def quarterSize : Nat := 2 ^ quarterBits

def usizeMax : Nat := 2 ^ 64 - 1

section Tables

variable {R V : Type*} [Field R]

/-- The generated full-cycle table.  Its last entry is the sine of a whole turn, like the
first. -/
def sinTable (S : R → V) : List V :=
  (List.range (tableSize + 1)).map fun i : Nat => S ((i : R) / (tableSize : R))

/-- The generated table of the first quarter of the cycle, with both ends. -/
def quarterTable (S : R → V) : List V :=
  (List.range (quarterSize + 1)).map fun i : Nat => S ((i : R) / (quarterSize : R) * (1 / 4))

theorem sinTable_getElem? (S : R → V) {index : Nat} (inside : index ≤ tableSize) :
    (sinTable S)[index]? = some (S ((index : R) / (tableSize : R))) := by
  rw [sinTable, List.getElem?_map, List.getElem?_range (by omega), Option.map_some]

theorem quarterTable_getElem? (S : R → V) {index : Nat} (inside : index ≤ quarterSize) :
    (quarterTable S)[index]? = some (S ((index : R) / (quarterSize : R) * (1 / 4))) := by
  rw [quarterTable, List.getElem?_map, List.getElem?_range (by omega), Option.map_some]

variable [LinearOrder R] [FloorRing R]

/-- Conversion to an index truncates and saturates. -/
def asUsize (x : R) : Nat := min ⌊x⌋.toNat usizeMax

/-- Nearest neighbour in the full-cycle table.  There is no result where the index lies
outside the table. -/
def fastSin (S : R → V) (phase : R) : Option V :=
  let phase := wrapPhase phase
  let idx := asUsize (phase * (tableSize : R) + 1 / 2) &&& tableMask
  (sinTable S)[idx]?

/-- Nearest neighbour in the quarter table, with the quadrant put back. -/
def fastSinQuarter [Neg V] (S : R → V) (phase : R) : Option V :=
  let phase := wrapPhase phase
  let x := phase * 4
  let quadrant := asU32 x
  let r := x - (quadrant : R)
  let quadrant := quadrant &&& 3
  let fwd := min (asUsize (r * (quarterSize : R) + 1 / 2)) quarterSize
  let idx := if quadrant &&& 1 = 0 then fwd else quarterSize - fwd
  let value := (quarterTable S)[idx]?
  if quadrant &&& 2 = 0 then value else value.map (- ·)

end Tables

/-! ## Indices -/

section Indices

variable {R V : Type*} [Field R] [LinearOrder R] [IsStrictOrderedRing R] [FloorRing R]

/-- The rounded index fits a machine word. -/
theorem asUsize_nearestIndex (phase : R) :
    asUsize (wrapPhase phase * (tableSize : R) + 1 / 2) = nearestIndex tableSize phase := by
  have bounded : nearestIndex tableSize phase ≤ tableSize := nearestIndex_le tableSize phase
  have fits : tableSize ≤ usizeMax := by decide
  exact min_eq_left (bounded.trans fits)

/-- The full-cycle lookup reads the nearest step, the last one as the first.  It always has a
result. -/
theorem fastSin_eq (S : R → V) (phase : R) :
    fastSin S phase = some (S ((nearestIndex tableSize phase % tableSize : Nat) / tableSize)) := by
  have inside : nearestIndex tableSize phase % tableSize ≤ tableSize :=
    (Nat.mod_lt _ (by decide)).le
  have masked : asUsize (wrapPhase phase * (tableSize : R) + 1 / 2) &&& tableMask =
      nearestIndex tableSize phase % tableSize := by
    rw [asUsize_nearestIndex]
    exact Nat.and_two_pow_sub_one_eq_mod _ tableBits
  rw [fastSin, masked, sinTable_getElem? S inside]

/-- The quadrant is the quarter of the cycle the phase lies in; the mask after it
never takes anything away. -/
theorem asU32_quadrant (phase : R) : asU32 (wrapPhase phase * 4) = arcIndex 4 phase := by
  have bounded : arcIndex 4 phase < 4 := arcIndex_lt (by decide) phase
  have fits : 4 ≤ u32Max := by decide
  have small : ⌊Int.fract phase * ((4 : Nat) : R)⌋.toNat ≤ u32Max := by
    change arcIndex 4 phase ≤ u32Max
    omega
  exact min_eq_left small

theorem quadrant_mask (phase : R) : arcIndex 4 phase &&& 3 = arcIndex 4 phase := by
  have bounded : arcIndex 4 phase < 4 := arcIndex_lt (by decide) phase
  rw [show (3 : Nat) = 2 ^ 2 - 1 from rfl, Nat.and_two_pow_sub_one_eq_mod]
  exact Nat.mod_eq_of_lt bounded

/-- Inside the quadrant the rounded index fits too, and the clamp never takes
anything away. -/
theorem fwd_eq_innerIndex (phase : R) :
    min (asUsize ((wrapPhase phase * 4 - (arcIndex 4 phase : R)) * (quarterSize : R) + 1 / 2))
        quarterSize =
      innerIndex 4 quarterSize phase := by
  have bounded : innerIndex 4 quarterSize phase ≤ quarterSize := innerIndex_le 4 quarterSize phase
  have fits : quarterSize ≤ usizeMax := by decide
  have word : asUsize ((wrapPhase phase * 4 - (arcIndex 4 phase : R)) * (quarterSize : R) + 1 / 2) =
      innerIndex 4 quarterSize phase := min_eq_left (bounded.trans fits)
  rw [word, min_eq_left bounded]

/-- The quarter-table lookup, on the arc and the division inside it. -/
theorem fastSinQuarter_eq [Neg V] (S : R → V) (phase : R) :
    fastSinQuarter S phase =
      (let quadrant := arcIndex 4 phase
       let fwd := innerIndex 4 quarterSize phase
       let idx := if quadrant &&& 1 = 0 then fwd else quarterSize - fwd
       let value := some (S ((idx : R) / (quarterSize : R) * (1 / 4)))
       if quadrant &&& 2 = 0 then value else value.map (- ·)) := by
  have bounded : innerIndex 4 quarterSize phase ≤ quarterSize := innerIndex_le 4 quarterSize phase
  have inside : (if arcIndex 4 phase &&& 1 = 0 then innerIndex 4 quarterSize phase
      else quarterSize - innerIndex 4 quarterSize phase) ≤ quarterSize := by
    split
    · exact bounded
    · exact Nat.sub_le _ _
  simp only [fastSinQuarter, asU32_quadrant, quadrant_mask, fwd_eq_innerIndex,
    quarterTable_getElem? S inside]

end Indices

/-! ## The entries of the quarter table -/

section Entries

variable {R V : Type*} [Field R]

/-- The point of the cycle at which a table entry is taken. -/
def tablePoint (index : Nat) : R := (index : R) / (tableSize : R)

variable [CharZero R]

/-- An entry of the quarter table stands at the same point as the entry of that
index in the full table. -/
theorem quarter_tablePoint (index : Nat) :
    (index : R) / (quarterSize : R) * (1 / 4) = tablePoint index := by
  unfold tablePoint
  norm_num [tableSize, quarterSize, tableBits, quarterBits]
  ring

/-- The full-cycle entry `fwd` steps into a quadrant, in terms of the first quarter:
reflected in the odd quadrants, negated in the upper two. -/
theorem tablePoint_quadrant [Neg V] {S : R → V} (reflect : ∀ x, S (1 / 2 - x) = S x)
    (halfTurn : ∀ x, S (x + 1 / 2) = -S x) {fwd : Nat} (inside : fwd ≤ quarterSize) :
    S (tablePoint (1 * quarterSize + fwd)) = S (tablePoint (quarterSize - fwd)) ∧
      S (tablePoint (2 * quarterSize + fwd)) = -S (tablePoint fwd) ∧
      S (tablePoint (3 * quarterSize + fwd)) = -S (tablePoint (quarterSize - fwd)) := by
  have second : (tablePoint (1 * quarterSize + fwd) : R) =
      1 / 2 - tablePoint (quarterSize - fwd) := by
    unfold tablePoint
    rw [Nat.cast_sub inside]
    norm_num [tableSize, quarterSize, tableBits, quarterBits]
    ring
  have third : (tablePoint (2 * quarterSize + fwd) : R) = tablePoint fwd + 1 / 2 := by
    unfold tablePoint
    norm_num [tableSize, quarterSize, tableBits, quarterBits]
    ring
  have fourth : (tablePoint (3 * quarterSize + fwd) : R) =
      tablePoint (1 * quarterSize + fwd) + 1 / 2 := by
    unfold tablePoint
    norm_num [tableSize, quarterSize, tableBits, quarterBits]
    ring
  refine ⟨?_, ?_, ?_⟩
  · rw [second, reflect]
  · rw [third, halfTurn]
  · rw [fourth, halfTurn, second, reflect]

end Entries

/-! ## The sine of the other build

The build without tables takes the sine of the phase in radians.  It has the three
symmetries that the quarter table relies on, and its slope per cycle is one turn. -/

theorem activeSin_periodic : Function.Periodic (activeSin : ℝ → ℝ) 1 := by
  intro phase
  change Real.sin ((phase + 1) * (2 * Real.pi)) = Real.sin (phase * (2 * Real.pi))
  rw [add_mul, one_mul, Real.sin_add_two_pi]

theorem activeSin_reflect (phase : ℝ) : activeSin (1 / 2 - phase) = activeSin phase := by
  change Real.sin ((1 / 2 - phase) * (2 * Real.pi)) = Real.sin (phase * (2 * Real.pi))
  have angle : (1 / 2 - phase) * (2 * Real.pi) = Real.pi - phase * (2 * Real.pi) := by ring
  rw [angle, Real.sin_pi_sub]

theorem activeSin_halfTurn (phase : ℝ) : activeSin (phase + 1 / 2) = -activeSin phase := by
  change Real.sin ((phase + 1 / 2) * (2 * Real.pi)) = -Real.sin (phase * (2 * Real.pi))
  have angle : (phase + 1 / 2) * (2 * Real.pi) = phase * (2 * Real.pi) + Real.pi := by ring
  rw [angle, Real.sin_add_pi]

theorem activeSin_lipschitz (x y : ℝ) :
    |activeSin x - activeSin y| ≤ 2 * Real.pi * |x - y| := by
  have turn : 0 ≤ 2 * Real.pi := by positivity
  calc |Real.sin (x * (2 * Real.pi)) - Real.sin (y * (2 * Real.pi))|
      ≤ |x * (2 * Real.pi) - y * (2 * Real.pi)| := Real.abs_sin_sub_sin_le _ _
    _ = 2 * Real.pi * |x - y| := by rw [← sub_mul, abs_mul, abs_of_nonneg turn, mul_comm]

/-! ## Agreement and error -/

section Lookups

variable {R V : Type*} [Field R] [LinearOrder R] [IsStrictOrderedRing R] [FloorRing R]

/-- The two tables are one function: for every phase both lookups stay inside their
table and read the same value. -/
theorem fastSinQuarter_eq_fastSin [Neg V] (S : R → V) (periodic : Function.Periodic S 1)
    (reflect : ∀ x, S (1 / 2 - x) = S x) (halfTurn : ∀ x, S (x + 1 / 2) = -S x) (phase : R) :
    ∃ value, fastSin S phase = some value ∧ fastSinQuarter S phase = some value := by
  refine ⟨_, fastSin_eq S phase, ?_⟩
  have nonzero : (tableSize : R) ≠ 0 := Nat.cast_ne_zero.mpr (by decide)
  have quadrants : arcIndex 4 phase < 4 := arcIndex_lt (by decide) phase
  have inside : innerIndex 4 quarterSize phase ≤ quarterSize := innerIndex_le 4 quarterSize phase
  have index : nearestIndex tableSize phase =
      arcIndex 4 phase * quarterSize + innerIndex 4 quarterSize phase :=
    nearestIndex_split 4 quarterSize phase
  rw [periodic_div_mod periodic nonzero, index, fastSinQuarter_eq]
  generalize innerIndex 4 quarterSize phase = fwd at inside ⊢
  rcases tablePoint_quadrant reflect halfTurn inside with ⟨second, third, fourth⟩
  simp only [quarter_tablePoint]
  change _ = some (S (tablePoint (arcIndex 4 phase * quarterSize + fwd)))
  interval_cases quadrant : arcIndex 4 phase
  · simp
  · simpa using second.symm
  · simpa using third.symm
  · simpa using fourth.symm

/-- The two lookups of the real sine agree on the last half step of a cycle, reached
from below zero. -/
theorem fastSinQuarter_eq_fastSin_below_zero :
    ∃ value, fastSin (activeSin : ℝ → ℝ) (-1 / 16384) = some value ∧
      fastSinQuarter (activeSin : ℝ → ℝ) (-1 / 16384) = some value :=
  fastSinQuarter_eq_fastSin activeSin activeSin_periodic activeSin_reflect activeSin_halfTurn _

/-- The lookup is half a step of the table away from the phase at most, so its error
is half a step of the function's slope; the last half step of the cycle, which the
mask sends to the first entry, is no exception. -/
theorem abs_fastSin_sub_le (S : R → R) (K : R) (periodic : Function.Periodic S 1)
    (lipschitz : ∀ x y, |S x - S y| ≤ K * |x - y|) (phase : R) :
    ∃ value, fastSin S phase = some value ∧ |value - S phase| ≤ K / (2 * (tableSize : R)) := by
  refine ⟨_, fastSin_eq S phase, ?_⟩
  have nonzero : (tableSize : R) ≠ 0 := Nat.cast_ne_zero.mpr (by decide)
  have slope : 0 ≤ K := by
    have unit := (abs_nonneg _).trans (lipschitz 1 0)
    rwa [sub_zero, abs_one, mul_one] at unit
  have near : |(nearestIndex tableSize phase : R) / tableSize - Int.fract phase| ≤
      1 / (2 * (tableSize : R)) := by
    rw [abs_sub_comm]
    exact abs_fract_sub_nearest (by decide) phase
  rw [periodic_div_mod periodic nonzero, ← periodic_fract periodic phase]
  calc |S (nearestIndex tableSize phase / tableSize) - S (Int.fract phase)|
      ≤ K * |(nearestIndex tableSize phase : R) / tableSize - Int.fract phase| := lipschitz _ _
    _ ≤ K * (1 / (2 * (tableSize : R))) := mul_le_mul_of_nonneg_left near slope
    _ = K / (2 * (tableSize : R)) := mul_one_div _ _

/-- On the last half step of a cycle, reached from below zero, the table lookup is
within half a step of the real sine. -/
theorem abs_fastSin_sub_le_below_zero :
    ∃ value, fastSin (activeSin : ℝ → ℝ) (-1 / 16384) = some value ∧
      |value - activeSin (-1 / 16384)| ≤ 2 * Real.pi / (2 * ((tableSize : Nat) : ℝ)) :=
  abs_fastSin_sub_le activeSin (2 * Real.pi) activeSin_periodic activeSin_lipschitz _

end Lookups

end Grain
end Rfofs
