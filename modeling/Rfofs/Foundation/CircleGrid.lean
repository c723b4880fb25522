import Rfofs.Foundation.Numerals

namespace Rfofs
namespace Foundation

/-!
# Nearest point of a grid on the circle

A point of the circle is an element of an ordered field with floors, read modulo
one.  The circle is divided into `points` equal arcs, and a point is sent to the
nearest division: its fractional part is scaled, a half is added, and the floor is
taken.  The index so obtained lies between zero and `points`, both included, and
its two ends name the same division.

The same index can be found in two steps, first the large arc a point lies in and
then the division inside it.  `nearestIndex_split` says that the two ways round
alike everywhere, at the half steps and at the ends of the large arcs too.
-/

section Index

variable {K : Type*} [Field K] [LinearOrder K] [IsStrictOrderedRing K] [FloorRing K]

/-- The division nearest to the fractional part of `x`, halves rounded up.  The last one is
the whole turn. -/
def nearestIndex (points : Nat) (x : K) : Nat := ⌊Int.fract x * points + 1 / 2⌋.toNat

theorem nearestIndex_floor_nonneg (points : Nat) (x : K) :
    0 ≤ ⌊Int.fract x * (points : K) + 1 / 2⌋ := by
  have fraction := Int.fract_nonneg x
  exact Int.floor_nonneg.mpr (by positivity)

/-- The natural number is the integer that was rounded. -/
theorem nearestIndex_cast (points : Nat) (x : K) :
    ((nearestIndex points x : Nat) : Int) = ⌊Int.fract x * (points : K) + 1 / 2⌋ :=
  Int.toNat_of_nonneg (nearestIndex_floor_nonneg points x)

/-- The index of a point is `points` at most, and `points` itself does occur: it is
the last half step of the circle. -/
theorem nearestIndex_le (points : Nat) (x : K) : nearestIndex points x ≤ points := by
  have fraction := Int.fract_lt_one x
  have scaled : Int.fract x * (points : K) ≤ points :=
    mul_le_of_le_one_left (Nat.cast_nonneg points) fraction.le
  have below : Int.fract x * (points : K) + 1 / 2 < ((points + 1 : Int) : K) := by
    push_cast
    linarith
  have floored := Int.floor_lt.mpr below
  have cast := nearestIndex_cast points x
  omega

/-- The nearest division is half an arc away at most. -/
theorem abs_fract_sub_nearest {points : Nat} (positive : 0 < points) (x : K) :
    |Int.fract x - (nearestIndex points x : K) / points| ≤ 1 / (2 * points) := by
  have size : (0 : K) < points := Nat.cast_pos.mpr positive
  have index : (nearestIndex points x : K) = (round (Int.fract x * (points : K)) : K) := by
    rw [round_eq, ← nearestIndex_cast, Int.cast_natCast]
  have scaled : Int.fract x - (nearestIndex points x : K) / points =
      (Int.fract x * points - round (Int.fract x * (points : K))) / points := by
    rw [index]
    field_simp
  rw [scaled, abs_div, abs_of_pos size, div_le_iff₀ size]
  calc |Int.fract x * points - round (Int.fract x * (points : K))|
      ≤ 1 / 2 := abs_sub_round _
    _ = 1 / (2 * points) * points := by field_simp

end Index

/-! ## In two steps -/

section Split

variable {K : Type*} [Field K] [LinearOrder K] [IsStrictOrderedRing K] [FloorRing K]

/-- The large arc of a point, when the circle has `arcs` of them. -/
def arcIndex (arcs : Nat) (x : K) : Nat := ⌊Int.fract x * arcs⌋.toNat

/-- The fraction of its large arc that lies before a point. -/
def arcFraction (arcs : Nat) (x : K) : K := Int.fract x * arcs - (arcIndex arcs x : K)

theorem arcIndex_cast (arcs : Nat) (x : K) :
    ((arcIndex arcs x : Nat) : Int) = ⌊Int.fract x * (arcs : K)⌋ := by
  have fraction := Int.fract_nonneg x
  exact Int.toNat_of_nonneg (Int.floor_nonneg.mpr (by positivity))

theorem arcIndex_lt {arcs : Nat} (positive : 0 < arcs) (x : K) : arcIndex arcs x < arcs := by
  have size : (0 : K) < arcs := Nat.cast_pos.mpr positive
  have below : Int.fract x * (arcs : K) < ((arcs : Int) : K) := by
    rw [Int.cast_natCast]
    exact mul_lt_of_lt_one_left size (Int.fract_lt_one x)
  have floored := Int.floor_lt.mpr below
  have cast := arcIndex_cast arcs x
  omega

/-- What lies before a point in its large arc is a fraction of the arc. -/
theorem arcFraction_eq_fract (arcs : Nat) (x : K) :
    arcFraction arcs x = Int.fract (Int.fract x * (arcs : K)) := by
  have floor : (arcIndex arcs x : K) = (⌊Int.fract x * (arcs : K)⌋ : Int) := by
    rw [← arcIndex_cast, Int.cast_natCast]
  rw [arcFraction, floor, Int.self_sub_floor]

theorem arcFraction_nonneg (arcs : Nat) (x : K) : 0 ≤ arcFraction arcs x := by
  rw [arcFraction_eq_fract]
  exact Int.fract_nonneg _

theorem arcFraction_lt_one (arcs : Nat) (x : K) : arcFraction arcs x < 1 := by
  rw [arcFraction_eq_fract]
  exact Int.fract_lt_one _

/-- The division inside the large arc, rounded there. -/
def innerIndex (arcs perArc : Nat) (x : K) : Nat :=
  ⌊arcFraction arcs x * perArc + 1 / 2⌋.toNat

theorem innerIndex_cast (arcs perArc : Nat) (x : K) :
    ((innerIndex arcs perArc x : Nat) : Int) = ⌊arcFraction arcs x * (perArc : K) + 1 / 2⌋ := by
  have fraction := arcFraction_nonneg arcs x
  exact Int.toNat_of_nonneg (Int.floor_nonneg.mpr (by positivity))

/-- Rounding inside the large arc and rounding on the whole circle give the same
division: the divisions before the arc are a whole number, which the floor lets
through. -/
theorem nearestIndex_split (arcs perArc : Nat) (x : K) :
    nearestIndex (arcs * perArc) x = arcIndex arcs x * perArc + innerIndex arcs perArc x := by
  have argument : Int.fract x * ((arcs * perArc : Nat) : K) + 1 / 2 =
      arcFraction arcs x * (perArc : K) + 1 / 2 + ((arcIndex arcs x * perArc : Nat) : K) := by
    unfold arcFraction
    push_cast
    ring
  have floors : ⌊Int.fract x * ((arcs * perArc : Nat) : K) + 1 / 2⌋ =
      ⌊arcFraction arcs x * (perArc : K) + 1 / 2⌋ + ((arcIndex arcs x * perArc : Nat) : Int) := by
    rw [argument, Int.floor_add_natCast]
  rw [← nearestIndex_cast, ← innerIndex_cast] at floors
  omega

/-- The index inside the arc does not leave it. -/
theorem innerIndex_le (arcs perArc : Nat) (x : K) : innerIndex arcs perArc x ≤ perArc := by
  have scaled : arcFraction arcs x * (perArc : K) ≤ perArc :=
    mul_le_of_le_one_left (Nat.cast_nonneg perArc) (arcFraction_lt_one arcs x).le
  have below : arcFraction arcs x * (perArc : K) + 1 / 2 < ((perArc + 1 : Int) : K) := by
    push_cast
    linarith
  have floored := Int.floor_lt.mpr below
  have cast := innerIndex_cast arcs perArc x
  omega

end Split

/-! ## Functions on the circle -/

section Periodic

variable {K V : Type*} [Field K]

/-- Reducing an index modulo the number of divisions does not move its point. -/
theorem periodic_div_mod {S : K → V} (periodic : Function.Periodic S 1) {points : Nat}
    (nonzero : (points : K) ≠ 0) (index : Nat) :
    S ((index % points : Nat) / points) = S (index / points) := by
  have split : (index : K) / points = (index % points : Nat) / points + (index / points : Nat) := by
    have parts : ((index % points + points * (index / points) : Nat) : K) = index := by
      rw [Nat.mod_add_div]
    rw [← parts]
    push_cast
    field_simp
  have turned := periodic.nat_mul (index / points) ((index % points : Nat) / points)
  rw [mul_one] at turned
  rw [split, turned]

/-- A function on the circle is determined by the fractional part. -/
theorem periodic_fract [LinearOrder K] [IsStrictOrderedRing K] [FloorRing K] {S : K → V}
    (periodic : Function.Periodic S 1) (x : K) : S (Int.fract x) = S x := by
  have turned := periodic.sub_int_mul_eq ⌊x⌋ (x := x)
  rw [mul_one] at turned
  exact turned

end Periodic

end Foundation
end Rfofs
