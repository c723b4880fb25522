import Rfofs.Foundation.PolynomialBounds
import Rfofs.Grain.SampleMachine

namespace Rfofs
namespace Grain

open Foundation

/-!
# The sine of the lanes

Without `std-sin` the lanes evaluate a polynomial instead of a sine: a phase is reduced
to the half turn around zero, and an odd polynomial of degree nine is evaluated there by
Horner's rule.  The rounding of the lanes comes from outside; it yields a nearest integer,
and it does not matter which one where there are two.

The coefficients are the values that the program stores, the decimals of its source rounded
to single precision.  The error against the sine is bounded on all phases, with the bound on
the half turn computed from the Bernstein coefficients of the difference of two polynomials.
-/

section Polynomial

variable {R : Type*} [Field R]

/-- The single-precision values of 6.2830887, -41.333252, 81.40014, -74.67622 and
33.168808. -/
def sinC1 : R := 823537 / 2 ^ 17
def sinC3 : R := -(169301 / 2 ^ 12)
def sinC5 : R := 10669279 / 2 ^ 17
def sinC7 : R := -(4893981 / 2 ^ 16)
def sinC9 : R := 2173751 / 2 ^ 16

/-- Sine of a phase in cycles, lane by lane, without `std-sin`.  The phase is reduced to the
half turn around zero first. -/
def polySinCyclesX8 (round : R → R) (phase : F32x8 R) : F32x8 R :=
  let p := phase - fun lane => round (phase lane)
  let p2 := p * p
  let acc := ((((F32x8.splat sinC9).mulAdd p2 (F32x8.splat sinC7)).mulAdd p2
    (F32x8.splat sinC5)).mulAdd p2 (F32x8.splat sinC3)).mulAdd p2 (F32x8.splat sinC1)
  p * acc

/-- The coefficients, the constant first. -/
def sinPoly : List ℚ := [0, sinC1, 0, sinC3, 0, sinC5, 0, sinC7, 0, sinC9]

theorem polySinCyclesX8_lane [CharZero R] (round : R → R) (phase : F32x8 R) (lane : Fin lanes) :
    polySinCyclesX8 round phase lane =
      evalPoly sinPoly (phase lane - round (phase lane)) := by
  simp only [polySinCyclesX8, F32x8.mulAdd, F32x8.splat, Pi.mul_apply, Pi.add_apply,
    Pi.sub_apply, sinPoly, evalPoly, sinC1, sinC3, sinC5, sinC7, sinC9]
  push_cast
  ring

end Polynomial

/-! ## On the half turn -/

/-- A turn, rounded to eight decimals. -/
def nearTau : ℚ := 628318531 / 100000000

/-- What the polynomial leaves of the series. -/
def sinGap : List ℚ := addPoly sinPoly ((sinSeries nearTau 18).map (-1 * ·))

theorem sinGap_within : PiecesWithin sinGap (-1 / 2) (1 / 16) (15 + 1) (172 / 10000000) := by
  decide +kernel

section HalfTurn

variable {p : ℝ} (half : |p| ≤ 1 / 2)

include half

theorem abs_sinPoly_sub_series_le :
    |evalPoly sinPoly p - evalPoly (sinSeries nearTau 18) p| ≤ 172 / 10000000 := by
  rcases abs_le.mp half with ⟨low, high⟩
  have bounded := abs_evalPoly_le_of_pieces (x := p) (by norm_num) (by norm_num) sinGap_within
    (by norm_num; linarith) (by norm_num; linarith)
  rw [sinGap, evalPoly_addPoly, evalPoly_map_mul] at bounded
  norm_num at bounded ⊢
  exact bounded

theorem abs_series_sub_sin_le :
    |evalPoly (sinSeries nearTau 18) p - Real.sin (nearTau * p)| ≤ 3 / 10000000 := by
  have angle : |(nearTau : ℝ) * p| ≤ nearTau / 2 := by
    rw [abs_mul, abs_of_pos (by norm_num [nearTau])]
    have positive : (0 : ℝ) ≤ nearTau := by norm_num [nearTau]
    linarith [mul_le_mul_of_nonneg_left half positive]
  have near : |(nearTau : ℝ) * p| / ((18 : Nat) + 1) ≤ 1 / 2 := by
    refine (div_le_div_of_nonneg_right angle (by norm_num)).trans ?_
    norm_num [nearTau]
  rw [abs_sub_comm]
  calc |Real.sin (nearTau * p) - evalPoly (sinSeries nearTau 18) p|
      ≤ |nearTau * p| ^ 18 / (Nat.factorial 18 : ℝ) * 2 := abs_sin_sub_series_le nearTau near
    _ ≤ (nearTau / 2) ^ 18 / (Nat.factorial 18 : ℝ) * 2 := by gcongr
    _ ≤ 3 / 10000000 := by norm_num [nearTau, Nat.factorial]

theorem abs_sin_nearTau_sub_le :
    |Real.sin (nearTau * p) - Real.sin (p * (2 * Real.pi))| ≤ 1 / 10000000 := by
  have turn : |(nearTau : ℝ) - 2 * Real.pi| ≤ 1 / 10000000 := by
    apply abs_le.mpr
    constructor <;> norm_num [nearTau] <;> linarith [Real.pi_gt_d20, Real.pi_lt_d20]
  calc |Real.sin (nearTau * p) - Real.sin (p * (2 * Real.pi))|
      ≤ |nearTau * p - p * (2 * Real.pi)| := Real.abs_sin_sub_sin_le _ _
    _ = |(nearTau : ℝ) - 2 * Real.pi| * |p| := by rw [mul_comm p, ← sub_mul, abs_mul]
    _ ≤ 1 / 10000000 * (1 / 2) := mul_le_mul turn half (abs_nonneg p) (by norm_num)
    _ ≤ 1 / 10000000 := by norm_num

theorem abs_sinPoly_sub_sin_le :
    |evalPoly sinPoly p - Real.sin (p * (2 * Real.pi))| ≤ 18 / 1000000 := by
  have fitted := abs_sinPoly_sub_series_le half
  have cut := abs_series_sub_sin_le half
  have turned := abs_sin_nearTau_sub_le half
  calc |evalPoly sinPoly p - Real.sin (p * (2 * Real.pi))|
      ≤ |evalPoly sinPoly p - evalPoly (sinSeries nearTau 18) p| +
          |evalPoly (sinSeries nearTau 18) p - Real.sin (p * (2 * Real.pi))| :=
        abs_sub_le _ _ _
    _ ≤ |evalPoly sinPoly p - evalPoly (sinSeries nearTau 18) p| +
          (|evalPoly (sinSeries nearTau 18) p - Real.sin (nearTau * p)| +
            |Real.sin (nearTau * p) - Real.sin (p * (2 * Real.pi))|) := by
        gcongr
        exact abs_sub_le _ _ _
    _ ≤ 18 / 1000000 := by linarith

end HalfTurn

/-! ## On all phases -/

/-- `round` yields a nearest integer; of two that are equally near, it yields any. -/
def RoundsToNearest (round : ℝ → ℝ) : Prop :=
  ∀ x, (∃ k : Int, round x = k) ∧ |x - round x| ≤ 1 / 2

theorem activeSin_sub_int (phase : ℝ) (k : Int) : activeSin (phase - k) = activeSin phase := by
  change Real.sin ((phase - k) * (2 * Real.pi)) = Real.sin (phase * (2 * Real.pi))
  rw [sub_mul, Real.sin_sub_int_mul_two_pi]

/-- The polynomial and the sine of a phase are those of one point of the half turn. -/
theorem reduced_to_half {round : ℝ → ℝ} (nearest : RoundsToNearest round) (phase : F32x8 ℝ)
    (lane : Fin lanes) :
    ∃ p, |p| ≤ 1 / 2 ∧ polySinCyclesX8 round phase lane = evalPoly sinPoly p ∧
      sinCyclesX8 phase lane = Real.sin (p * (2 * Real.pi)) := by
  rcases nearest (phase lane) with ⟨⟨k, integer⟩, half⟩
  refine ⟨phase lane - round (phase lane), half, polySinCyclesX8_lane round phase lane, ?_⟩
  rw [integer]
  exact (activeSin_sub_int (phase lane) k).symm

/-- The polynomial of the lanes is within its documented error of the sine, on every phase
and whatever the lanes round ties to. -/
theorem sinCyclesX8_accurate (round : ℝ → ℝ) (nearest : RoundsToNearest round) (phase : F32x8 ℝ)
    (lane : Fin lanes) :
    |polySinCyclesX8 round phase lane - sinCyclesX8 phase lane| ≤ 18 / 1000000 := by
  rcases reduced_to_half nearest phase lane with ⟨p, half, polynomial, sine⟩
  rw [polynomial, sine]
  exact abs_sinPoly_sub_sin_le half

theorem roundsToNearest_round : RoundsToNearest (fun x => ((round x : Int) : ℝ)) :=
  fun x => ⟨⟨round x, rfl⟩, abs_sub_round x⟩

/-- A phase below zero, more than one turn away. -/
theorem sinCyclesX8_accurate_wrapped :
    |polySinCyclesX8 (fun x => ((round x : Int) : ℝ)) (F32x8.splat (-7 / 3)) ⟨0, by decide⟩ -
      sinCyclesX8 (F32x8.splat (-7 / 3)) ⟨0, by decide⟩| ≤ 18 / 1000000 :=
  sinCyclesX8_accurate _ roundsToNearest_round _ _

end Grain
end Rfofs
