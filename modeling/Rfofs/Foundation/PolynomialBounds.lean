import Mathlib
import Rfofs.Foundation.Numerals

namespace Rfofs
namespace Foundation

open Finset

/-!
# Bounds of polynomials on an interval

A polynomial with rational coefficients is the list of its coefficients, the constant
first.  On the unit interval it lies between the least and the greatest of its Bernstein
coefficients (`abs_evalPoly_le`), which are rational and can be computed.  An interval is
cut into pieces, each of which is mapped to the unit interval
(`abs_evalPoly_le_of_pieces`); the narrower the pieces, the sharper the bound.

The sine is compared with a piece of its series, which is such a polynomial.
-/

/-! ## Polynomials -/

/-- Polynomials are lists of coefficients, the constant first. -/
def addPoly : List ℚ → List ℚ → List ℚ
  | [], q => q
  | p, [] => p
  | a :: p, b :: q => (a + b) :: addPoly p q

/-- The polynomial `t ↦ p (s + w * t)`.  It maps a piece of the line to the unit interval. -/
def affinePoly (s w : ℚ) : List ℚ → List ℚ
  | [] => []
  | c :: cs =>
      let rest := affinePoly s w cs
      addPoly (c :: rest.map (w * ·)) (rest.map (s * ·))

/-- The Bernstein coefficients of a polynomial, computed by rational arithmetic. -/
def bernsteinCoeff : List ℚ → Nat → ℚ
  | [], _ => 0
  | c :: _, 0 => c
  | c :: cs, j + 1 => c + (j + 1) / cs.length * bernsteinCoeff cs j

section Values

variable {K : Type*} [Field K]

def evalPoly : List ℚ → K → K
  | [], _ => 0
  | c :: cs, x => c + x * evalPoly cs x

/-- The sum in which the values `b` are weighted by the Bernstein polynomials of one
degree. -/
def bernsteinSum (n : Nat) (b : Nat → K) (t : K) : K :=
  ∑ j ∈ range (n + 1), t ^ j * (1 - t) ^ (n - j) * n.choose j * b j

variable [CharZero K]

theorem evalPoly_addPoly (p q : List ℚ) (x : K) :
    evalPoly (addPoly p q) x = evalPoly p x + evalPoly q x := by
  fun_induction addPoly p q with
  | case1 q => rw [evalPoly, zero_add]
  | case2 p nonempty => rw [evalPoly, add_zero]
  | case3 a p b q ih =>
      rw [evalPoly, evalPoly, evalPoly, ih]
      push_cast
      ring

theorem evalPoly_map_mul (a : ℚ) (p : List ℚ) (x : K) :
    evalPoly (p.map (a * ·)) x = a * evalPoly p x := by
  induction p with
  | nil => exact (mul_zero _).symm
  | cons b p ih =>
      rw [List.map_cons, evalPoly, evalPoly, ih]
      push_cast
      ring

theorem evalPoly_affinePoly (s w : ℚ) (p : List ℚ) (t : K) :
    evalPoly (affinePoly s w p) t = evalPoly p (s + w * t) := by
  induction p with
  | nil => rfl
  | cons c p ih =>
      rw [affinePoly, evalPoly_addPoly, evalPoly, evalPoly_map_mul, evalPoly_map_mul, ih,
        evalPoly]
      ring

omit [CharZero K] in
theorem evalPoly_append (p : List ℚ) (c : ℚ) (x : K) :
    evalPoly (p ++ [c]) x = evalPoly p x + c * x ^ p.length := by
  induction p with
  | nil => simp [evalPoly]
  | cons a p ih =>
      rw [List.cons_append, evalPoly, ih, evalPoly, List.length_cons, pow_succ]
      ring

omit [CharZero K] in
theorem evalPoly_map_range (f : Nat → ℚ) (n : Nat) (x : K) :
    evalPoly ((List.range n).map f) x = ∑ m ∈ range n, (f m : K) * x ^ m := by
  induction n with
  | zero => rfl
  | succ n ih =>
      rw [List.range_succ, List.map_append, List.map_singleton, evalPoly_append, ih,
        sum_range_succ, List.length_map, List.length_range]

/-! ## The Bernstein form -/

omit [CharZero K] in
theorem bernsteinSum_const (n : Nat) (c t : K) : bernsteinSum n (fun _ => c) t = c := by
  have whole : t + (1 - t) = 1 := add_sub_cancel t 1
  have binomial := add_pow t (1 - t) n
  rw [whole, one_pow] at binomial
  rw [bernsteinSum, ← sum_mul, ← binomial, one_mul]

omit [CharZero K] in
theorem bernsteinSum_add (n : Nat) (b b' : Nat → K) (t : K) :
    bernsteinSum n (fun j => b j + b' j) t = bernsteinSum n b t + bernsteinSum n b' t := by
  simp only [bernsteinSum, mul_add, sum_add_distrib]

/-- A factor `t` raises the degree by one and weights each value with its index. -/
theorem bernsteinSum_succ (n : Nat) (b : Nat → K) (t : K) :
    bernsteinSum (n + 1) (fun j => (j : K) / ((n : K) + 1) * b (j - 1)) t =
      t * bernsteinSum n b t := by
  have nonzero : (n : K) + 1 ≠ 0 := n.cast_add_one_ne_zero
  rw [bernsteinSum, sum_range_succ', bernsteinSum, mul_sum]
  simp only [Nat.cast_zero, zero_div, zero_mul, mul_zero, add_zero, Nat.add_sub_cancel,
    Nat.add_sub_add_right]
  apply sum_congr rfl
  intro j _
  have absorbed : ((n + 1).choose (j + 1) : K) * ((j : K) + 1) = ((n : K) + 1) * n.choose j := by
    exact_mod_cast (Nat.add_one_mul_choose_eq n j).symm
  have weighted : ((n + 1).choose (j + 1) : K) * (((j : K) + 1) / ((n : K) + 1)) =
      n.choose j := by
    rw [mul_div_assoc', absorbed, mul_div_cancel_left₀ _ nonzero]
  rw [Nat.cast_succ, pow_succ]
  calc t ^ j * t * (1 - t) ^ (n - j) * ((n + 1).choose (j + 1) : K) *
        (((j : K) + 1) / ((n : K) + 1) * b j)
      = t ^ j * t * (1 - t) ^ (n - j) *
          (((n + 1).choose (j + 1) : K) * (((j : K) + 1) / ((n : K) + 1))) * b j := by ring
    _ = t * (t ^ j * (1 - t) ^ (n - j) * n.choose j * b j) := by
        rw [weighted]
        ring

/-- A polynomial is the weighted sum of its Bernstein coefficients. -/
theorem evalPoly_eq_bernsteinSum (c : ℚ) (cs : List ℚ) (t : K) :
    evalPoly (c :: cs) t =
      bernsteinSum cs.length (fun j => (bernsteinCoeff (c :: cs) j : K)) t := by
  induction cs generalizing c with
  | nil => simp [evalPoly, bernsteinSum, bernsteinCoeff]
  | cons c' cs ih =>
      have coefficient : ∀ j : Nat, (bernsteinCoeff (c :: c' :: cs) j : K) =
          (c : K) + (j : K) / ((cs.length : K) + 1) * (bernsteinCoeff (c' :: cs) (j - 1) : K) := by
        intro j
        cases j with
        | zero => simp [bernsteinCoeff]
        | succ j =>
            rw [bernsteinCoeff, List.length_cons, Nat.add_sub_cancel]
            push_cast
            rfl
      simp only [coefficient]
      rw [evalPoly, ih, bernsteinSum_add, bernsteinSum_const, List.length_cons,
        bernsteinSum_succ cs.length (fun j => (bernsteinCoeff (c' :: cs) j : K))]

end Values

/-! ## Bounds -/

section Bounds

variable {K : Type*} [Field K] [LinearOrder K] [IsStrictOrderedRing K]

/-- The weights are not negative and add up to one, so the sum lies within the bound of its
values. -/
theorem abs_bernsteinSum_le {n : Nat} {b : Nat → K} {t B : K} (low : 0 ≤ t) (high : t ≤ 1)
    (bounded : ∀ j < n + 1, |b j| ≤ B) : |bernsteinSum n b t| ≤ B := by
  have rest : 0 ≤ 1 - t := sub_nonneg.mpr high
  calc |bernsteinSum n b t|
      ≤ ∑ j ∈ range (n + 1), |t ^ j * (1 - t) ^ (n - j) * n.choose j * b j| :=
        abs_sum_le_sum_abs _ _
    _ ≤ bernsteinSum n (fun _ => B) t := by
        apply sum_le_sum
        intro j member
        have weight : 0 ≤ t ^ j * (1 - t) ^ (n - j) * (n.choose j : K) := by positivity
        rw [abs_mul, abs_of_nonneg weight]
        exact mul_le_mul_of_nonneg_left (bounded j (mem_range.mp member)) weight
    _ = B := bernsteinSum_const n B t

/-- On the unit interval a polynomial is bounded by its Bernstein coefficients. -/
theorem abs_evalPoly_le {p : List ℚ} {B : ℚ} (positive : 0 ≤ B)
    (bounded : ∀ j < p.length, |bernsteinCoeff p j| ≤ B) {t : K} (low : 0 ≤ t) (high : t ≤ 1) :
    |evalPoly p t| ≤ (B : K) := by
  cases p with
  | nil =>
      rw [evalPoly, abs_zero]
      exact_mod_cast positive
  | cons c cs =>
      rw [evalPoly_eq_bernsteinSum]
      apply abs_bernsteinSum_le low high
      intro j inside
      rw [← Rat.cast_abs]
      exact_mod_cast bounded j inside

theorem length_addPoly (p q : List ℚ) : (addPoly p q).length = max p.length q.length := by
  fun_induction addPoly p q with
  | case1 q => simp
  | case2 p nonempty => simp
  | case3 a p b q ih => simp only [List.length_cons, ih, Nat.add_max_add_right]

theorem length_affinePoly (s w : ℚ) (p : List ℚ) : (affinePoly s w p).length = p.length := by
  induction p with
  | nil => rfl
  | cons c p ih => simp [affinePoly, length_addPoly, ih]

/-- All Bernstein coefficients of the pieces that begin at `a`, of width `w`, lie within
`B`. -/
def PiecesWithin (p : List ℚ) (a w : ℚ) (pieces : Nat) (B : ℚ) : Prop :=
  ∀ k < pieces, ∀ j < p.length, |bernsteinCoeff (affinePoly (a + k * w) w p) j| ≤ B

instance (p : List ℚ) (a w : ℚ) (pieces : Nat) (B : ℚ) : Decidable (PiecesWithin p a w pieces B) :=
  inferInstanceAs (Decidable (∀ k < pieces, ∀ j < p.length,
    |bernsteinCoeff (affinePoly (a + k * w) w p) j| ≤ B))

/-- A polynomial on one piece, mapped to the unit interval. -/
theorem abs_evalPoly_le_on_piece {p : List ℚ} {s w B : ℚ} (wide : 0 < w) (positive : 0 ≤ B)
    (within : ∀ j < p.length, |bernsteinCoeff (affinePoly s w p) j| ≤ B) {x : K}
    (low : (s : K) ≤ x) (high : x ≤ s + w) : |evalPoly p x| ≤ (B : K) := by
  have width : (0 : K) < w := by exact_mod_cast wide
  have coordinate : (s : K) + w * ((x - s) / w) = x := by
    rw [mul_div_cancel₀ _ width.ne', add_sub_cancel]
  rw [← length_affinePoly s w p] at within
  rw [← coordinate, ← evalPoly_affinePoly]
  apply abs_evalPoly_le positive within
  · exact div_nonneg (sub_nonneg.mpr low) width.le
  · rw [div_le_one width]
    exact sub_le_iff_le_add'.mpr high

/-- A polynomial is bounded on an interval if it is on the pieces. -/
theorem abs_evalPoly_le_of_pieces {p : List ℚ} {a w B : ℚ} {last : Nat} (wide : 0 < w)
    (positive : 0 ≤ B) (within : PiecesWithin p a w (last + 1) B) {x : K} (low : (a : K) ≤ x)
    (high : x ≤ a + (last + 1) * w) : |evalPoly p x| ≤ (B : K) := by
  have piece := fun (k : Nat) (inside : k < last + 1) =>
    abs_evalPoly_le_on_piece (K := K) (x := x) wide positive (within k inside)
  push_cast at piece
  induction last with
  | zero =>
      apply piece 0 (Nat.lt_succ_self 0)
      · simpa using low
      · simpa using high
  | succ n ih =>
      by_cases earlier : x ≤ a + (n + 1) * w
      · exact ih (fun k inside => within k (Nat.lt_succ_of_lt inside)) earlier
          (fun k inside => piece k (Nat.lt_succ_of_lt inside))
      · apply piece (n + 1) (Nat.lt_succ_self _)
        · push_cast
          exact (le_of_not_ge earlier)
        · push_cast at high ⊢
          linarith

end Bounds

/-! ## The series of the sine -/

def sinSign : Nat → ℚ
  | 0 => 0
  | 1 => 1
  | m + 2 => -sinSign m

theorem sinSign_eq (m : Nat) : ((Complex.I ^ m).im : ℝ) = sinSign m := by
  induction m using Nat.twoStepInduction with
  | zero => simp [sinSign]
  | one => simp [sinSign]
  | more m ih _ =>
      rw [pow_add, Complex.I_sq, mul_neg_one, Complex.neg_im, ih, sinSign]
      push_cast
      rfl

/-- The first `n` terms of the series of `x ↦ sin (τ * x)`. -/
def sinSeries (τ : ℚ) (n : Nat) : List ℚ :=
  (List.range n).map (fun m => sinSign m * τ ^ m / (m.factorial : ℚ))

/-- The sine and the first terms of its series.  The condition keeps the remainder below twice
its first term. -/
theorem abs_sin_sub_series_le {n : Nat} (τ : ℚ) {x : ℝ} (near : |τ * x| / (n + 1) ≤ 1 / 2) :
    |Real.sin (τ * x) - evalPoly (sinSeries τ n) x| ≤ |τ * x| ^ n / n.factorial * 2 := by
  have size : ‖((τ * x : ℝ) : ℂ) * Complex.I‖ = |τ * x| := by
    rw [norm_mul, Complex.norm_I, mul_one, Complex.norm_real, Real.norm_eq_abs]
  have close := Complex.exp_bound' (x := ((τ * x : ℝ) : ℂ) * Complex.I) (n := n)
    (by rw [size]; exact_mod_cast near)
  rw [size] at close
  refine le_trans ?_ (le_trans (Complex.abs_im_le_norm _) close)
  rw [Complex.sub_im, Complex.exp_ofReal_mul_I_im, Complex.im_sum]
  apply le_of_eq
  congr 2
  rw [sinSeries, evalPoly_map_range]
  apply sum_congr rfl
  intro m _
  have real : (((τ * x : ℝ) : ℂ) * Complex.I) ^ m / (m.factorial : ℂ) =
      (((τ * x) ^ m / (m.factorial : ℝ) : ℝ) : ℂ) * Complex.I ^ m := by
    rw [mul_pow]
    push_cast
    ring
  rw [real, Complex.im_ofReal_mul, sinSign_eq]
  push_cast
  ring

end Foundation
end Rfofs
