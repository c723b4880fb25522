import Rfofs.Grain.Naive
import Rfofs.Grain.SampleMachine

namespace Rfofs
namespace Grain

/-!
# The carrier as an oscillator

The reference advances its carrier at every sample: the frequency is added to the
phase, the phase is wrapped, and the frequency is multiplied by the glissando factor.
The grain evaluates its carrier from the sample counter alone, and never wraps it.
Between the two stands the sum of the frequencies, a geometric series that collapses
to a line when the factor is one.
-/

variable {R : Type*} [Field R]

/-- The phase that the oscillator has accumulated after `t` samples, in cycles and
without any wrapping. -/
def accumulatedPhase (f logFFactor sampleRate : R) (t : Nat) : R :=
  ∑ i ∈ Finset.range t, f * logFFactor ^ i / sampleRate

/-- Without glissando the series is a line. -/
theorem accumulatedPhase_one (f sampleRate : R) (t : Nat) :
    accumulatedPhase f 1 sampleRate t = f / sampleRate * (t : R) := by
  simp only [accumulatedPhase, one_pow, mul_one, Finset.sum_const, Finset.card_range,
    nsmul_eq_mul]
  exact mul_comm _ _

/-- With glissando it is a geometric series. -/
theorem accumulatedPhase_of_ne_one {logFFactor : R} (gliss : logFFactor - 1 ≠ 0)
    (f sampleRate : R) (t : Nat) :
    accumulatedPhase f logFFactor sampleRate t =
      f / sampleRate / (logFFactor - 1) * (logFFactor ^ t - 1) := by
  have series := geom_sum_eq (sub_ne_zero.mp gliss) t
  calc accumulatedPhase f logFFactor sampleRate t
      = f / sampleRate * ∑ i ∈ Finset.range t, logFFactor ^ i := by
        rw [accumulatedPhase, Finset.mul_sum]
        exact Finset.sum_congr rfl fun i _ => div_mul_eq_mul_div _ _ _ |>.symm
    _ = f / sampleRate / (logFFactor - 1) * (logFFactor ^ t - 1) := by
        rw [series]
        ring

/-! ## The oscillator -/

section Iteration

variable [LinearOrder R] [FloorRing R]

/-- Wrapping takes a whole number of turns away.  A sine of period one does not see it. -/
theorem wrapPhase_turns (phase : R) : ∃ turns : Int, phase = wrapPhase phase + (turns : R) :=
  ⟨⌊phase⌋, (sub_add_cancel phase _).symm⟩

namespace NaiveRef

theorem iterate_advance_frequency (s : NaiveRef R) (sampleRate : R) (t : Nat) :
    ((fun osc => osc.advance sampleRate)^[t] s).logFFactor = s.logFFactor ∧
      ((fun osc => osc.advance sampleRate)^[t] s).fCurrent = s.fCurrent * s.logFFactor ^ t := by
  induction t with
  | zero => exact ⟨rfl, by rw [pow_zero, mul_one]; rfl⟩
  | succ t ih =>
      rcases ih with ⟨factor, frequency⟩
      rw [Function.iterate_succ_apply']
      refine ⟨factor, ?_⟩
      change ((fun osc => osc.advance sampleRate)^[t] s).fCurrent *
        ((fun osc => osc.advance sampleRate)^[t] s).logFFactor = _
      rw [factor, frequency, pow_succ, mul_assoc]

/-- The oscillator stands a whole number of turns behind the accumulated phase: each
sample adds one term of the series and takes away the turns of one wrapping. -/
theorem iterate_advance_phase (s : NaiveRef R) (sampleRate : R) (t : Nat) :
    ∃ turns : Int,
      s.carrierPhase + accumulatedPhase s.fCurrent s.logFFactor sampleRate t =
        ((fun osc => osc.advance sampleRate)^[t] s).carrierPhase + (turns : R) := by
  induction t with
  | zero => exact ⟨0, by rw [accumulatedPhase, Finset.range_zero, Finset.sum_empty, Int.cast_zero]; rfl⟩
  | succ t ih =>
      rcases ih with ⟨turns, behind⟩
      have frequency := (iterate_advance_frequency s sampleRate t).2
      generalize reached : (fun osc => NaiveRef.advance osc sampleRate)^[t] s = osc at behind frequency
      rcases wrapPhase_turns (osc.carrierPhase + osc.fCurrent / sampleRate) with ⟨wrapped, turned⟩
      refine ⟨turns + wrapped, ?_⟩
      have next : ((fun osc => osc.advance sampleRate)^[t + 1] s).carrierPhase =
          wrapPhase (osc.carrierPhase + osc.fCurrent / sampleRate) := by
        rw [Function.iterate_succ_apply', reached]
        rfl
      calc s.carrierPhase + accumulatedPhase s.fCurrent s.logFFactor sampleRate (t + 1)
          = s.carrierPhase + accumulatedPhase s.fCurrent s.logFFactor sampleRate t +
              osc.fCurrent / sampleRate := by
            rw [accumulatedPhase, Finset.sum_range_succ, frequency, ← add_assoc]
            rfl
        _ = osc.carrierPhase + osc.fCurrent / sampleRate + (turns : R) := by
            rw [behind]
            ring
        _ = ((fun osc => osc.advance sampleRate)^[t + 1] s).carrierPhase +
              ((turns + wrapped : Int) : R) := by
            rw [next, Int.cast_add]
            linear_combination turned

end NaiveRef

end Iteration

/-! ## The grain -/

section Carrier

variable [RealOps R]

/-- The exponential of a multiple is a power. -/
theorem ExpLaws.exp_nat_mul (laws : ExpLaws R) (expZero : exp (0 : R) = 1) (x : R) (t : Nat) :
    exp ((t : R) * x) = exp x ^ t := by
  induction t with
  | zero => rw [Nat.cast_zero, zero_mul, expZero, pow_zero]
  | succ t ih => rw [Nat.cast_succ, add_mul, one_mul, laws.exp_add, ih, pow_succ]

variable [LinearOrder R] [FloorRing R]

/-- The closed form of a spawned grain is its first phase and the accumulated phase,
on the path that the grain has chosen for itself. -/
theorem spawn_carrierPhaseAt (laws : ExpLaws R) (expZero : exp (0 : R) = 1)
    (params : FofParams R) (sampleRate : R) (t : Nat) :
    (FofState.spawn params sampleRate).carrierPhaseAt
        (FofState.spawn params sampleRate).hasGliss t =
      wrapPhase (params.phi / RealOps.tau) + accumulatedPhase params.f
        (exp (params.gliss * RealOps.ln2 / sampleRate)) sampleRate t := by
  have power := laws.exp_nat_mul expZero (params.gliss * RealOps.ln2 / sampleRate) t
  have denominator := laws.expM1_eq (params.gliss * RealOps.ln2 / sampleRate)
  by_cases gliss : expM1 (params.gliss * RealOps.ln2 / sampleRate) = 0
  · -- The denominator of the closed form vanishes exactly when the factor is one.
    have factor : exp (params.gliss * RealOps.ln2 / sampleRate) = 1 := by
      rw [gliss] at denominator
      exact (sub_eq_zero.mp denominator.symm)
    rw [factor, accumulatedPhase_one]
    simp [FofState.spawn, FofConstants.carrierPhaseAt, gliss]
  · have ratio := gliss
    rw [denominator] at ratio
    rw [accumulatedPhase_of_ne_one ratio, ← power]
    simp [FofState.spawn, FofConstants.carrierPhaseAt, laws.expM1_eq, ratio]

/-- The carrier that a grain computes from its counter is the per-sample oscillator:
after any number of samples the two stand a whole number of turns apart, and every
lane of a chunk is the carrier of its sample, on both paths. -/
theorem carrierPhaseAt_oscillates (laws : ExpLaws R) (expZero : exp (0 : R) = 1)
    (params : FofParams R) (sampleRate : R) :
    (∀ t : Nat, ∃ turns : Int,
      (FofState.spawn params sampleRate).carrierPhaseAt
          (FofState.spawn params sampleRate).hasGliss t =
        ((fun osc => osc.advance sampleRate)^[t] (NaiveRef.spawn params sampleRate)).carrierPhase +
          (turns : R)) ∧
    ∀ (gliss : Bool) (t0 : Nat) (lane : Fin lanes),
      (FofState.spawn params sampleRate).carrierPhaseChunk gliss t0 lane =
        (FofState.spawn params sampleRate).carrierPhaseAt gliss (t0 + lane) := by
  constructor
  · intro t
    rw [spawn_carrierPhaseAt laws expZero]
    exact NaiveRef.iterate_advance_phase (NaiveRef.spawn params sampleRate) sampleRate t
  · intro gliss t0 lane
    exact FofConstants.carrierPhaseChunk_lane laws
      (FofState.Sound.spawn params sampleRate).tables gliss t0 lane

/-- A rising glissando of one octave per second, after three samples and at the third
lane of the first chunk. -/
theorem carrierPhaseAt_oscillates_octave :
    let params : FofParams ℝ := ⟨1, 0, 440, 1, 0, 1, 0, 2, 0, 3, 0, 0, 1⟩
    (∃ turns : Int,
      (FofState.spawn params 48000).carrierPhaseAt (FofState.spawn params 48000).hasGliss 3 =
        ((fun osc => osc.advance 48000)^[3] (NaiveRef.spawn params 48000)).carrierPhase +
          (turns : ℝ)) ∧
      (FofState.spawn params 48000).carrierPhaseChunk true 0 ⟨2, by decide⟩ =
        (FofState.spawn params 48000).carrierPhaseAt true (0 + 2) := by
  intro params
  have oscillates := carrierPhaseAt_oscillates realLaws Real.exp_zero params 48000
  exact ⟨oscillates.1 3, oscillates.2 true 0 ⟨2, by decide⟩⟩

end Carrier

end Grain
end Rfofs
