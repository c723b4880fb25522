import Rfofs.Grain.Fof

namespace Rfofs
namespace Grain

open Foundation

/-!
# A grain one sample at a time

`fillLoop` renders whole runs of one phase in chunks of eight.  This module
replaces it by a machine that renders one sample a step: it first makes the
transitions that are due (`settle`), then renders a sample in the phase that is
left, then advances the counter and the accumulator.

The two agree on every buffer (`fillLoop_eq`).  The number of samples is then all
that matters: how the time range is cut into blocks, and a block into chunks and
tail, leaves no trace.
-/

/-! ## Settling -/

section Settling

variable {R : Type*}

theorem FofState.phaseEnd_of_dead {s : FofState R} (dead : s.phase = .dead) :
    s.phaseEnd = none := by
  simp only [FofState.phaseEnd, dead]

variable [Field R] [LinearOrder R] [FloorRing R]

namespace FofState

/-- One transition, when the current phase has used up its budget. -/
def settleStep (s : FofState R) : FofState R :=
  match s.phaseEnd with
  | some phaseEnd => if phaseEnd ≤ s.t then s.transitionPhase else s
  | none => s

/-- All transitions that are due; there are at most three. -/
def settle (s : FofState R) : FofState R := s.settleStep.settleStep.settleStep

theorem settleStep_of_inside {s : FofState R} {phaseEnd : Nat}
    (alive : s.phaseEnd = some phaseEnd) (inside : s.t < phaseEnd) : s.settleStep = s := by
  simp only [settleStep, alive]
  exact if_neg (Nat.not_le_of_lt inside)

theorem settle_of_inside {s : FofState R} {phaseEnd : Nat}
    (alive : s.phaseEnd = some phaseEnd) (inside : s.t < phaseEnd) : s.settle = s := by
  have same := settleStep_of_inside alive inside
  rw [settle, same, same, same]

theorem settle_of_dead {s : FofState R} (dead : s.phaseEnd = none) : s.settle = s := by
  have same : s.settleStep = s := by simp only [settleStep, dead]
  rw [settle, same, same, same]

theorem settleStep_of_due {s : FofState R} {phaseEnd : Nat}
    (alive : s.phaseEnd = some phaseEnd) (due : phaseEnd ≤ s.t) :
    s.settleStep = s.transitionPhase := by
  simp only [settleStep, alive]
  exact if_pos due

/-- A step that changes the state lowers the rank, so three steps are enough. -/
theorem settleStep_rank (s : FofState R) :
    s.settleStep = s ∨ s.settleStep.phase.rank < s.phase.rank := by
  cases alive : s.phaseEnd with
  | none =>
      left
      simp only [settleStep, alive]
  | some phaseEnd =>
      by_cases due : phaseEnd ≤ s.t
      · rw [settleStep_of_due alive due]
        exact Or.inr (transitionPhase_rank alive)
      · exact Or.inl (settleStep_of_inside alive (Nat.lt_of_not_le due))

theorem settle_fixed (s : FofState R) : s.settle.settleStep = s.settle := by
  have stays : ∀ s : FofState R, s.settleStep = s → s.settleStep.settleStep = s.settleStep :=
    fun s same => congrArg settleStep same
  unfold settle
  rcases settleStep_rank s with same | first
  · exact stays _ (stays _ (stays _ same))
  · rcases settleStep_rank s.settleStep with same | second
    · exact stays _ (stays _ same)
    · rcases settleStep_rank s.settleStep.settleStep with same | third
      · exact stays _ same
      · rcases settleStep_rank s.settleStep.settleStep.settleStep with same | fourth
        · exact same
        · have bounded : s.phase.rank ≤ 3 := by cases s.phase <;> decide
          omega

theorem settleStep_constants (s : FofState R) :
    s.settleStep.toFofConstants = s.toFofConstants := by
  unfold settleStep
  split
  · split
    · exact transitionPhase_constants s
    · rfl
  · rfl

theorem settle_constants (s : FofState R) : s.settle.toFofConstants = s.toFofConstants := by
  rw [settle, settleStep_constants, settleStep_constants, settleStep_constants]

/-- Making a due transition early changes nothing. -/
theorem settle_settleStep (s : FofState R) : s.settleStep.settle = s.settle :=
  settle_fixed s

end FofState

end Settling

/-! ## Precomputed powers -/

variable {R : Type*} [Field R]

theorem decayPower_eq (d : R) (k : Nat) : decayPower d k = d ^ k := by
  induction k with
  | zero => exact (pow_zero d).symm
  | succ k ih => rw [decayPower, ih, pow_succ]

theorem iterate_mul_right (d acc : R) (k : Nat) : (· * d)^[k] acc = acc * d ^ k := by
  rw [mul_right_iterate]

namespace FofState

/-- A settled grain, one sample later. -/
def advanceOne (s : FofState R) : FofState R :=
  match s.phase with
  | .attack => { s with t := s.t + 1, decayAcc := s.decayAcc * s.d }
  | .decay => { s with t := s.t + 1, decayAcc := s.decayAcc * s.d }
  | .fadeOut => { s with t := s.t + 1 }
  | .dead => s

theorem advanceOne_constants (s : FofState R) :
    s.advanceOne.toFofConstants = s.toFofConstants := by
  unfold advanceOne
  cases s.phase <;> rfl

theorem advanceOne_phase (s : FofState R) : s.advanceOne.phase = s.phase := by
  cases phase : s.phase <;> simp only [advanceOne, phase]

/-- A grain after `k` more samples of its phase. -/
def ranFor (s : FofState R) (k : Nat) : FofState R :=
  match s.phase with
  | .attack => { s with t := s.t + k, decayAcc := s.decayAcc * s.d ^ k }
  | .decay => { s with t := s.t + k, decayAcc := s.decayAcc * s.d ^ k }
  | .fadeOut => { s with t := s.t + k }
  | .dead => s

theorem ranFor_zero (s : FofState R) : s.ranFor 0 = s := by
  rcases s with ⟨constants, phase⟩
  cases phase <;> simp only [ranFor, Nat.add_zero, pow_zero, mul_one]

theorem ranFor_advanceOne (s : FofState R) (k : Nat) :
    (s.ranFor k).advanceOne = s.ranFor (k + 1) := by
  cases phase : s.phase <;> simp [ranFor, advanceOne, phase, pow_succ, mul_assoc, Nat.add_assoc]

theorem ranFor_phaseEnd (s : FofState R) (k : Nat) : (s.ranFor k).phaseEnd = s.phaseEnd := by
  cases phase : s.phase <;> simp [ranFor, phaseEnd, phase]

theorem ranFor_phase (s : FofState R) (k : Nat) : (s.ranFor k).phase = s.phase := by
  cases phase : s.phase <;> simp only [ranFor, phase]

theorem ranFor_t {s : FofState R} {phaseEnd : Nat} (alive : s.phaseEnd = some phaseEnd)
    (k : Nat) : (s.ranFor k).t = s.t + k := by
  unfold FofState.phaseEnd at alive
  cases phase : s.phase <;> simp_all [ranFor]

/-- Inside a phase nothing is due, so the machine stays in it. -/
theorem settle_ranFor [LinearOrder R] [FloorRing R] {s : FofState R} {phaseEnd k : Nat}
    (alive : s.phaseEnd = some phaseEnd) (inside : s.t + k < phaseEnd) :
    (s.ranFor k).settle = s.ranFor k := by
  refine settle_of_inside ?_ (lt_of_eq_of_lt (ranFor_t alive k) inside)
  rw [ranFor_phaseEnd, alive]

/-- One step of the machine: the transitions that are due, then one sample.  The block loop
makes the same steps in runs. -/
def sampleStep [LinearOrder R] [FloorRing R] (s : FofState R) : FofState R :=
  s.settle.advanceOne

theorem iterate_sampleStep [LinearOrder R] [FloorRing R] {s : FofState R} {phaseEnd : Nat}
    (alive : s.phaseEnd = some phaseEnd) {k : Nat} (within : s.t + k ≤ phaseEnd) :
    sampleStep^[k] s = s.ranFor k := by
  induction k with
  | zero => exact s.ranFor_zero.symm
  | succ k ih =>
      rw [Function.iterate_succ_apply', ih (by omega), sampleStep,
        settle_ranFor alive (by omega), ranFor_advanceOne]

theorem sampleStep_of_dead [LinearOrder R] [FloorRing R] {s : FofState R} (dead : s.phaseEnd = none) : s.sampleStep = s := by
  rw [sampleStep, settle_of_dead dead]
  unfold FofState.phaseEnd at dead
  unfold advanceOne
  cases phase : s.phase <;> simp_all

theorem iterate_sampleStep_settleStep [LinearOrder R] [FloorRing R] (s : FofState R) (k : Nat) :
    sampleStep^[k + 1] s.settleStep = sampleStep^[k + 1] s := by
  rw [Function.iterate_succ_apply, Function.iterate_succ_apply, sampleStep, settle_settleStep,
    ← sampleStep]

end FofState

variable [RealOps R]

/-- The laws of the exponential that the precomputed powers rely on.  They hold of the real
numbers, and only approximately of machine numbers. -/
structure ExpLaws (R : Type*) [Field R] [RealOps R] : Prop where
  exp_add : ∀ x y : R, exp (x + y) = exp x * exp y
  expM1_eq : ∀ x : R, expM1 x = exp x - 1

/-- The lane tables of a grain hold the powers they stand for. -/
structure FofConstants.Precomputed (c : FofConstants R) : Prop where
  dPows : ∀ lane, c.dPows lane = c.d ^ (lane : Nat)
  d8 : c.d8 = c.d ^ lanes
  rPowsM1 : ∀ lane, c.rPowsM1 lane = expM1 (((lane : Nat) : R) * c.lnR)

namespace FofState

/-- What every reachable grain satisfies: its tables are right, and it does not fade
out before it has entered the fade-out. -/
structure Sound (s : FofState R) : Prop where
  tables : s.Precomputed
  entered : s.phase = .fadeOut → s.tFo ≤ s.t

theorem Sound.advanceOne {s : FofState R} (sound : s.Sound) : s.advanceOne.Sound := by
  have entered := sound.entered
  unfold FofState.advanceOne
  cases phase : s.phase with
  | attack => exact ⟨sound.tables, fun phase => nomatch phase⟩
  | decay => exact ⟨sound.tables, fun phase => nomatch phase⟩
  | fadeOut => exact ⟨sound.tables, fun _ => Nat.le_succ_of_le (entered phase)⟩
  | dead => exact sound

theorem Sound.ranFor {s : FofState R} (sound : s.Sound) (k : Nat) : (s.ranFor k).Sound := by
  have entered := sound.entered
  unfold FofState.ranFor
  cases phase : s.phase with
  | attack => exact ⟨sound.tables, fun phase => nomatch phase⟩
  | decay => exact ⟨sound.tables, fun phase => nomatch phase⟩
  | fadeOut => exact ⟨sound.tables, fun _ => Nat.le_add_right_of_le (entered phase)⟩
  | dead => exact sound

end FofState

/-! ## Chunks and samples -/

namespace FofConstants

/-- A lane of the carrier chunk is the carrier of its sample. -/
theorem carrierPhaseChunk_lane (laws : ExpLaws R) {c : FofConstants R} (tables : c.Precomputed)
    (gliss : Bool) (t0 : Nat) (lane : Fin lanes) :
    c.carrierPhaseChunk gliss t0 lane = c.carrierPhaseAt gliss (t0 + lane) := by
  cases gliss with
  | true =>
      have split : exp (((t0 + lane : Nat) : R) * c.lnR) =
          exp ((t0 : R) * c.lnR) * exp (((lane : Nat) : R) * c.lnR) := by
        rw [Nat.cast_add, add_mul, laws.exp_add]
      simp only [carrierPhaseChunk, carrierPhaseAt, F32x8.splat, Pi.add_apply, Pi.mul_apply,
        if_true, tables.rPowsM1, laws.expM1_eq, split]
      ring
  | false =>
      simp only [carrierPhaseChunk, carrierPhaseAt, F32x8.splat, Pi.add_apply, Pi.mul_apply, iota,
        Nat.cast_add, Bool.false_eq_true, if_false]
      ring

theorem carrierSineChunk_lane (laws : ExpLaws R) {c : FofConstants R} (tables : c.Precomputed)
    (gliss : Bool) (t0 : Nat) (lane : Fin lanes) :
    c.carrierSineChunk gliss t0 lane = c.carrierSineAt gliss (t0 + lane) := by
  rw [carrierSineChunk, carrierSineAt, sinCyclesX8_std, carrierPhaseChunk_lane laws tables]

theorem attackRiseChunk_lane (c : FofConstants R) (t0 : Nat) (lane : Fin lanes) :
    c.attackRiseChunk t0 lane = c.attackRiseAt (t0 + lane) := by
  have phase : (t0 : R) * c.inv2beta + 1 / 4 + ((lane : Nat) : R) * c.inv2beta =
      ((t0 + lane : Nat) : R) * c.inv2beta + 1 / 4 := by
    rw [Nat.cast_add]
    ring
  simp only [attackRiseChunk, attackRiseAt, F32x8.splat, Pi.add_apply, Pi.mul_apply,
    Pi.sub_apply, iota, sinCyclesX8_std, phase]
  ring

theorem decayEnvChunkFrom_lane {c : FofConstants R} (tables : c.Precomputed) (dBase : R)
    (lane : Fin lanes) : c.decayEnvChunkFrom dBase lane = dBase * c.d ^ (lane : Nat) := by
  rw [decayEnvChunkFrom, Pi.mul_apply, F32x8.splat, tables.dPows]

end FofConstants

namespace FofState

/-- A run renders each sample from its own counter and accumulator.  Chunks and tail leave no
trace. -/
theorem processRun_eq (laws : ExpLaws R) {s : FofState R} (tables : s.Precomputed) (gliss : Bool)
    (envelope : RunEnvelope R)
    (chunkEnv : ∀ acc idx lane, envelope.chunk acc (s.t + idx) lane =
      envelope.sample (envelope.next^[lane] acc) (s.t + idx + lane))
    (chunkStride : ∀ acc, envelope.stride acc = envelope.next^[lanes] acc) (buf : List R) :
    s.processRun gliss envelope buf =
      (buf.mapIdx (fun k x => x + s.ampTotal *
          envelope.sample (envelope.next^[k] s.decayAcc) (s.t + k) *
          s.carrierSineAt gliss (s.t + k)), envelope.next^[buf.length] s.decayAcc) := by
  unfold processRun
  rw [laneLoop_eq_scalarLoop _ ?_ chunkStride, scalarLoop_eq]
  · simp only [Nat.zero_add]
  · intro acc idx slice full
    apply List.ext_getElem
    · simp [F32x8.toArray, full]
    · intro k inside _
      have bound : k < lanes := by simpa [F32x8.toArray] using inside
      have inSlice : k < slice.length := by rw [full]; exact bound
      simp only [F32x8.toArray, List.getElem_ofFn, List.getElem_mapIdx, F32x8.mulAdd,
        Pi.add_apply, Pi.mul_apply, F32x8.splat, F32x8.ofSlice, chunkEnv,
        s.carrierSineChunk_lane laws tables, List.getD_eq_getElem _ _ inSlice, Nat.add_assoc]
      ring

end FofState

/-! ## One sample -/

variable [LinearOrder R]

namespace FofState

/-- The envelope of the sample that a settled grain renders. -/
def sampleEnv (s : FofState R) : R :=
  match s.phase with
  | .attack => s.decayAcc * s.attackRiseAt s.t
  | .decay => s.decayAcc
  | .fadeOut =>
      let invDur := if 0 < s.effectiveFadeDur then 1 / s.effectiveFadeDur else 0
      s.envAtFo * max (1 - ((s.t - s.tFo : Nat) : R) * invDur) 0
  | .dead => 0

/-- What a settled grain adds to its sample. -/
def settledValue (s : FofState R) : R :=
  s.ampTotal * s.sampleEnv * s.carrierSineAt s.hasGliss s.t

def sampleValue [FloorRing R] (s : FofState R) : R := s.settle.settledValue

end FofState

/-! ## One run -/

namespace FofState

section OneRun

variable {s : FofState R} (laws : ExpLaws R) (sound : s.Sound)

include laws sound

theorem processAttackImpl_eq {gliss : Bool} (phase : s.phase = .attack) (path : s.hasGliss = gliss)
    (buf : List R) :
    s.processAttackImpl gliss buf = (buf.mapIdx (fun k x => x + (s.ranFor k).settledValue),
      { s with decayAcc := s.decayAcc * s.d ^ buf.length }) := by
  unfold processAttackImpl
  rw [processRun_eq laws sound.tables gliss]
  · simp only [attackEnvelope, iterate_mul_right, ranFor, phase, settledValue, sampleEnv, path]
  · intro acc idx lane
    simp only [attackEnvelope]
    rw [Pi.mul_apply, s.decayEnvChunkFrom_lane sound.tables, s.attackRiseChunk_lane,
      iterate_mul_right]
  · intro acc
    simp only [attackEnvelope]
    rw [iterate_mul_right, sound.tables.d8]

theorem processDecayImpl_eq {gliss : Bool} (phase : s.phase = .decay) (path : s.hasGliss = gliss)
    (buf : List R) :
    s.processDecayImpl gliss buf = (buf.mapIdx (fun k x => x + (s.ranFor k).settledValue),
      { s with decayAcc := s.decayAcc * s.d ^ buf.length }) := by
  unfold processDecayImpl
  rw [processRun_eq laws sound.tables gliss]
  · simp only [decayEnvelope, iterate_mul_right, ranFor, phase, settledValue, sampleEnv, path]
  · intro acc idx lane
    simp only [decayEnvelope]
    rw [s.decayEnvChunkFrom_lane sound.tables, iterate_mul_right]
  · intro acc
    simp only [decayEnvelope]
    rw [iterate_mul_right, sound.tables.d8]

theorem processFadeoutImpl_eq {gliss : Bool} (phase : s.phase = .fadeOut)
    (path : s.hasGliss = gliss) (buf : List R) :
    s.processFadeoutImpl gliss buf =
      (buf.mapIdx (fun k x => x + (s.ranFor k).settledValue), s) := by
  unfold processFadeoutImpl
  rw [processRun_eq laws sound.tables gliss]
  · simp only [fadeoutEnvelope, ranFor, phase, settledValue, sampleEnv, path]
  · intro acc idx lane
    have entered := sound.entered phase
    have elapsed : ((s.t + idx - s.tFo : Nat) : R) + ((lane : Nat) : R) =
        ((s.t + idx + lane - s.tFo : Nat) : R) := by
      rw [← Nat.cast_add]
      congr 1
      omega
    simp only [fadeoutEnvelope, Pi.mul_apply, F32x8.splat, F32x8.max, Pi.sub_apply, Pi.add_apply,
      iota, elapsed]
  · intro acc
    simp only [fadeoutEnvelope]
    rw [Function.iterate_id]

/-- A run renders the samples of its phase, each as the settled grain would, and
ends where the machine is after that many samples. -/
theorem process_eq {phaseEnd : Nat} (alive : s.phaseEnd = some phaseEnd) (buf : List R) :
    (s.process buf).1 = buf.mapIdx (fun k x => x + (s.ranFor k).settledValue) ∧
      { (s.process buf).2 with t := (s.process buf).2.t + buf.length } = s.ranFor buf.length := by
  unfold FofState.phaseEnd at alive
  have dispatch : ∀ f : Bool → List R → List R × FofState R,
      (if s.hasGliss then f true buf else f false buf) = f s.hasGliss buf := by
    intro f
    cases s.hasGliss <;> rfl
  unfold process
  cases phase : s.phase with
  | attack =>
      simp only [processAttack, dispatch s.processAttackImpl,
        processAttackImpl_eq laws sound phase rfl, ranFor, phase, and_self]
  | decay =>
      simp only [processDecay, dispatch s.processDecayImpl,
        processDecayImpl_eq laws sound phase rfl, ranFor, phase, and_self]
  | fadeOut =>
      simp only [processFadeout, dispatch s.processFadeoutImpl,
        processFadeoutImpl_eq laws sound phase rfl, ranFor, phase, and_self]
  | dead =>
      rw [phase] at alive
      cases alive

end OneRun

end FofState

/-! ## Whole buffers -/

variable [FloorRing R]

theorem spawn_precomputed (params : FofParams R) (sampleRate : R) :
    (FofState.spawn params sampleRate).Precomputed where
  dPows := fun lane => decayPower_eq _ lane
  d8 := by
    change decayPower _ (lanes - 1) * _ = _
    rw [decayPower_eq, ← pow_succ]
    rfl
  rPowsM1 := fun _ => rfl

namespace FofState

theorem Sound.spawn (params : FofParams R) (sampleRate : R) :
    (FofState.spawn params sampleRate).Sound where
  tables := spawn_precomputed params sampleRate
  entered := fun phase => nomatch phase

theorem Sound.enterFadeOut {s : FofState R} (sound : s.Sound) (env fadeDur : R) :
    (s.enterFadeOut env fadeDur).Sound where
  tables := sound.tables
  entered := fun _ => le_refl s.t

theorem Sound.triggerFadeOut {s : FofState R} (sound : s.Sound) (fadeDur : R) :
    (s.triggerFadeOut fadeDur).Sound := by
  unfold FofState.triggerFadeOut
  split
  · exact sound
  · exact sound.enterFadeOut _ _

theorem Sound.transitionPhase {s : FofState R} (sound : s.Sound) : s.transitionPhase.Sound := by
  unfold FofState.transitionPhase
  cases s.phase with
  | attack => exact ⟨sound.tables, fun phase => nomatch phase⟩
  | decay => exact sound.enterFadeOut _ _
  | fadeOut => exact ⟨sound.tables, fun phase => nomatch phase⟩
  | dead => exact sound

theorem Sound.settleStep {s : FofState R} (sound : s.Sound) : s.settleStep.Sound := by
  unfold FofState.settleStep
  split
  · split
    · exact sound.transitionPhase
    · exact sound
  · exact sound

theorem Sound.iterate_sampleStep {s : FofState R} (sound : s.Sound) (k : Nat) :
    (sampleStep^[k] s).Sound := by
  induction k with
  | zero => exact sound
  | succ k ih =>
      rw [Function.iterate_succ_apply']
      exact ih.settleStep.settleStep.settleStep.advanceOne

theorem sampleValue_of_dead {s : FofState R} (dead : s.phaseEnd = none) : s.sampleValue = 0 := by
  rw [sampleValue, settle_of_dead dead]
  unfold FofState.phaseEnd at dead
  unfold settledValue sampleEnv
  cases phase : s.phase <;> simp_all

theorem sampleValue_settleStep (s : FofState R) (k : Nat) :
    (sampleStep^[k] s.settleStep).sampleValue = (sampleStep^[k] s).sampleValue := by
  cases k with
  | zero => exact congrArg settledValue s.settle_settleStep
  | succ k => rw [iterate_sampleStep_settleStep]

/-- The loop over a buffer is the sample machine, sample by sample.  By induction on what is
left of the buffer. -/
theorem fillLoop_eq (laws : ExpLaws R) {s : FofState R} (sound : s.Sound) (buf : List R) :
    s.fillLoop buf = (sampleStep^[buf.length] s,
      buf.mapIdx (fun k x => x + (sampleStep^[k] s).sampleValue)) := by
  fun_induction fillLoop s buf with
  | case1 s => rfl
  | case2 s x rest dead =>
      have fixed : ∀ k, sampleStep^[k] s = s := Function.iterate_fixed (sampleStep_of_dead dead)
      have untouched : (x :: rest).mapIdx (fun _ y => y) = x :: rest := by
        rw [List.mapIdx_eq_zipIdx_map, List.zipIdx_map_fst]
      simp only [fixed, sampleValue_of_dead dead, add_zero, untouched]
  | case3 s x rest phaseEnd alive remaining spent lower ih =>
      have due : s.settleStep = s.transitionPhase := settleStep_of_due alive (by omega)
      rw [ih sound.transitionPhase, ← due]
      simp only [List.length_cons, iterate_sampleStep_settleStep, sampleValue_settleStep]
  | case4 s x rest phaseEnd alive remaining left runLen run later ih =>
      have bounded : runLen ≤ (x :: rest).length := min_le_right _ _
      have within : s.t + runLen ≤ phaseEnd := by omega
      have taken : ((x :: rest).take runLen).length = runLen := List.length_take_of_le bounded
      have machine : sampleStep^[runLen] s = s.ranFor runLen := iterate_sampleStep alive within
      have rendered := process_eq laws sound alive ((x :: rest).take runLen)
      rw [taken] at rendered
      have sampled : run.1 = ((x :: rest).take runLen).mapIdx
          (fun k y => y + (sampleStep^[k] s).sampleValue) := by
        rw [rendered.1]
        apply List.mapIdx_eq_mapIdx_iff.mpr
        intro k inside
        rw [taken] at inside
        rw [iterate_sampleStep alive (by omega), sampleValue, settle_ranFor alive (by omega)]
      have resumed : later = fillLoop (sampleStep^[runLen] s) ((x :: rest).drop runLen) := by
        rw [machine, ← rendered.2]
      have soundLater : ({ run.2 with t := run.2.t + runLen } : FofState R).Sound := by
        rw [rendered.2]
        exact sound.ranFor runLen
      have shifted := ih soundLater
      rw [rendered.2, ← machine] at shifted
      rw [resumed, shifted, sampled, ← Function.iterate_add_apply, List.length_drop,
        Nat.sub_add_cancel bounded, Prod.mk.injEq]
      refine ⟨rfl, ?_⟩
      conv_rhs => rw [← List.take_append_drop runLen (x :: rest), List.mapIdx_append, taken]
      simp only [Function.iterate_add_apply]

end FofState

/-! ## The real numbers -/

/-- The functions of the real numbers. -/
noncomputable instance realOps : RealOps ℝ where
  exp := Real.exp
  expM1 := fun x => Real.exp x - 1
  ln := Real.log
  sin := Real.sin
  cos := Real.cos
  tau := 2 * Real.pi
  pi := Real.pi
  ln2 := Real.log 2
  frac1Sqrt2 := 1 / Real.sqrt 2

theorem realLaws : ExpLaws ℝ where
  exp_add := Real.exp_add
  expM1_eq := fun _ => rfl

end Grain
end Rfofs
