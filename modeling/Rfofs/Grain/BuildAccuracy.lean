import Rfofs.Grain.DefaultBuild

namespace Rfofs
namespace Grain

open Foundation

/-!
# Two builds, sample by sample

A build whose two sines are near the sine renders near the build with `std-sin`.  The two
run through the same states, apart from the level at which a kill in the attack enters the
fade-out.  A sample is the product of an envelope and a sine, of which the first may be
off by half the error of a sine, and the second by the whole.

The envelope of a grain that decays does not exceed one as long as its counter, which the
code reads as a signed word there, is below `2 ^ 31`.
-/

variable {R : Type*} [Field R] [LinearOrder R] [IsStrictOrderedRing R]

/-- The error of a product of an envelope and a sine, when the sine is off by `δ` and the
envelope by half of it. -/
def sampleError (δ : R) : R := 3 / 2 * δ + δ ^ 2 / 2

theorem sampleError_nonneg {δ : R} (nonneg : 0 ≤ δ) : 0 ≤ sampleError δ := by
  unfold sampleError
  positivity

theorem abs_mul_sub_mul_le {δ env env' sine sine' : R} (levels : |env' - env| ≤ δ / 2)
    (env_le : |env| ≤ 1) (sines : |sine' - sine| ≤ δ) (sine_le : |sine| ≤ 1) :
    |env' * sine' - env * sine| ≤ sampleError δ := by
  have nonneg : 0 ≤ δ := (abs_nonneg _).trans sines
  have sine'_le : |sine'| ≤ 1 + δ := by
    calc |sine'| = |sine + (sine' - sine)| := by rw [add_sub_cancel]
      _ ≤ |sine| + |sine' - sine| := abs_add_le _ _
      _ ≤ 1 + δ := add_le_add sine_le sines
  calc |env' * sine' - env * sine|
      = |(env' - env) * sine' + env * (sine' - sine)| := by ring_nf
    _ ≤ |env' - env| * |sine'| + |env| * |sine' - sine| := by
        rw [← abs_mul, ← abs_mul]
        exact abs_add_le _ _
    _ ≤ δ / 2 * (1 + δ) + 1 * δ := by gcongr
    _ = sampleError δ := by
        unfold sampleError
        ring

/-- Samples that differ by `ε` at most.  The two lists have one length. -/
def SamplesWithin (ε : R) : List R → List R → Prop := List.Forall₂ (fun x y => |y - x| ≤ ε)

omit [IsStrictOrderedRing R] in
theorem SamplesWithin.append {ε : R} {xs ys xs' ys' : List R} (first : SamplesWithin ε xs ys)
    (second : SamplesWithin ε xs' ys') : SamplesWithin ε (xs ++ xs') (ys ++ ys') :=
  List.rel_append first second

theorem SamplesWithin.refl {ε : R} (nonneg : 0 ≤ ε) (xs : List R) : SamplesWithin ε xs xs := by
  apply List.forall₂_same.mpr
  intro x _
  rw [sub_self, abs_zero]
  exact nonneg

/-- Two renderings that are near a third one are near each other. -/
theorem SamplesWithin.join {ε : R} {xs ys zs : List R} (first : SamplesWithin ε xs ys)
    (second : SamplesWithin ε xs zs) : SamplesWithin (2 * ε) ys zs := by
  induction first generalizing zs with
  | nil =>
      cases second
      exact .nil
  | cons near _ ih =>
      cases second with
      | cons near' rest =>
          refine .cons ?_ (ih rest)
          rw [abs_sub_comm] at near
          calc _ ≤ _ := abs_sub_le _ _ _
            _ ≤ ε + ε := add_le_add near' near
            _ = 2 * ε := (two_mul ε).symm

omit [IsStrictOrderedRing R] in
theorem SamplesWithin.toArray {ε : R} {v w : F32x8 R} (near : ∀ lane, |w lane - v lane| ≤ ε) :
    SamplesWithin ε v.toArray w.toArray := by
  apply List.forall₂_iff_get.mpr
  simp only [F32x8.toArray, List.length_ofFn, List.get_ofFn, true_and]
  exact fun k _ _ => near _

variable [FloorRing R] [RealOps R]

/-- Both sines of a build are within `δ` of the sine. -/
structure SineBuild.Accurate (b : SineBuild R) (δ : R) : Prop where
  activeSin : ∀ phase, |b.activeSin phase - Grain.activeSin phase| ≤ δ
  sinCyclesX8 : ∀ phase lane, |b.sinCyclesX8 phase lane - Grain.sinCyclesX8 phase lane| ≤ δ

def SineBounded (R : Type*) [Field R] [LinearOrder R] [RealOps R] : Prop :=
  ∀ phase : R, |sin phase| ≤ 1

/-! ## The range of an envelope -/

/-- From zero to one. -/
def InUnit (x : R) : Prop := 0 ≤ x ∧ x ≤ 1

omit [FloorRing R] [RealOps R] in
theorem InUnit.abs_le {x : R} (unit : InUnit x) : |x| ≤ 1 := by
  rw [abs_of_nonneg unit.1]
  exact unit.2

omit [FloorRing R] [RealOps R] in
theorem InUnit.mul {x y : R} (first : InUnit x) (second : InUnit y) : InUnit (x * y) :=
  ⟨mul_nonneg first.1 second.1, mul_le_one₀ first.2 second.1 second.2⟩

omit [FloorRing R] [RealOps R] in
theorem InUnit.pow {x : R} (unit : InUnit x) (n : Nat) : InUnit (x ^ n) :=
  ⟨pow_nonneg unit.1 n, pow_le_one₀ unit.1 unit.2⟩

omit [FloorRing R] [RealOps R] in
/-- A level that is off by half the error stays so under a factor from the unit
interval. -/
theorem InUnit.scale {δ x y y' : R} (unit : InUnit x) (near : |y' - y| ≤ δ / 2) :
    |x * y' - x * y| ≤ δ / 2 := by
  rw [← mul_sub, abs_mul, abs_of_nonneg unit.1]
  exact (mul_le_of_le_one_left (abs_nonneg _) unit.2).trans near

namespace FofState

/-- A grain whose decay factor and levels lie in the unit interval. -/
structure Decaying (s : FofState R) : Prop where
  tables : s.Precomputed
  factor : InUnit s.d
  decayAcc : InUnit s.decayAcc
  envAtFo : |s.envAtFo| ≤ 1

def withEnvAtFo (s : FofState R) (level : R) : FofState R := { s with envAtFo := level }

end FofState

section Formulas

variable {b : SineBuild R} {δ : R} (accurate : b.Accurate δ) (bounded : SineBounded R)

omit [FloorRing R] [IsStrictOrderedRing R] in
include bounded in
theorem abs_activeSin_le (phase : R) : |Grain.activeSin phase| ≤ 1 := bounded _

omit [FloorRing R] in
include bounded in
theorem inUnit_attackRiseAt (c : FofConstants R) (t : Nat) : InUnit (c.attackRiseAt t) := by
  rcases abs_le.mp (abs_activeSin_le bounded ((t : R) * c.inv2beta + 1 / 4)) with ⟨low, high⟩
  constructor <;> unfold FofConstants.attackRiseAt <;> linarith

include accurate in
/-- The rise of the attack is off by half the error of the scalar sine. -/
theorem abs_attackRiseAt_sub_le (c : FofConstants R) (t : Nat) :
    |b.attackRiseAt c t - c.attackRiseAt t| ≤ δ / 2 := by
  rcases abs_le.mp (accurate.activeSin ((t : R) * c.inv2beta + 1 / 4)) with ⟨low, high⟩
  rw [b.attackRiseAt_eq]
  apply abs_le.mpr
  constructor <;> unfold FofConstants.attackRiseAt <;> linarith

include accurate in
/-- The rise in a lane is off by half the error of the sine of the lanes. -/
theorem abs_attackRiseChunk_sub_le (c : FofConstants R) (t0 : Nat) (lane : Fin lanes) :
    |b.attackRiseChunk c t0 lane - c.attackRiseChunk t0 lane| ≤ δ / 2 := by
  have near := accurate.sinCyclesX8
    (F32x8.splat ((t0 : R) * c.inv2beta + 1 / 4) + iota * F32x8.splat c.inv2beta) lane
  rcases abs_le.mp near with ⟨low, high⟩
  rw [b.attackRiseChunk_eq]
  simp only [FofConstants.attackRiseChunk, Pi.mul_apply, Pi.sub_apply, F32x8.splat] at low high ⊢
  apply abs_le.mpr
  constructor <;> linarith

end Formulas

/-! ## One run -/

/-- An envelope that is off by half the error of a sine. -/
def LevelNear (δ env env' : R) : Prop := |env' - env| ≤ δ / 2 ∧ |env| ≤ 1

section OneRun

variable {b : SineBuild R} {δ : R} (accurate : b.Accurate δ) (bounded : SineBounded R)
  {s : FofState R} (level : R)

omit [FloorRing R] [RealOps R] in
theorem LevelNear.same {env : R} (nonneg : 0 ≤ δ) (env_le : |env| ≤ 1) :
    LevelNear δ env env := by
  refine ⟨?_, env_le⟩
  rw [sub_self, abs_zero]
  exact div_nonneg nonneg zero_le_two

omit [FloorRing R] [RealOps R] in
theorem LevelNear.scale {x env env' : R} (unit : InUnit x) (near : LevelNear δ env env') :
    LevelNear δ (x * env) (x * env') := by
  refine ⟨unit.scale near.1, ?_⟩
  rw [abs_mul]
  exact mul_le_one₀ unit.abs_le (abs_nonneg _) near.2

omit [FloorRing R] [RealOps R] in
/-- What a sample gets in two builds. -/
theorem LevelNear.sample {env env' sine sine' : R} (levels : LevelNear δ env env')
    (sines : |sine' - sine| ≤ δ) (sine_le : |sine| ≤ 1) (amp x : R) :
    |(x + amp * env' * sine') - (x + amp * env * sine)| ≤ |amp| * sampleError δ := by
  have product := abs_mul_sub_mul_le levels.1 levels.2 sines sine_le
  have difference : (x + amp * env' * sine') - (x + amp * env * sine) =
      amp * (env' * sine' - env * sine) := by ring
  rw [difference, abs_mul]
  exact mul_le_mul_of_nonneg_left product (abs_nonneg amp)

/-- The envelopes of one phase in two builds, for every counter and every accumulator in the
unit interval. -/
structure EnvelopeNear (δ : R) (env env' : RunEnvelope R) : Prop where
  chunk : ∀ acc t0 lane, InUnit acc → LevelNear δ (env.chunk acc t0 lane) (env'.chunk acc t0 lane)
  sample : ∀ acc t, InUnit acc → LevelNear δ (env.sample acc t) (env'.sample acc t)
  stride : env'.stride = env.stride
  next : env'.next = env.next
  strides : ∀ acc, InUnit acc → InUnit (env.stride acc)
  nexts : ∀ acc, InUnit acc → InUnit (env.next acc)

omit [FloorRing R] in
include accurate bounded in
/-- Two runs whose envelopes are near each other render samples that are near each other. -/
theorem processRun_within (gliss : Bool) {env env' : RunEnvelope R} (near : EnvelopeNear δ env env')
    (start : InUnit s.decayAcc) (buf : List R) :
    SamplesWithin (|s.ampTotal| * sampleError δ) (s.processRun gliss env buf).1
        (b.processRun (s.withEnvAtFo level) gliss env' buf).1 ∧
      (b.processRun (s.withEnvAtFo level) gliss env' buf).2 = (s.processRun gliss env buf).2 ∧
      InUnit (s.processRun gliss env buf).2 := by
  rcases env' with ⟨chunk', sample', stride', next'⟩
  rcases near with ⟨chunks, levels, rfl, rfl, strides, nexts⟩
  apply laneLoop_related _ ?_ strides ?_ nexts start
  · intro acc idx slice unit _
    apply SamplesWithin.toArray
    intro lane
    have near := (chunks acc (s.t + idx) lane unit).sample
      (accurate.sinCyclesX8 (s.carrierPhaseChunk gliss (s.t + idx)) lane) (bounded _)
      s.ampTotal (F32x8.ofSlice slice lane)
    have reordered : ∀ env sine x : R, env * sine * s.ampTotal + x =
        x + s.ampTotal * env * sine := fun env sine x => by ring
    rw [← reordered, ← reordered] at near
    exact near
  · intro acc idx x unit
    exact (levels acc (s.t + idx) unit).sample
      (accurate.activeSin (s.carrierPhaseAt gliss (s.t + idx))) (bounded _) s.ampTotal x

omit [FloorRing R] in
theorem FofState.Decaying.inUnit_d8 (decaying : s.Decaying) : InUnit s.d8 := by
  rw [decaying.tables.d8]
  exact decaying.factor.pow lanes

omit [FloorRing R] in
theorem FofState.Decaying.inUnit_chunk (decaying : s.Decaying) {acc : R} (unit : InUnit acc)
    (lane : Fin lanes) : InUnit (s.decayEnvChunkFrom acc lane) := by
  rw [s.decayEnvChunkFrom_lane decaying.tables]
  exact unit.mul (decaying.factor.pow lane)

omit [FloorRing R] [RealOps R] in
/-- The ramp of the fade-out lies in the unit interval. -/
theorem inUnit_ramp (elapsed fadeDur : R) (nonneg : 0 ≤ elapsed) :
    InUnit (max (1 - elapsed * (if 0 < fadeDur then 1 / fadeDur else 0)) 0) := by
  refine ⟨le_max_right _ _, max_le ?_ zero_le_one⟩
  apply sub_le_self
  apply mul_nonneg nonneg
  split_ifs with lasting
  · exact (one_div_pos.mpr lasting).le
  · exact le_refl 0

/-- The runs of two builds in one phase. -/
structure RunNear (b : SineBuild R) (δ : R) (s : FofState R) (level : R)
    (run run' : List R × FofState R) : Prop where
  samples : SamplesWithin (|s.ampTotal| * sampleError δ) run.1 run'.1
  state : run'.2 = run.2.withEnvAtFo level
  decaying : run.2.Decaying
  envAtFo : run.2.envAtFo = s.envAtFo

include accurate bounded in
theorem attackEnvelope_near (decaying : s.Decaying) :
    EnvelopeNear δ s.attackEnvelope (b.attackEnvelope (s.withEnvAtFo level)) := by
  have risen : ∀ t, LevelNear δ (s.attackRiseAt t) (b.attackRiseAt s.toFofConstants t) :=
    fun t => ⟨abs_attackRiseAt_sub_le accurate _ t, (inUnit_attackRiseAt bounded _ t).abs_le⟩
  have rising : ∀ t0 lane, LevelNear δ (s.attackRiseChunk t0 lane)
      (b.attackRiseChunk s.toFofConstants t0 lane) := by
    intro t0 lane
    refine ⟨abs_attackRiseChunk_sub_le accurate _ t0 lane, ?_⟩
    rw [s.attackRiseChunk_lane]
    exact (inUnit_attackRiseAt bounded _ _).abs_le
  exact ⟨fun _ t0 lane unit => (rising t0 lane).scale (decaying.inUnit_chunk unit lane),
    fun _ t unit => (risen t).scale unit, rfl, rfl,
    fun _ unit => unit.mul decaying.inUnit_d8, fun _ unit => unit.mul decaying.factor⟩

omit [FloorRing R] in
theorem decayEnvelope_near (decaying : s.Decaying) (nonneg : 0 ≤ δ) :
    EnvelopeNear δ s.decayEnvelope (s.withEnvAtFo level).decayEnvelope :=
  ⟨fun _ _ lane unit => LevelNear.same nonneg (decaying.inUnit_chunk unit lane).abs_le,
    fun _ _ unit => LevelNear.same nonneg unit.abs_le, rfl, rfl,
    fun _ unit => unit.mul decaying.inUnit_d8, fun _ unit => unit.mul decaying.factor⟩

omit [FloorRing R] [RealOps R] in
theorem fadeoutEnvelope_near (near : LevelNear δ s.envAtFo level) :
    EnvelopeNear δ s.fadeoutEnvelope (s.withEnvAtFo level).fadeoutEnvelope := by
  have faded : ∀ elapsed : R, 0 ≤ elapsed →
      LevelNear δ (s.envAtFo * max (1 - elapsed * (if 0 < s.effectiveFadeDur then
          1 / s.effectiveFadeDur else 0)) 0)
        (level * max (1 - elapsed * (if 0 < s.effectiveFadeDur then
          1 / s.effectiveFadeDur else 0)) 0) := by
    intro elapsed later
    rw [mul_comm s.envAtFo, mul_comm level]
    exact near.scale (inUnit_ramp elapsed _ later)
  exact ⟨fun _ t0 lane _ =>
      faded (((t0 - s.tFo : Nat) : R) + ((lane : Nat) : R)) (by positivity),
    fun _ t _ => faded ((t - s.tFo : Nat) : R) (Nat.cast_nonneg _), rfl, rfl,
    fun _ unit => unit, fun _ unit => unit⟩

include accurate bounded in
/-- A run renders near what the build with `std-sin` renders, and leaves the same grain. -/
theorem process_near (decaying : s.Decaying) (near : LevelNear δ s.envAtFo level)
    (buf : List R) :
    RunNear b δ s level (s.process buf) (b.process (s.withEnvAtFo level) buf) := by
  have nonneg : 0 ≤ δ := (abs_nonneg _).trans (accurate.activeSin 0)
  have advanced : ∀ {env env' : RunEnvelope R}, EnvelopeNear δ env env' → ∀ gliss,
      RunNear b δ s level
        ((s.processRun gliss env buf).1, { s with decayAcc := (s.processRun gliss env buf).2 })
        ((b.processRun (s.withEnvAtFo level) gliss env' buf).1, { s.withEnvAtFo level with
          decayAcc := (b.processRun (s.withEnvAtFo level) gliss env' buf).2 }) := by
    intro env env' envelopes gliss
    rcases processRun_within accurate bounded level gliss envelopes decaying.decayAcc buf with
      ⟨samples, same, kept⟩
    refine ⟨samples, ?_, ⟨decaying.tables, decaying.factor, kept, decaying.envAtFo⟩, rfl⟩
    exact congrArg (fun acc => ({ s with decayAcc := acc } : FofState R).withEnvAtFo level) same
  have dispatch : ∀ {f g : Bool → List R × FofState R},
      (∀ gliss, RunNear b δ s level (f gliss) (g gliss)) →
        RunNear b δ s level (if s.hasGliss then f true else f false)
          (if s.hasGliss then g true else g false) := by
    intro f g all
    cases s.hasGliss with
    | true => exact all true
    | false => exact all false
  have same : (s.withEnvAtFo level).phase = s.phase := rfl
  unfold SineBuild.process FofState.process
  rw [same]
  cases s.phase with
  | attack => exact dispatch (advanced (attackEnvelope_near accurate bounded level decaying))
  | decay => exact dispatch (advanced (decayEnvelope_near level decaying nonneg))
  | fadeOut =>
      refine dispatch (f := fun gliss => s.processFadeoutImpl gliss buf)
        (g := fun gliss => ((b.processRun (s.withEnvAtFo level) gliss
          (s.withEnvAtFo level).fadeoutEnvelope buf).1, s.withEnvAtFo level)) ?_
      intro gliss
      rcases processRun_within accurate bounded level gliss (fadeoutEnvelope_near level near)
        decaying.decayAcc buf with ⟨samples, _, _⟩
      exact RunNear.mk samples rfl decaying rfl
  | dead =>
      exact ⟨SamplesWithin.refl (mul_nonneg (abs_nonneg _) (sampleError_nonneg nonneg)) buf, rfl,
        decaying, rfl⟩

end OneRun

/-! ## Whole blocks -/

section Blocks

variable {b : SineBuild R} {δ : R} (accurate : b.Accurate δ) (bounded : SineBounded R)

omit [LinearOrder R] [IsStrictOrderedRing R] [FloorRing R] [RealOps R] in
/-- Below `2 ^ 31` the decay envelope is a power of the decay factor. -/
theorem decayEnvAt_of_small (c : FofConstants R) {t : Nat} (small : t < 2 ^ 31) :
    c.decayEnvAt t = c.d ^ t := by
  rw [FofConstants.decayEnvAt, asI32, if_pos small, zpow_natCast]

/-- The two states of a grain in two builds.  They differ by the level of a fade-out at most. -/
structure StateNear (δ : R) (s s' : FofState R) : Prop where
  decaying : s.Decaying
  state : ∃ level, s' = s.withEnvAtFo level ∧ |level - s.envAtFo| ≤ δ / 2

theorem StateNear.transitionPhase {s s' : FofState R} (near : StateNear δ s s')
    (nonneg : 0 ≤ δ) (small : s.t < 2 ^ 31) :
    StateNear δ s.transitionPhase s'.transitionPhase := by
  rcases near with ⟨decaying, level, rfl, close⟩
  have same : (s.withEnvAtFo level).phase = s.phase := rfl
  unfold FofState.transitionPhase
  rw [same]
  cases s.phase with
  | attack => exact ⟨⟨decaying.tables, decaying.factor, decaying.decayAcc, decaying.envAtFo⟩,
      level, rfl, close⟩
  | decay =>
      have power : InUnit (s.decayEnvAt s.t) := by
        rw [decayEnvAt_of_small _ small]
        exact decaying.factor.pow s.t
      exact ⟨⟨decaying.tables, decaying.factor, decaying.decayAcc, power.abs_le⟩, _, rfl,
        (LevelNear.same nonneg power.abs_le).1⟩
  | fadeOut => exact ⟨⟨decaying.tables, decaying.factor, decaying.decayAcc, decaying.envAtFo⟩,
      level, rfl, close⟩
  | dead => exact ⟨decaying, level, rfl, close⟩

include accurate bounded in
/-- The loops of two builds make the same turns.  The phases are decided by counters, which no
sine touches. -/
theorem fillLoop_near {s s' : FofState R} (near : StateNear δ s s') (buf : List R)
    (small : s.t + buf.length < 2 ^ 31) :
    SamplesWithin (|s.ampTotal| * sampleError δ) (s.fillLoop buf).2 (b.fillLoop s' buf).2 ∧
      StateNear δ (s.fillLoop buf).1 (b.fillLoop s' buf).1 := by
  have nonneg : 0 ≤ δ := (abs_nonneg _).trans (accurate.activeSin 0)
  have error : 0 ≤ |s.ampTotal| * sampleError δ :=
    mul_nonneg (abs_nonneg _) (sampleError_nonneg nonneg)
  fun_induction FofState.fillLoop s buf generalizing s' with
  | case1 s =>
      rw [b.fillLoop_nil]
      exact ⟨.nil, near⟩
  | case2 s x rest dead =>
      have quiet : s'.phaseEnd = none := by
        rcases near.state with ⟨level, rfl, _⟩
        exact dead
      rw [b.fillLoop_dead quiet]
      exact ⟨SamplesWithin.refl error _, near⟩
  | case3 s x rest phaseEnd alive remaining spent lower =>
      rename_i ih
      have alive' : s'.phaseEnd = some phaseEnd := by
        rcases near.state with ⟨level, rfl, _⟩
        exact alive
      have spent' : phaseEnd - s'.t = 0 := by
        rcases near.state with ⟨level, rfl, _⟩
        exact spent
      have now : s.t < 2 ^ 31 := by omega
      rw [b.fillLoop_due alive' spent']
      rw [FofState.transitionPhase_constants, FofState.transitionPhase_t] at ih
      exact ih (near.transitionPhase nonneg now) small error
  | case4 s x rest phaseEnd alive remaining left runLen run later =>
      rename_i ih
      rcases near with ⟨decaying, level, rfl, close⟩
      have alive' : (s.withEnvAtFo level).phaseEnd = some phaseEnd := alive
      have left' : phaseEnd - (s.withEnvAtFo level).t ≠ 0 := left
      rcases process_near accurate bounded level decaying ⟨close, decaying.envAtFo⟩
        ((x :: rest).take runLen) with ⟨samples, state, kept, same⟩
      have amp : run.2.ampTotal = s.ampTotal :=
        congrArg FofConstants.ampTotal (s.process_constants _)
      have counted : run.2.t = s.t := (s.process_t _).1
      have shorter : runLen ≤ (x :: rest).length := Nat.min_le_right _ _
      have ahead : run.2.t + runLen + ((x :: rest).drop runLen).length < 2 ^ 31 := by
        rw [List.length_drop, counted]
        omega
      have resumed : StateNear δ { run.2 with t := run.2.t + runLen }
          ({ run.2 with t := run.2.t + runLen }.withEnvAtFo level) :=
        ⟨⟨kept.tables, kept.factor, kept.decayAcc, kept.envAtFo⟩, level, rfl, same ▸ close⟩
      have looped : b.fillLoop (s.withEnvAtFo level) (x :: rest) =
          let later := b.fillLoop ({ run.2 with t := run.2.t + runLen }.withEnvAtFo level)
            ((x :: rest).drop runLen)
          (later.1, (b.process (s.withEnvAtFo level) ((x :: rest).take runLen)).1 ++ later.2) := by
        have next : { (b.process (s.withEnvAtFo level) ((x :: rest).take runLen)).2 with
            t := (b.process (s.withEnvAtFo level) ((x :: rest).take runLen)).2.t + runLen } =
              ({ run.2 with t := run.2.t + runLen } : FofState R).withEnvAtFo level := by
          rw [state]
          rfl
        rw [← next]
        exact b.fillLoop_run alive' left' x rest
      rw [looped]
      change ∀ {s' : FofState R}, _ → _ → 0 ≤ |run.2.ampTotal| * sampleError δ →
        SamplesWithin (|run.2.ampTotal| * sampleError δ) _ _ ∧ _ at ih
      rw [amp] at ih
      rcases ih resumed ahead error with ⟨rendered, ended⟩
      exact ⟨samples.append rendered, ended⟩

include accurate bounded in
theorem envelope_near {s : FofState R} (decaying : s.Decaying) (small : s.t < 2 ^ 31)
    (heard : s.phase = .attack ∨ s.phase = .decay) (level : R) :
    LevelNear δ s.envelope (b.envelope (s.withEnvAtFo level)) := by
  have nonneg : 0 ≤ δ := (abs_nonneg _).trans (accurate.activeSin 0)
  have power : InUnit (s.decayEnvAt s.t) := by
    rw [decayEnvAt_of_small _ small]
    exact decaying.factor.pow s.t
  have same : (s.withEnvAtFo level).phase = s.phase := rfl
  unfold SineBuild.envelope FofState.envelope
  rw [same]
  rcases heard with phase | phase <;> rw [phase]
  · have risen : LevelNear δ (s.attackRiseAt s.t) (b.attackRiseAt s.toFofConstants s.t) :=
      ⟨abs_attackRiseAt_sub_le accurate _ s.t, (inUnit_attackRiseAt bounded _ s.t).abs_le⟩
    have scaled := risen.scale power
    rw [mul_comm, mul_comm (s.decayEnvAt s.t)] at scaled
    exact scaled
  · exact LevelNear.same nonneg power.abs_le

include accurate bounded in
theorem triggerFadeOut_near {s s' : FofState R} (near : StateNear δ s s') (fadeDur : R)
    (small : s.t < 2 ^ 31) :
    StateNear δ (s.triggerFadeOut fadeDur) (b.triggerFadeOut s' fadeDur) := by
  rcases near with ⟨decaying, level, rfl, close⟩
  have same : (s.withEnvAtFo level).phase = s.phase := rfl
  unfold SineBuild.triggerFadeOut FofState.triggerFadeOut
  rw [same]
  split
  · exact ⟨decaying, level, rfl, close⟩
  · rename_i unheard
    have heard : s.phase = .attack ∨ s.phase = .decay := by
      cases phase : s.phase <;> simp_all
    rcases envelope_near accurate bounded decaying small heard level with ⟨levels, env_le⟩
    exact ⟨⟨decaying.tables, decaying.factor, decaying.decayAcc, env_le⟩, _, rfl, levels⟩

include accurate bounded in
theorem fillBlock_near {s s' : FofState R} (near : StateNear δ s s') (blockStart : Nat)
    (buf : List R) (small : s.t + buf.length < 2 ^ 31) :
    SamplesWithin (|s.ampTotal| * sampleError δ) (s.fillBlock blockStart buf).2
        (b.fillBlock s' blockStart buf).2 ∧
      StateNear δ (s.fillBlock blockStart buf).1 (b.fillBlock s' blockStart buf).1 := by
  have nonneg : 0 ≤ δ := (abs_nonneg _).trans (accurate.activeSin 0)
  have error : 0 ≤ |s.ampTotal| * sampleError δ :=
    mul_nonneg (abs_nonneg _) (sampleError_nonneg nonneg)
  have same : s'.phase = s.phase ∧ s'.params = s.params := by
    rcases near.state with ⟨level, rfl, _⟩
    exact ⟨rfl, rfl⟩
  by_cases dead : s.phase = .dead
  · have silent : s.fillBlock blockStart buf = (s, buf) := if_pos dead
    have silent' : b.fillBlock s' blockStart buf = (s', buf) := if_pos (same.1.trans dead)
    rw [silent, silent']
    exact ⟨SamplesWithin.refl error buf, near⟩
  · have shorter : s.t + (buf.drop (s.params.startSample - blockStart)).length < 2 ^ 31 := by
      rw [List.length_drop]
      omega
    rcases fillLoop_near accurate bounded near _ shorter with
      ⟨samples, decaying, level, state, close⟩
    rw [FofState.fillBlock_alive dead, b.fillBlock_alive (fun dead' => dead (same.1 ▸ dead')),
      same.2]
    refine ⟨(SamplesWithin.refl error _).append samples, ?_⟩
    dsimp only
    rw [state]
    exact ⟨⟨decaying.tables, decaying.factor, decaying.decayAcc, decaying.envAtFo⟩, level, rfl,
      close⟩

omit [IsStrictOrderedRing R] in
theorem fillBlock_t_le (s : FofState R) (blockStart : Nat) (buf : List R) :
    (s.fillBlock blockStart buf).1.t ≤ s.t + buf.length := by
  by_cases dead : s.phase = .dead
  · simp only [FofState.fillBlock, dead, if_true]
    exact Nat.le_add_right _ _
  · rcases s.fillBlock_t dead blockStart buf with counted | ⟨_, counted⟩ <;> omega

omit [IsStrictOrderedRing R] in
theorem triggerFadeOut_t (s : FofState R) (fadeDur : R) : (s.triggerFadeOut fadeDur).t = s.t := by
  unfold FofState.triggerFadeOut
  split <;> rfl

include accurate bounded in
/-- What a run of calls preserves: the states of the two builds stay near each other, and so
do the samples. -/
theorem renderCalls_near {s s' : FofState R} (near : StateNear δ s s') (clock : Nat)
    (calls : List (GrainCall R)) (small : s.t + (GrainCall.inputOf calls).length < 2 ^ 31) :
    SamplesWithin (|s.ampTotal| * sampleError δ) (s.renderCalls clock calls).2
        (b.renderCalls s' clock calls).2 ∧
      StateNear δ (s.renderCalls clock calls).1 (b.renderCalls s' clock calls).1 := by
  induction calls generalizing s s' clock with
  | nil => exact ⟨.nil, near⟩
  | cons call rest ih =>
      cases call with
      | kill fadeDur =>
          have now : s.t < 2 ^ 31 := Nat.lt_of_le_of_lt (Nat.le_add_right _ _) small
          have amp : (s.triggerFadeOut fadeDur).ampTotal = s.ampTotal :=
            congrArg FofConstants.ampTotal (s.triggerFadeOut_constants fadeDur)
          rw [← amp]
          apply ih (triggerFadeOut_near accurate bounded near fadeDur now) clock
          rw [triggerFadeOut_t]
          exact small
      | block buf =>
          have joined : (GrainCall.inputOf (.block buf :: rest)).length =
              buf.length + (GrainCall.inputOf rest).length := List.length_append
          rw [joined] at small
          have counted := fillBlock_t_le s clock buf
          have amp : (s.fillBlock clock buf).1.ampTotal = s.ampTotal :=
            congrArg FofConstants.ampTotal (s.fillBlock_constants clock buf)
          rcases fillBlock_near accurate bounded near clock buf (by omega) with ⟨first, between⟩
          rcases ih between (clock + buf.length) (by omega) with ⟨later, ended⟩
          rw [amp] at later
          exact ⟨first.append later, ended⟩

end Blocks

/-! ## The default build -/

section DefaultBuild

theorem sineBounded_real : SineBounded ℝ := Real.abs_sin_le_one

/-- The lookup is the coarser of the two sines.  Its step is the 4096th part of a turn. -/
theorem defaultBuild_accurate {round : ℝ → ℝ} (nearest : RoundsToNearest round) :
    (defaultBuild activeSin round).Accurate (Real.pi / 4096) where
  activeSin := by
    intro phase
    rcases fastSin_nearby activeSin_periodic phase with ⟨point, found, near⟩
    rw [defaultBuild_activeSin, found, Option.getD_some]
    calc |activeSin point - activeSin phase|
        ≤ 2 * Real.pi * |point - phase| := activeSin_lipschitz _ _
      _ ≤ 2 * Real.pi * (1 / (2 * (tableSize : ℝ))) := by gcongr
      _ = Real.pi / 4096 := by
          have size : (tableSize : ℝ) = 4096 := by norm_num [tableSize, tableBits]
          rw [size]
          ring
  sinCyclesX8 := by
    intro phase lane
    rcases reduced_to_half nearest phase lane with ⟨p, half, polynomial, sine⟩
    rw [defaultBuild_sinCyclesX8, polynomial, sine]
    have fine : (18 : ℝ) / 1000000 ≤ Real.pi / 4096 := by linarith [Real.pi_gt_three]
    exact (abs_sinPoly_sub_sin_le half).trans fine

theorem spawn_decaying (params : FofParams ℝ) {sampleRate : ℝ} (rate : 0 < sampleRate)
    (decays : 0 ≤ params.alpha) : (FofState.spawn params sampleRate).Decaying where
  tables := spawn_precomputed params sampleRate
  factor := by
    refine ⟨(Real.exp_pos _).le, Real.exp_le_one_iff.mpr ?_⟩
    exact neg_nonpos.mpr (div_nonneg decays rate.le)
  decayAcc := ⟨zero_le_one, le_refl 1⟩
  envAtFo := by
    change |(0 : ℝ)| ≤ 1
    rw [abs_zero]
    exact zero_le_one

/-- The default build renders near the build with `std-sin`, whatever blocks and kills a grain
is given, and leaves the same grain apart from the level of a fade-out.  Two ways to cut a
range into blocks are audible in it, but only within twice this error. -/
theorem default_build_near_std_sin (round : ℝ → ℝ) (nearest : RoundsToNearest round)
    (params : FofParams ℝ) (sampleRate : ℝ) (rate : 0 < sampleRate) (decays : 0 ≤ params.alpha)
    (clock : Nat) :
    let grain := FofState.spawn params sampleRate
    let build := defaultBuild activeSin round
    let error := |grain.ampTotal| * sampleError (Real.pi / 4096)
    (∀ calls : List (GrainCall ℝ), (GrainCall.inputOf calls).length < 2 ^ 31 →
      SamplesWithin error (grain.renderCalls clock calls).2 (build.renderCalls grain clock calls).2 ∧
      ∃ level, (build.renderCalls grain clock calls).1 =
        (grain.renderCalls clock calls).1.withEnvAtFo level) ∧
    (∀ blocks others : List (List ℝ), (∀ buf ∈ blocks, buf ≠ []) → (∀ buf ∈ others, buf ≠ []) →
      blocks.flatten = others.flatten → blocks.flatten.length < 2 ^ 31 →
      SamplesWithin (2 * error) (build.renderCalls grain clock (blocks.map .block)).2
        (build.renderCalls grain clock (others.map .block)).2) := by
  intro grain build error
  have accurate := defaultBuild_accurate nearest
  have start : StateNear (Real.pi / 4096) grain grain := by
    refine ⟨spawn_decaying params rate decays, grain.envAtFo, rfl, ?_⟩
    rw [sub_self, abs_zero]
    positivity
  have counter : grain.t = 0 := rfl
  have all : ∀ calls : List (GrainCall ℝ), (GrainCall.inputOf calls).length < 2 ^ 31 →
      SamplesWithin error (grain.renderCalls clock calls).2
          (build.renderCalls grain clock calls).2 ∧
        StateNear (Real.pi / 4096) (grain.renderCalls clock calls).1
          (build.renderCalls grain clock calls).1 := by
    intro calls short
    apply renderCalls_near accurate sineBounded_real start clock calls
    rw [counter, Nat.zero_add]
    exact short
  constructor
  · intro calls short
    rcases all calls short with ⟨samples, _, level, state, _⟩
    exact ⟨samples, level, state⟩
  · intro blocks others proper properOthers same short
    have input : ∀ list : List (List ℝ), GrainCall.inputOf (list.map .block) = list.flatten := by
      intro list
      rw [GrainCall.inputOf, List.flatMap_map]
      exact List.flatMap_id
    have first := (all (blocks.map .block) (by rw [input]; exact short)).1
    have second := (all (others.map .block) (by rw [input, ← same]; exact short)).1
    rw [← FofState.partition_invisible realLaws (FofState.Sound.spawn params sampleRate) clock
      proper properOthers same] at second
    exact first.join second

/-- A grain that is killed during its attack, inside a chunk. -/
theorem default_build_near_std_sin_killed :
    let params : FofParams ℝ := ⟨1, 0, 440, 0, 0, 1, 1, 1, 1 / 1000, 1, 0, 0, 1⟩
    let calls : List (GrainCall ℝ) :=
      [.block (List.replicate 11 0), .kill 1, .block (List.replicate 9 0)]
    let build := defaultBuild activeSin (fun x : ℝ => ((round x : Int) : ℝ))
    SamplesWithin (|(FofState.spawn params 48000).ampTotal| * sampleError (Real.pi / 4096))
      ((FofState.spawn params 48000).renderCalls 0 calls).2
      (build.renderCalls (FofState.spawn params 48000) 0 calls).2 := by
  intro params calls build
  have near := default_build_near_std_sin _ roundsToNearest_round params 48000 (by norm_num)
    zero_le_one 0
  exact (near.1 calls (by decide)).1

end DefaultBuild

end Grain
end Rfofs
