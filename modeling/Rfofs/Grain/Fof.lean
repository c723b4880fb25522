import Rfofs.Foundation.LaneLoop
import Rfofs.Foundation.MachineInt
import Rfofs.Grain.Params

namespace Rfofs
namespace Grain

open Foundation

/-!
# One grain

The state of a grain and everything that is done to it: it is spawned, it fills
blocks, and it may be killed.  The definitions take the operations on samples as
they come and assume no law of them, so they may be read over machine numbers whose
sums and products are rounded as well as over an ordered field, where they are
exact.  The transcendental functions are the operations of `RealOps`, the
conversions between samples and counters those of `Conversions`, and the two sine
formulas those of a build (`Sines`).

Over an ordered field the conversions are the exact ones, and where nothing else is
said both sine formulas are the one of the `std-sin` build.

Sample counters are natural numbers below `2 ^ 32`.  Conversions from a sample
value saturate, and the one addition that can leave the range wraps.

The phase of a grain changes lazily: a block that ends exactly where a phase does
leaves the transition to the next call.
-/

/-- The functions on sample values that are not field operations. -/
class RealOps (R : Type*) where
  exp : R → R
  expM1 : R → R
  ln : R → R
  sin : R → R
  cos : R → R
  tau : R
  pi : R
  ln2 : R
  frac1Sqrt2 : R

export RealOps (exp expM1 ln sin cos)

/-- Lifecycle phase of an active grain. -/
inductive FofPhase where
  | attack
  | decay
  | fadeOut
  | dead
  deriving DecidableEq, Repr

/-- Transitions that are still possible from a phase.  It goes down with each of them. -/
def FofPhase.rank : FofPhase → Nat
  | .attack => 3
  | .decay => 2
  | .fadeOut => 1
  | .dead => 0

def lanes : Nat := 8

theorem lanes_pos : 0 < lanes := Nat.succ_pos 7

/-- Eight samples at once. -/
abbrev F32x8 (R : Type*) := Fin lanes → R

variable {R : Type*}

/-- The fields of a grain that are set when it is spawned and never written
again. -/
structure FofConstants (R : Type*) where
  params : FofParams R
  logFFactor : R
  sampleRate : R
  carrierPhase0 : R
  fOverSr : R
  inv2beta : R
  d : R
  dPows : F32x8 R
  d8 : R
  lnR : R
  rPowsM1 : F32x8 R
  hasGliss : Bool
  glissScale : R
  ampTotal : R
  attackEnd : Nat
  decayEnd : Nat

/-- Runtime state of a grain.  The constants of its parent structure are never written after
the spawn. -/
structure FofState (R : Type*) extends FofConstants R where
  phase : FofPhase
  carrierPhase : R
  fCurrent : R
  t : Nat
  envAtFo : R
  tFo : Nat
  effectiveFadeDur : R
  decayAcc : R
  fadeoutEnd : Nat

/-! ## Conversions between counters and samples -/

def u32Max : Nat := 2 ^ 32 - 1

/-- A counter read as a signed word. -/
def asI32 (t : Nat) : Int := if t < 2 ^ 31 then t else t - 2 ^ 32

/-- How sample values are rounded to whole ones and converted to counters.  The products that
go in are those of the arithmetic of `R`. -/
class Conversions (R : Type*) [Zero R] [LT R] [Max R] where
  floor : R → R
  ceil : R → R
  asU32 : R → Nat
  asU32_le : ∀ x, asU32 x ≤ u32Max
  ceil_positive : ∀ x : R, 0 < x → 0 < asU32 (ceil (max x 0))

export Conversions (asU32)

section Conversions

variable [Zero R] [LT R] [Max R] [Conversions R]

/-- The first counter that is not below `x`, as the code converts it. -/
def ceilU32 (x : R) : Nat := asU32 (Conversions.ceil (max x 0))

theorem ceilU32_le (x : R) : ceilU32 x ≤ u32Max := Conversions.asU32_le _

theorem ceilU32_positive {x : R} (positive : 0 < x) : 0 < ceilU32 x :=
  Conversions.ceil_positive x positive

def wrapPhase [Sub R] (phase : R) : R := phase - Conversions.floor phase

end Conversions

/-- Exact conversions.  The one to a counter truncates and saturates. -/
instance Conversions.exact [Field R] [LinearOrder R] [FloorRing R] : Conversions R where
  floor x := (⌊x⌋ : Int)
  ceil x := (⌈x⌉ : Int)
  asU32 x := min ⌊x⌋.toNat u32Max
  asU32_le _ := Nat.min_le_right _ _
  ceil_positive x positive := by
    have rounded : 0 < ⌈max x 0⌉ := by
      rw [max_eq_left positive.le]
      exact Int.ceil_pos.mpr positive
    have kept : ⌈max x 0⌉ ≤ ⌊((⌈max x 0⌉ : Int) : R)⌋ := Int.le_floor.mpr (le_refl _)
    exact Nat.lt_min.mpr ⟨by omega, Nat.sub_pos_of_lt (Nat.one_lt_two_pow (by omega))⟩

/-! ## Transitions -/

section Transitions

variable [Zero R] [Mul R] [Pow R Int] [LT R] [Max R] [Conversions R]

/-- The decay envelope, evaluated from `t`.  The exponent is the signed reading of the
counter, as in the source. -/
def FofConstants.decayEnvAt (c : FofConstants R) (t : Nat) : R := c.d ^ asI32 t

namespace FofState

/-- Enter the fade-out at the current sample.  The sum of the two counters wraps as in a build
without overflow checks. -/
def enterFadeOut (s : FofState R) (env fadeDur : R) : FofState R :=
  let effectiveFadeDur := fadeDur * s.sampleRate
  { s with
    envAtFo := env
    tFo := s.t
    effectiveFadeDur := effectiveFadeDur
    fadeoutEnd := wrappingAdd 32 s.t (ceilU32 effectiveFadeDur)
    phase := .fadeOut }

/-- Move to the next phase, when the budget of the current one is used up. -/
def transitionPhase (s : FofState R) : FofState R :=
  match s.phase with
  | .attack => { s with phase := .decay }
  | .decay => s.enterFadeOut (s.decayEnvAt s.t) s.params.fadeDur
  | .fadeOut => { s with phase := .dead }
  | .dead => s

/-- The sample at which the current phase ends; a dead grain has none. -/
def phaseEnd (s : FofState R) : Option Nat :=
  match s.phase with
  | .attack => some s.attackEnd
  | .decay => some s.decayEnd
  | .fadeOut => some s.fadeoutEnd
  | .dead => none

theorem transitionPhase_constants (s : FofState R) :
    s.transitionPhase.toFofConstants = s.toFofConstants := by
  unfold transitionPhase
  cases s.phase <;> rfl

theorem transitionPhase_t (s : FofState R) : s.transitionPhase.t = s.t := by
  unfold transitionPhase
  cases s.phase <;> rfl

theorem transitionPhase_rank {s : FofState R} {phaseEnd : Nat} (alive : s.phaseEnd = some phaseEnd) :
    s.transitionPhase.phase.rank < s.phase.rank := by
  unfold FofState.phaseEnd at alive
  unfold transitionPhase
  cases phase : s.phase with
  | attack => exact Nat.lt_succ_self 2
  | decay => exact Nat.lt_succ_self 1
  | fadeOut => exact Nat.lt_succ_self 0
  | dead =>
      rw [phase] at alive
      cases alive

end FofState

end Transitions

/-- Rendering a sample outweighs any change of phase.  This is why the loop of a block ends. -/
theorem run_measure {remaining : Nat} (left : remaining ≠ 0) (after before : FofPhase) {X : Type*}
    (x : X) (rest : List X) :
    4 * ((x :: rest).drop (min remaining (x :: rest).length)).length + after.rank <
      4 * (x :: rest).length + before.rank := by
  have bounded : after.rank ≤ 3 := by cases after <;> decide
  have taken : 1 ≤ min remaining (x :: rest).length := by
    rw [List.length_cons]
    omega
  have shorter : ((x :: rest).drop (min remaining (x :: rest).length)).length + 1 ≤
      (x :: rest).length := by
    rw [List.length_drop, List.length_cons] at *
    omega
  omega

/-! ## Lane values -/

namespace F32x8

def splat (x : R) : F32x8 R := fun _ => x

/-- The lanes of a slice of eight samples. -/
def ofSlice [Zero R] (xs : List R) : F32x8 R := fun lane => xs.getD lane 0

def toArray (v : F32x8 R) : List R := List.ofFn v

def max [Max R] (v w : F32x8 R) : F32x8 R := fun lane => Max.max (v lane) (w lane)

/-- `v * w + x`, lane by lane. -/
def mulAdd [Mul R] [Add R] (v w x : F32x8 R) : F32x8 R := v * w + x

end F32x8

/-- The offset of each lane. -/
def iota [NatCast R] : F32x8 R := fun lane => ((lane : Nat) : R)

/-- The two sines of a build, of a phase in cycles: that of the scalar formulas and
that of the lanes. -/
structure SineBuild (R : Type*) where
  activeSin : R → R
  sinCyclesX8 : F32x8 R → F32x8 R

/-- The build that a grain is compiled in. -/
class Sines (R : Type*) where
  build : SineBuild R

/-- Sine of a phase in cycles, in the scalar formulas. -/
def activeSin [Sines R] (phase : R) : R := Sines.build.activeSin phase

/-- Sine of a phase in cycles, in the lane formulas. -/
def sinCyclesX8 [Sines R] (phase : F32x8 R) : F32x8 R := Sines.build.sinCyclesX8 phase

/-- The `std-sin` build has one sine for both. -/
instance stdSin [Mul R] [RealOps R] : Sines R where
  build :=
    { activeSin := fun phase => sin (phase * RealOps.tau)
      sinCyclesX8 := fun phase lane => sin (phase lane * RealOps.tau) }

theorem activeSin_std [Mul R] [RealOps R] (phase : R) :
    activeSin phase = sin (phase * RealOps.tau) :=
  rfl

theorem sinCyclesX8_std [Mul R] [RealOps R] (phase : F32x8 R) (lane : Fin lanes) :
    sinCyclesX8 phase lane = activeSin (phase lane) :=
  rfl

/-! ## The start of a grain -/

section Spawning

variable [Zero R] [One R] [Add R] [Sub R] [Neg R] [Mul R] [Div R] [NatCast R] [Max R] [LT R]
  [LE R] [DecidableEq R] [DecidableLT R] [DecidableLE R] [RealOps R] [Conversions R]

/-- Peak of the envelope as a function of the two rates. -/
def fofAmax (alpha beta : R) : R :=
  let x := alpha * beta
  if x < 1 / 100 then
    1
  else if x ≤ 10 then
    let x := ln x
    let x2 := x * x
    let a := -(2677 / 100000) * x2 * x - (2582 / 10000) * x2 - (8238 / 10000) * x - 9322 / 10000
    exp a
  else
    0

/-- The powers of the decay factor, each from the one before. -/
def decayPower (d : R) : Nat → R
  | 0 => 1
  | k + 1 => decayPower d k * d

/-- Promote parameters to an active grain.  All tables of powers are computed here, once for
the whole life. -/
def FofState.spawn (params : FofParams R) (sampleRate : R) : FofState R :=
  let logFFactor := exp (params.gliss * RealOps.ln2 / sampleRate)
  let carrierPhase0 := wrapPhase (params.phi / RealOps.tau)
  let betaSamples := params.beta * sampleRate
  let alphaPerSample := params.alpha / sampleRate
  let peak := fofAmax params.alpha params.beta
  let ampScale := if 0 < peak then 1 / peak else 0
  let d := exp (-alphaPerSample)
  let lnR := params.gliss * RealOps.ln2 / sampleRate
  let glissDenom := expM1 lnR
  let fOverSr := params.f / sampleRate
  let attackEnd := ceilU32 betaSamples
  let decayEndRaw :=
    if 0 < params.alpha ∧ 0 < params.fadeLevel then
      ceilU32 (-ln params.fadeLevel / alphaPerSample)
    else
      u32Max
  { params := params
    logFFactor := logFFactor
    sampleRate := sampleRate
    carrierPhase0 := carrierPhase0
    fOverSr := fOverSr
    inv2beta := if 0 < betaSamples then 1 / (2 * betaSamples) else 0
    d := d
    dPows := fun lane => decayPower d lane
    d8 := decayPower d (lanes - 1) * d
    lnR := lnR
    rPowsM1 := fun lane => expM1 (((lane : Nat) : R) * lnR)
    hasGliss := decide (glissDenom ≠ 0)
    glissScale := if glissDenom ≠ 0 then fOverSr / glissDenom else 0
    ampTotal := params.amp * ampScale
    attackEnd := attackEnd
    decayEnd := max decayEndRaw attackEnd
    phase := .attack
    carrierPhase := carrierPhase0
    fCurrent := params.f
    t := 0
    envAtFo := 0
    tFo := 0
    effectiveFadeDur := params.fadeDur * sampleRate
    decayAcc := 1
    fadeoutEnd := u32Max }

end Spawning

/-- The envelope of one phase as its loop computes it, given the accumulator and the
counter: of a chunk and of a sample.  `stride` and `next` advance the accumulator. -/
structure RunEnvelope (R : Type*) where
  chunk : R → Nat → F32x8 R
  sample : R → Nat → R
  stride : R → R
  next : R → R

section Formulas

variable [Zero R] [One R] [Add R] [Sub R] [Mul R] [Div R] [NatCast R] [Max R] [LT R]
  [DecidableLT R] [Pow R Int] [Conversions R] [RealOps R] [Sines R]

/-! ## Closed formulas of one sample -/

namespace FofConstants

/-- The rise of the attack, evaluated from `t`. -/
def attackRiseAt (c : FofConstants R) (t : Nat) : R :=
  let phase := (t : R) * c.inv2beta + 1 / 4
  1 / 2 * (1 - activeSin phase)

/-- The carrier phase in cycles, not wrapped.  `gliss` selects the path that the
code compiles separately. -/
def carrierPhaseAt (c : FofConstants R) (gliss : Bool) (t : Nat) : R :=
  if gliss then
    c.carrierPhase0 + c.glissScale * expM1 ((t : R) * c.lnR)
  else
    c.carrierPhase0 + c.fOverSr * (t : R)

def carrierSineAt (c : FofConstants R) (gliss : Bool) (t : Nat) : R :=
  activeSin (c.carrierPhaseAt gliss t)

/-! ## Formulas of one chunk -/

def carrierPhaseChunk (c : FofConstants R) (gliss : Bool) (t0 : Nat) : F32x8 R :=
  if gliss then
    let a := F32x8.splat (expM1 ((t0 : R) * c.lnR))
    let b := c.rPowsM1
    let numerator := a + b + a * b
    F32x8.splat c.carrierPhase0 + numerator * F32x8.splat c.glissScale
  else
    let base := c.carrierPhase0 + c.fOverSr * (t0 : R)
    F32x8.splat base + iota * F32x8.splat c.fOverSr

def carrierSineChunk (c : FofConstants R) (gliss : Bool) (t0 : Nat) : F32x8 R :=
  sinCyclesX8 (c.carrierPhaseChunk gliss t0)

def decayEnvChunkFrom (c : FofConstants R) (dBase : R) : F32x8 R :=
  F32x8.splat dBase * c.dPows

def attackRiseChunk (c : FofConstants R) (t0 : Nat) : F32x8 R :=
  let base := (t0 : R) * c.inv2beta + 1 / 4
  let phaseVec := F32x8.splat base + iota * F32x8.splat c.inv2beta
  let cosine := sinCyclesX8 phaseVec
  (F32x8.splat 1 - cosine) * F32x8.splat (1 / 2)

end FofConstants

namespace FofState

/-- Envelope value at the current sample; read at phase boundaries only. -/
def envelope (s : FofState R) : R :=
  match s.phase with
  | .attack => s.attackRiseAt s.t * s.decayEnvAt s.t
  | .decay => s.decayEnvAt s.t
  | .fadeOut =>
      let elapsed := ((s.t - s.tFo : Nat) : R)
      s.envAtFo * max (1 - elapsed / s.effectiveFadeDur) 0
  | .dead => 0

/-- A kill request.  It has no effect on a grain that fades out or is dead. -/
def triggerFadeOut (s : FofState R) (fadeDur : R) : FofState R :=
  if s.phase = .fadeOut ∨ s.phase = .dead then s else s.enterFadeOut s.envelope fadeDur

/-! ## Runs of one phase -/

def attackEnvelope (s : FofState R) : RunEnvelope R where
  chunk acc t0 := s.decayEnvChunkFrom acc * s.attackRiseChunk t0
  sample acc t := acc * s.attackRiseAt t
  stride acc := acc * s.d8
  next acc := acc * s.d

def decayEnvelope (s : FofState R) : RunEnvelope R where
  chunk acc _ := s.decayEnvChunkFrom acc
  sample acc _ := acc
  stride acc := acc * s.d8
  next acc := acc * s.d

/-- The fade-out does not touch the accumulator. -/
def fadeoutEnvelope (s : FofState R) : RunEnvelope R :=
  let invDur := if 0 < s.effectiveFadeDur then 1 / s.effectiveFadeDur else 0
  { chunk := fun _ t0 =>
      let elapsedVec := F32x8.splat ((t0 - s.tFo : Nat) : R) + iota
      F32x8.splat s.envAtFo *
        (F32x8.splat 1 - elapsedVec * F32x8.splat invDur).max (F32x8.splat 0)
    sample := fun _ t =>
      let elapsed := ((t - s.tFo : Nat) : R)
      s.envAtFo * max (1 - elapsed * invDur) 0
    stride := id
    next := id }

/-- The loop that all three phases share: chunks of eight samples, then a tail.  The
accumulator is handed on from one to the next. -/
def processRun (s : FofState R) (gliss : Bool) (envelope : RunEnvelope R) (buf : List R) :
    List R × R :=
  laneLoop lanes lanes_pos
    (fun acc idx slice =>
      let t0 := s.t + idx
      let envVec := envelope.chunk acc t0
      let sineVec := s.carrierSineChunk gliss t0
      ((envVec * sineVec).mulAdd (F32x8.splat s.ampTotal) (F32x8.ofSlice slice)).toArray)
    envelope.stride
    (fun acc idx x =>
      let t := s.t + idx
      x + s.ampTotal * envelope.sample acc t * s.carrierSineAt gliss t)
    envelope.next s.decayAcc 0 buf

def processAttackImpl (s : FofState R) (gliss : Bool) (buf : List R) : List R × FofState R :=
  let run := s.processRun gliss s.attackEnvelope buf
  (run.1, { s with decayAcc := run.2 })

def processDecayImpl (s : FofState R) (gliss : Bool) (buf : List R) : List R × FofState R :=
  let run := s.processRun gliss s.decayEnvelope buf
  (run.1, { s with decayAcc := run.2 })

def processFadeoutImpl (s : FofState R) (gliss : Bool) (buf : List R) : List R × FofState R :=
  let run := s.processRun gliss s.fadeoutEnvelope buf
  (run.1, s)

def processAttack (s : FofState R) (buf : List R) : List R × FofState R :=
  if s.hasGliss then s.processAttackImpl true buf else s.processAttackImpl false buf

def processDecay (s : FofState R) (buf : List R) : List R × FofState R :=
  if s.hasGliss then s.processDecayImpl true buf else s.processDecayImpl false buf

def processFadeout (s : FofState R) (buf : List R) : List R × FofState R :=
  if s.hasGliss then s.processFadeoutImpl true buf else s.processFadeoutImpl false buf

/-! ## Blocks -/

/-- Dispatch of a run on the phase. -/
def process (s : FofState R) (buf : List R) : List R × FofState R :=
  match s.phase with
  | .attack => s.processAttack buf
  | .decay => s.processDecay buf
  | .fadeOut => s.processFadeout buf
  | .dead => (buf, s)

/-- The loop over the rest of a block.  A turn either moves to the next phase or
renders the part of the rest that lies in the current phase. -/
def fillLoop (s : FofState R) (buf : List R) : FofState R × List R :=
  match buf with
  | [] => (s, [])
  | x :: rest =>
      match alive : s.phaseEnd with
      | none => (s, x :: rest)
      | some phaseEnd =>
          let remaining := phaseEnd - s.t
          if remaining = 0 then
            have := transitionPhase_rank alive
            s.transitionPhase.fillLoop (x :: rest)
          else
            let runLen := min remaining (x :: rest).length
            let run := s.process ((x :: rest).take runLen)
            let later := fillLoop { run.2 with t := run.2.t + runLen } ((x :: rest).drop runLen)
            (later.1, run.1 ++ later.2)
termination_by 4 * buf.length + s.phase.rank
decreasing_by
  · omega
  · exact run_measure (by assumption) run.2.phase s.phase x rest

/-- Fill `buf` with the samples of the block that starts at `blockStart`.  What lies before
the onset is left alone. -/
def fillBlock (s : FofState R) (blockStart : Nat) (buf : List R) : FofState R × List R :=
  if s.phase = .dead then
    (s, buf)
  else
    let startOffset := s.params.startSample - blockStart
    let filled := s.fillLoop (buf.drop startOffset)
    let s' := filled.1
    let s'' :=
      if s'.hasGliss then
        { s' with
          carrierPhase := wrapPhase (s'.carrierPhaseAt true s'.t)
          fCurrent := s'.params.f * s'.logFFactor ^ asI32 s'.t }
      else
        { s' with carrierPhase := wrapPhase (s'.carrierPhaseAt false s'.t) }
    (s'', buf.take startOffset ++ filled.2)

/-! ## One turn of the loop -/

theorem fillLoop_nil (s : FofState R) : s.fillLoop [] = (s, []) := by rw [fillLoop]

theorem fillLoop_dead {s : FofState R} (dead : s.phaseEnd = none) (buf : List R) :
    s.fillLoop buf = (s, buf) := by
  cases buf with
  | nil => exact s.fillLoop_nil
  | cons x rest =>
      rw [fillLoop]
      split
      · rfl
      · rename_i alive
        rw [dead] at alive
        cases alive

theorem fillLoop_due {s : FofState R} {phaseEnd : Nat} (alive : s.phaseEnd = some phaseEnd)
    (due : phaseEnd - s.t = 0) (x : R) (rest : List R) :
    s.fillLoop (x :: rest) = s.transitionPhase.fillLoop (x :: rest) := by
  conv_lhs => rw [fillLoop]
  split
  · rename_i dead
    rw [dead] at alive
    cases alive
  · rename_i other found
    rw [alive] at found
    cases found
    exact if_pos due

theorem fillLoop_run {s : FofState R} {phaseEnd : Nat} (alive : s.phaseEnd = some phaseEnd)
    (left : phaseEnd - s.t ≠ 0) (x : R) (rest : List R) :
    let runLen := min (phaseEnd - s.t) (x :: rest).length
    let run := s.process ((x :: rest).take runLen)
    let later := fillLoop { run.2 with t := run.2.t + runLen } ((x :: rest).drop runLen)
    s.fillLoop (x :: rest) = (later.1, run.1 ++ later.2) := by
  intro runLen run later
  conv_lhs => rw [fillLoop]
  split
  · rename_i dead
    rw [dead] at alive
    cases alive
  · rename_i other found
    rw [alive] at found
    cases found
    exact if_neg left

/-! ## What is never written again -/

omit [Pow R Int] [Conversions R] in
theorem process_constants (s : FofState R) (buf : List R) :
    (s.process buf).2.toFofConstants = s.toFofConstants := by
  cases phase : s.phase with
  | attack =>
      simp only [process, phase, processAttack]
      split <;> rfl
  | decay =>
      simp only [process, phase, processDecay]
      split <;> rfl
  | fadeOut =>
      simp only [process, phase, processFadeout]
      split <;> rfl
  | dead => simp only [process, phase]

theorem fillLoop_constants (s : FofState R) (buf : List R) :
    (s.fillLoop buf).1.toFofConstants = s.toFofConstants := by
  fun_induction fillLoop s buf with
  | case1 s => rfl
  | case2 s x rest dead => rfl
  | case3 s x rest phaseEnd alive remaining spent lower ih =>
      rw [ih, transitionPhase_constants]
  | case4 s x rest phaseEnd alive remaining left runLen run later ih =>
      exact ih.trans (s.process_constants _)

theorem fillBlock_constants (s : FofState R) (blockStart : Nat) (buf : List R) :
    (s.fillBlock blockStart buf).1.toFofConstants = s.toFofConstants := by
  unfold fillBlock
  split
  · rfl
  · have filled := s.fillLoop_constants (buf.drop (s.params.startSample - blockStart))
    dsimp only
    split <;> exact filled

omit [DecidableLT R] [RealOps R] in
theorem triggerFadeOut_constants (s : FofState R) (fadeDur : R) :
    (s.triggerFadeOut fadeDur).toFofConstants = s.toFofConstants := by
  unfold triggerFadeOut
  split <;> rfl

omit [DecidableLT R] [RealOps R] in
/-- A kill is heard in Attack and in Decay. -/
theorem triggerFadeOut_of_heard {s : FofState R} (heard : s.phase = .attack ∨ s.phase = .decay)
    (fadeDur : R) : s.triggerFadeOut fadeDur = s.enterFadeOut s.envelope fadeDur := by
  apply if_neg
  rcases heard with phase | phase <;> rw [phase] <;> decide

/-! ## The counter -/

omit [Pow R Int] [Conversions R] in
/-- A run writes neither the counter nor the phase. -/
theorem process_t (s : FofState R) (buf : List R) :
    (s.process buf).2.t = s.t ∧ (s.process buf).2.phase = s.phase := by
  cases phase : s.phase with
  | attack =>
      simp only [process, phase, processAttack]
      split <;> exact ⟨rfl, phase⟩
  | decay =>
      simp only [process, phase, processDecay]
      split <;> exact ⟨rfl, phase⟩
  | fadeOut =>
      simp only [process, phase, processFadeout]
      split <;> exact ⟨rfl, phase⟩
  | dead =>
      simp only [process, phase]
      exact ⟨trivial, trivial⟩

/-- The loop counts every sample that it is given, unless the grain dies in it. -/
theorem fillLoop_t (s : FofState R) (buf : List R) :
    (s.fillLoop buf).1.t = s.t + buf.length ∨
      (s.fillLoop buf).1.phase = .dead ∧ (s.fillLoop buf).1.t ≤ s.t + buf.length := by
  fun_induction fillLoop s buf with
  | case1 s => exact Or.inl rfl
  | case2 s x rest alive =>
      refine Or.inr ⟨?_, Nat.le_add_right _ _⟩
      unfold phaseEnd at alive
      cases phase : s.phase <;> simp_all
  | case3 s x rest phaseEnd alive remaining spent lower ih =>
      rwa [transitionPhase_t] at ih
  | case4 s x rest phaseEnd alive remaining left runLen run later ih =>
      have counted : run.2.t = s.t := (s.process_t _).1
      have short : runLen ≤ (x :: rest).length := Nat.min_le_right _ _
      have whole : run.2.t + runLen + ((x :: rest).length - runLen) =
          s.t + (x :: rest).length := by
        omega
      rw [List.length_drop] at ih
      rwa [whole] at ih

/-- A block counts the samples behind the onset, unless the grain dies in it. -/
theorem fillBlock_t {s : FofState R} (alive : s.phase ≠ .dead) (blockStart : Nat)
    (buf : List R) :
    (s.fillBlock blockStart buf).1.t =
        s.t + (buf.length - (s.params.startSample - blockStart)) ∨
      (s.fillBlock blockStart buf).1.phase = .dead ∧ (s.fillBlock blockStart buf).1.t ≤
        s.t + (buf.length - (s.params.startSample - blockStart)) := by
  have counted := s.fillLoop_t (buf.drop (s.params.startSample - blockStart))
  rw [List.length_drop] at counted
  unfold fillBlock
  rw [if_neg alive]
  dsimp only
  split <;> exact counted

/-- A block that ends before the onset leaves the counter and the phase alone. -/
theorem fillBlock_before {s : FofState R} (alive : s.phase ≠ .dead) (blockStart : Nat)
    (buf : List R) (before : blockStart + buf.length ≤ s.params.startSample) :
    (s.fillBlock blockStart buf).1.t = s.t ∧ (s.fillBlock blockStart buf).1.phase = s.phase := by
  have filled : (s.fillLoop (buf.drop (s.params.startSample - blockStart))).1.t = s.t ∧
      (s.fillLoop (buf.drop (s.params.startSample - blockStart))).1.phase = s.phase := by
    rw [List.drop_eq_nil_of_le (by omega), fillLoop]
    exact ⟨rfl, rfl⟩
  unfold fillBlock
  rw [if_neg alive]
  dsimp only
  split <;> exact filled

/-- A block is left alone up to the onset and rendered from there on. -/
theorem fillBlock_onset {s : FofState R} (alive : s.phase ≠ .dead) (blockStart : Nat)
    (buf : List R) :
    (s.fillBlock blockStart buf).2 = buf.take (s.params.startSample - blockStart) ++
      (s.fillLoop (buf.drop (s.params.startSample - blockStart))).2 := by
  unfold fillBlock
  rw [if_neg alive]

end FofState

end Formulas

end Grain
end Rfofs
