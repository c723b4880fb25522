import Rfofs.Grain.FadeEnd
import Rfofs.Grain.Trajectory

namespace Rfofs
namespace Grain

open Foundation

/-!
# Where a kill is continuous

A kill fixes the envelope of its fade-out before the transitions that are due at the
current sample have been made; without the kill they are made first.  So the two agree
inside a phase, and on a boundary they agree only by what the formulas of both phases
happen to give there.

`nextEnv` is the envelope of the next sample, as the loop of a block would render it.
The comparison needs three more facts about a grain between two calls: its accumulator
holds the exact power of the decay factor, while the envelope of a kill is computed from
the counter read as a signed word; a fade-out whose end wraps is over at once; and the
natural fade-out at the end of the decay may have no samples at all.
-/

variable {R : Type*} [Field R]

/-! ## The decay, from the counter and from the accumulator -/

/-- What the signed reading of the counter loses.  Below the range of a signed word it is one. -/
def FofConstants.signLoss (c : FofConstants R) (t : Nat) : R :=
  if t < 2 ^ 31 then 1 else c.d ^ (2 ^ 32)

theorem FofConstants.decay_scaled {c : FofConstants R} (nonzero : c.d ≠ 0) (t : Nat) :
    c.d ^ t = c.decayEnvAt t * c.signLoss t := by
  rw [decayEnvAt, asI32, signLoss]
  split
  · rw [zpow_natCast, mul_one]
  · have word : (2 : Int) ^ 32 = ((2 ^ 32 : Nat) : Int) := by norm_num
    rw [zpow_sub₀ nonzero, word, zpow_natCast, zpow_natCast,
      div_mul_cancel₀ _ (pow_ne_zero _ nonzero)]

variable [LinearOrder R]

theorem FofConstants.signLoss_eq_one_iff [IsStrictOrderedRing R] {c : FofConstants R}
    (positive : 0 < c.d) (t : Nat) : c.signLoss t = 1 ↔ t < 2 ^ 31 ∨ c.d = 1 := by
  rw [signLoss]
  split
  · simp_all
  · rename_i late
    rw [pow_eq_one_iff_of_nonneg positive.le (by norm_num)]
    exact ⟨Or.inr, fun either => either.resolve_left late⟩

variable [FloorRing R]

namespace FofState

theorem settle_t (s : FofState R) : s.settle.t = s.t := by
  have step : ∀ s : FofState R, s.settleStep.t = s.t := by
    intro s
    unfold settleStep
    split
    · split
      · exact s.transitionPhase_t
      · rfl
    · rfl
  rw [settle, step, step, step]

variable [RealOps R]

/-- The envelope of the sample that the grain renders next, behind the transitions that are
due. -/
def nextEnv (s : FofState R) : R := s.settle.sampleEnv

/-- The first sample that the loop renders has that envelope. -/
theorem fillLoop_nextEnv (laws : ExpLaws R) {s : FofState R} (sound : s.Sound) (x : R)
    (rest : List R) : (s.fillLoop (x :: rest)).2.head? =
      some (x + s.ampTotal * s.nextEnv * s.carrierSineAt s.hasGliss s.t) := by
  have constants := s.settle_constants
  rw [fillLoop_eq laws sound, List.mapIdx_cons, List.head?_cons]
  change some (x + s.sampleValue) = _
  rw [sampleValue, settledValue, settle_t, constants, nextEnv]

/-! ## Entering a fade-out -/

section Entering

variable [IsStrictOrderedRing R]

/-- A grain that has just entered its fade-out goes on with the envelope it was given,
if the fade-out has samples. -/
theorem nextEnv_enterFadeOut (s : FofState R) (counter : s.t ≤ u32Max) (env fadeDur : R) :
    (s.enterFadeOut env fadeDur).nextEnv =
      if 0 < fadeDur * s.sampleRate ∧ s.t + ceilU32 (fadeDur * s.sampleRate) < 2 ^ 32
        then env else 0 := by
  have alive : (s.enterFadeOut env fadeDur).phaseEnd =
      some (wrappingAdd 32 s.t (ceilU32 (fadeDur * s.sampleRate))) := rfl
  have now : (s.enterFadeOut env fadeDur).t = s.t := rfl
  by_cases lasts : 0 < fadeDur * s.sampleRate ∧ s.t + ceilU32 (fadeDur * s.sampleRate) < 2 ^ 32
  · have length := ceilU32_positive lasts.1
    have inside : (s.enterFadeOut env fadeDur).t <
        wrappingAdd 32 s.t (ceilU32 (fadeDur * s.sampleRate)) := by
      rw [wrappingAdd_eq lasts.2, now]
      omega
    rw [if_pos lasts, nextEnv, settle_of_inside alive inside]
    simp [sampleEnv, enterFadeOut]
  · have ended : wrappingAdd 32 s.t (ceilU32 (fadeDur * s.sampleRate)) ≤ s.t := by
      have bounded : ceilU32 (fadeDur * s.sampleRate) ≤ u32Max := ceilU32_le _
      unfold u32Max at bounded counter
      rw [wrappingAdd]
      by_cases positive : 0 < fadeDur * s.sampleRate
      · have overflow : 2 ^ 32 ≤ s.t + ceilU32 (fadeDur * s.sampleRate) :=
          Nat.le_of_not_lt (fun fits => lasts ⟨positive, fits⟩)
        omega
      · rw [ceilU32_nonpos (not_lt.mp positive)]
        omega
    have died : (s.enterFadeOut env fadeDur).settleStep.phase = .dead := by
      rw [settleStep_of_due alive ended]
      rfl
    rw [if_neg lasts, nextEnv, ← settle_settleStep, settle_of_dead (phaseEnd_of_dead died),
      sampleEnv, died]

end Entering

/-! ## Without the kill -/

variable {c : FofConstants R} {n : Nat} {s : FofState R}

theorem Rising.nextEnv_within (rising : Rising c n s) (early : n < c.decayEnd) :
    s.nextEnv = c.risingEnv n := by
  have constants := rising.constants
  have t := rising.t
  have decayAcc := rising.decayAcc
  have decaying : ∀ s : FofState R, s.toFofConstants = c → s.t = n → s.decayAcc = c.d ^ n →
      s.phase = .decay → s.nextEnv = c.d ^ n := by
    intro s constants t decayAcc phase
    have alive : s.phaseEnd = some c.decayEnd := by simp only [phaseEnd, phase, constants]
    rw [nextEnv, settle_of_inside alive (by omega)]
    simp only [sampleEnv, phase, decayAcc]
  rw [FofConstants.risingEnv]
  rcases rising.phase with ⟨phase, within⟩ | ⟨phase, past, _⟩
  · have alive : s.phaseEnd = some c.attackEnd := by simp only [phaseEnd, phase, constants]
    split
    · rename_i inside
      rw [nextEnv, settle_of_inside alive (by omega)]
      simp only [sampleEnv, phase, decayAcc, constants, t]
      exact mul_comm _ _
    · rename_i outside
      have due : s.settleStep = { s with phase := .decay } := by
        rw [settleStep_of_due alive (by omega)]
        simp only [transitionPhase, phase]
      rw [nextEnv, ← settle_settleStep, due]
      exact decaying _ constants t decayAcc rfl
  · rw [if_neg (Nat.not_lt_of_le past.le)]
    exact decaying s constants t decayAcc phase

theorem Rising.nextEnv_end [IsStrictOrderedRing R] (rising : Rising c c.decayEnd s)
    (ordered : c.attackEnd ≤ c.decayEnd) (counter : c.decayEnd ≤ u32Max) :
    s.nextEnv = if 0 < c.params.fadeDur * c.sampleRate ∧
        c.decayEnd + ceilU32 (c.params.fadeDur * c.sampleRate) < 2 ^ 32
      then c.decayEnvAt c.decayEnd else 0 := by
  have constants := rising.constants
  have t := rising.t
  have entered : ∀ s : FofState R, s.toFofConstants = c → s.t = c.decayEnd → s.phase = .decay →
      s.nextEnv = if 0 < c.params.fadeDur * c.sampleRate ∧
          c.decayEnd + ceilU32 (c.params.fadeDur * c.sampleRate) < 2 ^ 32
        then c.decayEnvAt c.decayEnd else 0 := by
    intro s constants t phase
    have alive : s.phaseEnd = some c.decayEnd := by simp only [phaseEnd, phase, constants]
    have due : s.settleStep = s.enterFadeOut (s.decayEnvAt s.t) s.params.fadeDur := by
      rw [settleStep_of_due alive t.ge]
      simp only [transitionPhase, phase]
    have next := nextEnv_enterFadeOut s (t.trans_le counter) (s.decayEnvAt s.t) s.params.fadeDur
    rw [← due, nextEnv, settle_settleStep, ← nextEnv, constants, t] at next
    exact next
  rcases rising.phase with ⟨phase, within⟩ | ⟨phase, _⟩
  · have alive : s.phaseEnd = some c.attackEnd := by simp only [phaseEnd, phase, constants]
    have due : s.settleStep = { s with phase := .decay } := by
      rw [settleStep_of_due alive (by omega)]
      simp only [transitionPhase, phase]
    rw [nextEnv, ← settle_settleStep, due]
    exact entered _ constants t rfl
  · exact entered s constants t phase

/-! ## Reached grains -/

theorem afterCalls_constants (s : FofState R) (calls : List (FofCall R)) :
    (s.afterCalls calls).toFofConstants = s.toFofConstants := by
  refine List.foldlRecOn calls call (motive := fun s' => s'.toFofConstants = s.toFofConstants)
    rfl ?_
  intro s' constants next _
  cases next with
  | fillBlock blockStart buf => exact (s'.fillBlock_constants blockStart buf).trans constants
  | triggerFadeOut fadeDur => exact (s'.triggerFadeOut_constants fadeDur).trans constants

/-- A grain between two calls: its tables are right, its counter lies within its phase,
and its accumulator holds the power of the decay factor until it fades out. -/
structure Between (s : FofState R) : Prop where
  counted : s.Counted
  sound : s.Sound
  rising : s.Unfaded → Rising s.toFofConstants s.t s

theorem Between.call (laws : ExpLaws R) {s : FofState R} (between : s.Between)
    (call : FofCall R) : (s.call call).Between := by
  cases call with
  | triggerFadeOut fadeDur =>
      exact ⟨between.counted.call (.triggerFadeOut fadeDur), between.sound.triggerFadeOut fadeDur,
        fun unfaded => absurd unfaded (s.triggerFadeOut_faded fadeDur)⟩
  | fillBlock blockStart buf =>
      refine ⟨between.counted.call (.fillBlock blockStart buf),
        fillBlock_sound laws between.sound blockStart buf, ?_⟩
      intro stays
      have unfaded : s.Unfaded := Nat.lt_of_lt_of_le stays (s.fillBlock_rank blockStart buf)
      have short := (fillBlock_unfaded_iff between.counted unfaded blockStart buf).mp stays
      have filled := (between.rising unfaded).fillBlock laws between.sound short
      have constants := s.fillBlock_constants blockStart buf
      change Rising (s.fillBlock blockStart buf).1.toFofConstants
        (s.fillBlock blockStart buf).1.t (s.fillBlock blockStart buf).1
      rw [constants, filled.t]
      exact filled

theorem Between.reached (laws : ExpLaws R) (params : FofParams R) (sampleRate : R)
    (calls : List (FofCall R)) : ((FofState.spawn params sampleRate).afterCalls calls).Between := by
  refine List.foldlRecOn calls FofState.call (motive := Between) ?_ ?_
  · exact ⟨Counted.spawn params sampleRate, Sound.spawn params sampleRate,
      fun _ => Rising.spawn params sampleRate⟩
  · exact fun s between next _ => between.call laws next

/-! ## The condition -/

/-- When a kill of a grain that attacks or decays is continuous.  At the end of the decay
the natural fade-out decides, inside the attack and inside the decay only the range of the
counter plays a part, and at the end of the attack the sine has to be at the bottom of its
swing there. -/
def KillContinuous (s : FofState R) (fadeDur : R) : Prop :=
  let sine := activeSin ((s.t : R) * s.inv2beta + 1 / 4)
  let fits := s.t + ceilU32 (fadeDur * s.sampleRate) < 2 ^ 32
  let unsigned := s.t < 2 ^ 31 ∨ s.d = 1
  if s.t = s.decayEnd then
    if 0 < s.params.fadeDur * s.sampleRate ∧
        s.t + ceilU32 (s.params.fadeDur * s.sampleRate) < 2 ^ 32 then
      fits ∧ (s.t = s.attackEnd → sine = -1)
    else
      ¬ fits ∨ s.t = s.attackEnd ∧ sine = 1
  else if s.t < s.attackEnd then
    sine = 1 ∨ fits ∧ unsigned
  else if s.t = s.attackEnd then
    fits ∧ 1 - sine = 2 * s.signLoss s.t
  else
    fits ∧ unsigned

section Continuity

variable [IsStrictOrderedRing R]

omit [FloorRing R] in
theorem attackRiseAt_eq_iff (c : FofConstants R) (t : Nat) (x : R) :
    c.attackRiseAt t = x ↔ 1 - activeSin ((t : R) * c.inv2beta + 1 / 4) = 2 * x := by
  rw [FofConstants.attackRiseAt]
  constructor
  · intro same
    linarith
  · intro same
    linarith

/-- With the kill.  The envelope is the one at which the fade-out was entered. -/
theorem Rising.nextEnv_triggerFadeOut {c : FofConstants R} {n : Nat} {s : FofState R}
    (rising : Rising c n s) (counter : n ≤ u32Max) {fadeDur : R}
    (audible : 0 < fadeDur * c.sampleRate) :
    (s.triggerFadeOut fadeDur).nextEnv =
      if n + ceilU32 (fadeDur * c.sampleRate) < 2 ^ 32 then
        (if n ≤ c.attackEnd then c.attackRiseAt n else 1) * c.decayEnvAt n
      else 0 := by
  have constants := rising.constants
  have t := rising.t
  have envelope : s.envelope =
      (if n ≤ c.attackEnd then c.attackRiseAt n else 1) * c.decayEnvAt n := by
    rcases rising.phase with ⟨phase, early⟩ | ⟨phase, late, _⟩
    · simp only [FofState.envelope, phase, t, constants, if_pos early]
    · simp only [FofState.envelope, phase, t, constants, if_neg (Nat.not_le_of_lt late), one_mul]
  rw [triggerFadeOut_of_heard rising.heard, nextEnv_enterFadeOut s (by rwa [t]), envelope,
    constants, t]
  simp only [audible, true_and]

omit [LinearOrder R] [FloorRing R] [RealOps R] [IsStrictOrderedRing R] in
/-- Two multiples of the decay envelope, the first of which is cut off unless its fade-out
fits. -/
theorem cut_eq_iff {decayed : R} (nonzero : decayed ≠ 0) (fits : Prop) [Decidable fits]
    (rise scale : R) : (if fits then rise * decayed else 0) = scale * decayed ↔
      fits ∧ rise = scale ∨ ¬ fits ∧ scale = 0 := by
  by_cases fit : fits
  · simp [fit, nonzero]
  · simp [fit, nonzero, eq_comm]

omit [FloorRing R] in
theorem attackRiseAt_eq_one_iff (c : FofConstants R) (t : Nat) :
    c.attackRiseAt t = 1 ↔ activeSin ((t : R) * c.inv2beta + 1 / 4) = -1 := by
  rw [attackRiseAt_eq_iff]
  constructor <;> intro same <;> linarith

omit [FloorRing R] in
theorem attackRiseAt_eq_zero_iff (c : FofConstants R) (t : Nat) :
    c.attackRiseAt t = 0 ↔ activeSin ((t : R) * c.inv2beta + 1 / 4) = 1 := by
  rw [attackRiseAt_eq_iff]
  constructor <;> intro same <;> linarith

omit [FloorRing R] [RealOps R] in
theorem signLoss_ne_zero {c : FofConstants R} (positive : 0 < c.d) (t : Nat) :
    c.signLoss t ≠ 0 := by
  rw [FofConstants.signLoss]
  split
  · exact one_ne_zero
  · exact (pow_pos positive _).ne'

/-- At the end of the decay the natural fade-out goes on with the decay envelope, or with
nothing when it is empty or does not fit. -/
theorem Between.nextEnv_iff_of_end {s : FofState R} (between : s.Between) (unfaded : s.Unfaded)
    (positive : 0 < s.d) {fadeDur : R} (audible : 0 < fadeDur * s.sampleRate)
    (atEnd : s.t = s.decayEnd) :
    (s.triggerFadeOut fadeDur).nextEnv = s.nextEnv ↔ s.KillContinuous fadeDur := by
  have rising := between.rising unfaded
  have ordered := between.counted.ordered
  have bounded := between.counted.bounded
  have last : Rising s.toFofConstants s.decayEnd s := atEnd ▸ rising
  have decayed : s.decayEnvAt s.t ≠ 0 := (zpow_pos positive _).ne'
  have full := attackRiseAt_eq_one_iff s.toFofConstants s.t
  have silent := attackRiseAt_eq_zero_iff s.toFofConstants s.t
  have cut := cut_eq_iff decayed (s.t + ceilU32 (fadeDur * s.sampleRate) < 2 ^ 32)
    (if s.t ≤ s.attackEnd then s.attackRiseAt s.t else 1)
  rw [rising.nextEnv_triggerFadeOut (atEnd.trans_le bounded) audible]
  unfold KillContinuous
  dsimp only
  rw [if_pos atEnd, last.nextEnv_end ordered bounded, ← atEnd]
  by_cases natural : 0 < s.params.fadeDur * s.sampleRate ∧
      s.t + ceilU32 (s.params.fadeDur * s.sampleRate) < 2 ^ 32
  · have scale := cut 1
    rw [one_mul] at scale
    rw [if_pos natural, if_pos natural, scale]
    by_cases attackOver : s.t = s.attackEnd
    · rw [if_pos attackOver.le, full]
      simp [attackOver]
    · rw [if_neg (by omega)]
      simp [attackOver]
  · have scale := cut 0
    rw [zero_mul] at scale
    rw [if_neg natural, if_neg natural, scale]
    by_cases attackOver : s.t = s.attackEnd
    · rw [if_pos attackOver.le, silent]
      constructor
      · rintro (⟨_, low⟩ | ⟨unfit, _⟩)
        · exact Or.inr ⟨attackOver, low⟩
        · exact Or.inl unfit
      · rintro (unfit | ⟨_, low⟩)
        · exact Or.inr ⟨unfit, rfl⟩
        · by_cases fit : s.t + ceilU32 (fadeDur * s.sampleRate) < 2 ^ 32
          · exact Or.inl ⟨fit, low⟩
          · exact Or.inr ⟨fit, rfl⟩
    · rw [if_neg (by omega)]
      simp [attackOver]

/-- Before it the grain goes on with the accumulated power, and the kill with the power
that the sign of the counter has changed. -/
theorem Between.nextEnv_iff_of_inside {s : FofState R} (between : s.Between)
    (unfaded : s.Unfaded) (positive : 0 < s.d) {fadeDur : R}
    (audible : 0 < fadeDur * s.sampleRate) (atEnd : s.t ≠ s.decayEnd) :
    (s.triggerFadeOut fadeDur).nextEnv = s.nextEnv ↔ s.KillContinuous fadeDur := by
  have rising := between.rising unfaded
  have within := between.counted.t_le unfaded
  have ordered := between.counted.ordered
  have counter : s.t ≤ u32Max := within.trans between.counted.bounded
  have decayed : s.decayEnvAt s.t ≠ 0 := (zpow_pos positive _).ne'
  have lossless := signLoss_ne_zero positive s.t
  have scaled := FofConstants.decay_scaled (c := s.toFofConstants) positive.ne' s.t
  have unsigned := FofConstants.signLoss_eq_one_iff (c := s.toFofConstants) positive s.t
  have silent := attackRiseAt_eq_zero_iff s.toFofConstants s.t
  have cut := cut_eq_iff decayed (s.t + ceilU32 (fadeDur * s.sampleRate) < 2 ^ 32)
  rw [rising.nextEnv_triggerFadeOut counter audible]
  unfold KillContinuous
  dsimp only
  rw [if_neg atEnd, rising.nextEnv_within (by omega), FofConstants.risingEnv]
  by_cases inside : s.t < s.attackEnd
  · have scale := cut (s.attackRiseAt s.t) (s.attackRiseAt s.t * s.signLoss s.t)
    have natural : s.attackRiseAt s.t * s.d ^ s.t =
        s.attackRiseAt s.t * s.signLoss s.t * s.decayEnvAt s.t := by
      rw [scaled]
      ring
    have kept : s.attackRiseAt s.t = s.attackRiseAt s.t * s.signLoss s.t ↔
        s.signLoss s.t = 1 ∨ s.attackRiseAt s.t = 0 := eq_comm.trans mul_right_eq_self₀
    have lost : s.attackRiseAt s.t * s.signLoss s.t = 0 ↔ s.attackRiseAt s.t = 0 :=
      mul_eq_zero_iff_right lossless
    rw [if_pos inside.le, if_pos inside, if_pos inside, natural, scale, kept, lost, ← silent,
      ← unsigned]
    constructor
    · rintro (⟨fit, exactly | low⟩ | ⟨_, low⟩)
      · exact Or.inr ⟨fit, exactly⟩
      · exact Or.inl low
      · exact Or.inl low
    · rintro (low | ⟨fit, exactly⟩)
      · by_cases fit : s.t + ceilU32 (fadeDur * s.sampleRate) < 2 ^ 32
        · exact Or.inl ⟨fit, Or.inr low⟩
        · exact Or.inr ⟨fit, low⟩
      · exact Or.inl ⟨fit, Or.inl exactly⟩
  · have natural : s.d ^ s.t = s.signLoss s.t * s.decayEnvAt s.t := by
      rw [scaled]
      ring
    rw [if_neg inside, if_neg inside, natural, cut]
    by_cases attackOver : s.t = s.attackEnd
    · rw [if_pos attackOver.le, if_pos attackOver, attackRiseAt_eq_iff]
      simp [lossless]
    · rw [if_neg (by omega), if_neg attackOver, ← unsigned]
      simp [lossless, eq_comm]

theorem Between.nextEnv_triggerFadeOut_iff {s : FofState R} (between : s.Between) (unfaded : s.Unfaded)
    (positive : 0 < s.d) {fadeDur : R} (audible : 0 < fadeDur * s.sampleRate) :
    (s.triggerFadeOut fadeDur).nextEnv = s.nextEnv ↔ s.KillContinuous fadeDur := by
  by_cases atEnd : s.t = s.decayEnd
  · exact between.nextEnv_iff_of_end unfaded positive audible atEnd
  · exact between.nextEnv_iff_of_inside unfaded positive audible atEnd

end Continuity

end FofState

/-- A kill of a grain that attacks or decays, between any two calls, is continuous exactly
under `KillContinuous`: the next sample has the envelope that it would have had. -/
theorem kill_continuous_iff [RealOps R] [IsStrictOrderedRing R] (laws : ExpLaws R)
    (expPositive : ∀ x : R, 0 < exp x) (params : FofParams R) (sampleRate : R)
    (calls : List (FofCall R)) {fadeDur : R} (audible : 0 < fadeDur * sampleRate)
    (unfaded : ((FofState.spawn params sampleRate).afterCalls calls).Unfaded) :
    let s := (FofState.spawn params sampleRate).afterCalls calls
    (s.triggerFadeOut fadeDur).nextEnv = s.nextEnv ↔ s.KillContinuous fadeDur := by
  intro s
  have constants := (FofState.spawn params sampleRate).afterCalls_constants calls
  have positive : 0 < s.d := by
    rw [constants]
    exact expPositive _
  have lasting : 0 < fadeDur * s.sampleRate := by
    rw [constants]
    exact audible
  exact (FofState.Between.reached laws params sampleRate calls).nextEnv_triggerFadeOut_iff
    unfaded positive lasting

/-- The sine of the attack is at the bottom of its swing at the odd multiples of the
length of the attack.  The end of the attack, rounded up, is one of these when the length
is a whole number of samples, or the odd part of one sample. -/
theorem activeSin_bottom_iff {length : ℝ} (positive : 0 < length) (t : Nat) :
    activeSin ((t : ℝ) * (1 / (2 * length)) + 1 / 4) = -1 ↔
      ∃ k : ℤ, (t : ℝ) = (2 * k + 1) * length := by
  have swing : activeSin ((t : ℝ) * (1 / (2 * length)) + 1 / 4) =
      Real.cos (t / length * Real.pi) := by
    change Real.sin _ = _
    rw [← Real.sin_add_pi_div_two]
    congr 1
    change (_ : ℝ) * (2 * Real.pi) = _
    field_simp
    ring
  rw [swing, Real.cos_eq_neg_one_iff]
  refine exists_congr fun k => ?_
  have turned : Real.pi + k * (2 * Real.pi) = (2 * k + 1) * Real.pi := by ring
  rw [turned, mul_left_inj' Real.pi_ne_zero, eq_div_iff positive.ne', eq_comm]

/-- A kill at the end of an attack of two samples.  The next envelope is the same with the
kill and without. -/
theorem kill_continuous_whole_attack :
    let params : FofParams ℝ := ⟨1, 0, 440, 1, 0, 1, 0, 2, 0, 3, 0, 0, 1⟩
    let s := (FofState.spawn params 1).afterCalls [.fillBlock 0 [0, 0]]
    (s.triggerFadeOut 3).nextEnv = s.nextEnv := by
  intro params s
  have filled := sustained_block params 1 rfl rfl [0, 0] (by decide)
  have constants := (FofState.spawn params 1).afterCalls_constants [.fillBlock 0 [0, 0]]
  have t : s.t = 2 := filled.2
  have two : ceilU32 ((2 : ℝ) * 1) = 2 := by
    have counter : ((2 : ℝ) * 1) = ((2 : Nat) : ℝ) := by norm_num
    rw [counter, ceilU32_natCast (by decide)]
  have attackEnd : s.attackEnd = 2 := by
    rw [constants]
    exact two
  have decayEnd : u32Max ≤ s.decayEnd := by
    rw [constants]
    refine le_trans (le_of_eq ?_) (Nat.le_max_left _ _)
    exact (if_neg (fun both => absurd both.1 (lt_irrefl 0))).symm
  have bottom : activeSin ((s.t : ℝ) * s.inv2beta + 1 / 4) = -1 := by
    have inv2beta : s.inv2beta = 1 / (2 * (2 * 1)) := by
      rw [constants]
      exact if_pos (by norm_num)
    rw [inv2beta, activeSin_bottom_iff (by norm_num), t]
    exact ⟨0, by norm_num⟩
  refine (kill_continuous_iff realLaws Real.exp_pos params 1 [.fillBlock 0 [0, 0]]
    (by norm_num) filled.1).mpr ?_
  change s.KillContinuous 3
  unfold FofState.KillContinuous
  unfold u32Max at decayEnd
  rw [if_neg (by omega), if_neg (by omega), if_pos (by omega), bottom]
  refine ⟨?_, ?_⟩
  · have duration : ((3 : ℝ) * s.sampleRate) = ((3 : Nat) : ℝ) := by
      rw [constants]
      change (3 : ℝ) * 1 = _
      norm_num
    rw [duration, ceilU32_natCast (by decide), t]
    decide
  · rw [FofConstants.signLoss, if_pos (by omega)]
    norm_num

/-- A grain without an attack is killed before its first sample.  The kill still takes the
attack for current and fixes the envelope at its bottom, where the grain would have
started at full level. -/
theorem instant_attack_killed_silent :
    let params : FofParams ℝ := ⟨1, 0, 440, 1, 0, 1, 0, 0, 0, 3, 0, 0, 1⟩
    let s := FofState.spawn params 48000
    activeSin (1 / 4 : ℝ) = 1 ∧ (∀ x : ℝ, activeSin (x + 1) = activeSin x) ∧ s.Unfaded ∧
      (s.triggerFadeOut 1).nextEnv = 0 ∧ s.nextEnv = 1 := by
  intro params s
  have quarter : activeSin (1 / 4 : ℝ) = 1 := by
    have angle : 1 / 4 * (2 * Real.pi) = Real.pi / 2 := by ring
    change Real.sin (1 / 4 * (2 * Real.pi)) = 1
    rw [angle, Real.sin_pi_div_two]
  have rising := FofState.Rising.spawn params 48000
  have attackEnd : s.attackEnd = 0 := by
    have flat : (0 : ℝ) * 48000 = ((0 : Nat) : ℝ) := by norm_num
    change ceilU32 ((0 : ℝ) * 48000) = 0
    rw [flat, ceilU32_natCast (Nat.zero_le _)]
  have decayEnd : u32Max ≤ s.decayEnd := by
    refine le_trans (le_of_eq ?_) (Nat.le_max_left _ _)
    exact (if_neg (fun both => absurd both.1 (lt_irrefl 0))).symm
  refine ⟨quarter, ?_, (FofState.unfaded_iff s).mpr (Or.inl rfl), ?_, ?_⟩
  · intro x
    change Real.sin ((x + 1) * (2 * Real.pi)) = Real.sin (x * (2 * Real.pi))
    rw [add_mul, one_mul, Real.sin_add_two_pi]
  · have bottom : s.attackRiseAt 0 = 0 := by
      rw [FofState.attackRiseAt_eq_iff, Nat.cast_zero, zero_mul, zero_add, quarter]
      norm_num
    have killed := rising.nextEnv_triggerFadeOut (Nat.zero_le _)
      (show (0 : ℝ) < 1 * 48000 by norm_num)
    change (s.triggerFadeOut 1).nextEnv = _ at killed
    rw [killed, if_pos (Nat.zero_le _)]
    change (if _ then s.attackRiseAt 0 * _ else 0) = (0 : ℝ)
    rw [bottom, zero_mul, ite_self]
  · have natural := rising.nextEnv_within (lt_of_lt_of_le (by decide) decayEnd)
    rw [FofConstants.risingEnv] at natural
    change s.nextEnv = if 0 < s.attackEnd then _ else _ at natural
    rw [natural, attackEnd, if_neg (Nat.lt_irrefl 0), pow_zero]

end Grain
end Rfofs
