import Rfofs.Grain.KillContinuity

namespace Rfofs
namespace Grain

open Foundation

/-!
# The range of the envelope

A grain is rendered sample by sample under any calls, blocks and kills alike, and the
trace of a run lists the phase and the envelope of every sample that follows the onset.
While the decay factor lies between zero and one, the envelope stays between zero and
one and only falls once the attack is over, with one exception: entering the fade-out
evaluates the decay from the counter read as a signed word.  From `2 ^ 31` on that is a
negative power, and the fade-out begins above one.

The invariant compares the envelope of the next sample with what the formula of the
current phase gives before any transition is made.  Settling, advancing and killing
never raise that value outside the attack.
-/

/-- A rendered sample, as far as its envelope goes. -/
structure EnvSample (R : Type*) where
  phase : FofPhase
  env : R

/-- After the attack the envelope does not rise to the next sample. -/
def EnvSample.FallsTo {R : Type*} [LE R] (sample next : EnvSample R) : Prop :=
  sample.phase ≠ .attack → next.env ≤ sample.env

variable {R : Type*} [Field R] [LinearOrder R] [FloorRing R] [RealOps R]

namespace FofState

/-! ## Traces -/

/-- The sample that the grain renders next. -/
def envSample (s : FofState R) : EnvSample R := ⟨s.settle.phase, s.nextEnv⟩

/-- The next samples of a block. -/
def samplesTrace (s : FofState R) : Nat → List (EnvSample R)
  | 0 => []
  | n + 1 => s.envSample :: s.sampleStep.samplesTrace n

/-- The samples of a run, those before the onset left out. -/
def envTrace (s : FofState R) : List (FofCall R) → List (EnvSample R)
  | [] => []
  | .fillBlock blockStart buf :: rest =>
      s.samplesTrace (s.samplesOf blockStart buf) ++ (s.fillBlock blockStart buf).1.envTrace rest
  | .triggerFadeOut fadeDur :: rest => (s.triggerFadeOut fadeDur).envTrace rest

/-- What a sample adds is its envelope, scaled and multiplied with its carrier. -/
theorem sampleValue_eq_env (s : FofState R) :
    s.sampleValue = s.ampTotal * s.envSample.env * s.carrierSineAt s.hasGliss s.t := by
  have constants := s.settle_constants
  rw [sampleValue, settledValue, settle_t, constants]
  rfl

theorem samplesTrace_getElem? (s : FofState R) {n j : Nat} (inside : j < n) :
    (s.samplesTrace n)[j]? = some (sampleStep^[j] s).envSample := by
  induction n generalizing s j with
  | zero => exact absurd inside (Nat.not_lt_zero j)
  | succ n ih =>
      cases j with
      | zero => rfl
      | succ j =>
          rw [samplesTrace, List.getElem?_cons_succ, ih _ (Nat.lt_of_succ_lt_succ inside),
            Function.iterate_succ_apply]

/-! ## The invariant -/

/-- A decay that falls and a rise that stays in its range. -/
structure Calm (c : FofConstants R) : Prop where
  positive : 0 < c.d
  falls : c.d ≤ 1
  rises : ∀ t, 0 ≤ c.attackRiseAt t ∧ c.attackRiseAt t ≤ 1

/-- What bounds the envelope of a grain: its accumulator holds the power of the decay
factor, and a fade-out was entered in the range. -/
structure Graded (s : FofState R) : Prop where
  calm : Calm s.toFofConstants
  acc : s.Unfaded → s.decayAcc = s.d ^ s.t
  entry : s.phase = .fadeOut → (0 ≤ s.envAtFo ∧ s.envAtFo ≤ 1) ∧ s.tFo ≤ s.t

/-- The counter of a decay that is over has not left the signed range, or it does not
matter. -/
def DueInRange (s : FofState R) : Prop :=
  s.Unfaded → s.decayEnd ≤ s.t → s.t < 2 ^ 31 ∨ s.d = 1

/-- Outside the attack the envelope of the current phase does not rise. -/
def Sinks (s s' : FofState R) : Prop :=
  s.phase ≠ .attack → s'.phase ≠ .attack ∧ s'.sampleEnv ≤ s.sampleEnv

/-- The sample before left the attack, and the grain is not above it. -/
def Below (sample : EnvSample R) (s : FofState R) : Prop :=
  sample.phase ≠ .attack → s.phase ≠ .attack ∧ s.sampleEnv ≤ sample.env

omit [FloorRing R] in
theorem Sinks.refl (s : FofState R) : s.Sinks s := fun left => ⟨left, le_refl _⟩

omit [FloorRing R] in
theorem Sinks.trans {s s' s'' : FofState R} (first : s.Sinks s') (second : s'.Sinks s'') :
    s.Sinks s'' := by
  intro left
  rcases first left with ⟨left', lower⟩
  rcases second left' with ⟨left'', lower'⟩
  exact ⟨left'', lower'.trans lower⟩

omit [FloorRing R] in
theorem Below.sinks {sample : EnvSample R} {s s' : FofState R} (below : Below sample s)
    (sinks : s.Sinks s') : Below sample s' := by
  intro left
  rcases below left with ⟨left', lower⟩
  rcases sinks left' with ⟨left'', lower'⟩
  exact ⟨left'', lower'.trans lower⟩

omit [LinearOrder R] [FloorRing R] [RealOps R] in
theorem decayEnvAt_inRange (c : FofConstants R) {t : Nat} (inRange : t < 2 ^ 31 ∨ c.d = 1) :
    c.decayEnvAt t = c.d ^ t := by
  rw [FofConstants.decayEnvAt, asI32]
  rcases inRange with early | flat
  · rw [if_pos early, zpow_natCast]
  · rw [flat, one_zpow, one_pow]

section Ordered

variable [IsStrictOrderedRing R] {s : FofState R}

omit [FloorRing R] in
theorem Calm.pow {c : FofConstants R} (calm : Calm c) (t : Nat) : 0 ≤ c.d ^ t ∧ c.d ^ t ≤ 1 :=
  ⟨pow_nonneg calm.positive.le t, pow_le_one₀ calm.positive.le calm.falls⟩

omit [RealOps R] in
/-- The line of a fade-out lies in the range. -/
theorem ramp_range (elapsed : Nat) (duration : R) :
    0 ≤ max (1 - (elapsed : R) * (if 0 < duration then 1 / duration else 0)) 0 ∧
      max (1 - (elapsed : R) * (if 0 < duration then 1 / duration else 0)) 0 ≤ 1 := by
  refine ⟨le_max_right _ _, max_le ?_ zero_le_one⟩
  have slope : 0 ≤ (elapsed : R) * (if 0 < duration then 1 / duration else 0) := by
    split
    · positivity
    · rw [mul_zero]
  linarith

/-- The formula of the current phase lies in the range.  There is one case for each phase. -/
theorem Graded.sampleEnv_range (graded : s.Graded) : 0 ≤ s.sampleEnv ∧ s.sampleEnv ≤ 1 := by
  unfold sampleEnv
  cases phase : s.phase with
  | attack =>
      have acc := graded.acc ((unfaded_iff s).mpr (Or.inl phase))
      have power := graded.calm.pow s.t
      have rise := graded.calm.rises s.t
      dsimp only
      rw [acc]
      exact ⟨mul_nonneg power.1 rise.1, mul_le_one₀ power.2 rise.1 rise.2⟩
  | decay =>
      have acc := graded.acc ((unfaded_iff s).mpr (Or.inr phase))
      dsimp only
      rw [acc]
      exact graded.calm.pow s.t
  | fadeOut =>
      rcases (graded.entry phase).1 with ⟨nonneg, small⟩
      rcases ramp_range (s.t - s.tFo) s.effectiveFadeDur with ⟨rampNonneg, rampSmall⟩
      exact ⟨mul_nonneg nonneg rampNonneg, mul_le_one₀ small rampNonneg rampSmall⟩
  | dead => exact ⟨le_refl 0, zero_le_one⟩

omit [IsStrictOrderedRing R] in
/-- Entering a fade-out in the range keeps the invariant and continues with the envelope
it was entered with. -/
theorem Graded.enterFadeOut (graded : s.Graded) {env : R} (range : 0 ≤ env ∧ env ≤ 1)
    (fadeDur : R) :
    (s.enterFadeOut env fadeDur).Graded ∧ (s.enterFadeOut env fadeDur).sampleEnv = env := by
  refine ⟨⟨graded.calm, fun unfaded => absurd unfaded (Nat.lt_irrefl 1),
    fun _ => ⟨range, le_refl s.t⟩⟩, ?_⟩
  simp [sampleEnv, FofState.enterFadeOut]

/-- A due transition keeps the grain in the range, and does not lift its envelope. -/
theorem Graded.settleStep (graded : s.Graded) (due : s.DueInRange) :
    s.settleStep.Graded ∧ s.settleStep.DueInRange ∧ s.Sinks s.settleStep := by
  cases alive : s.phaseEnd with
  | none =>
      have same : s.settleStep = s := by simp only [FofState.settleStep, alive]
      rw [same]
      exact ⟨graded, due, Sinks.refl s⟩
  | some phaseEnd =>
      by_cases ended : phaseEnd ≤ s.t
      · rw [settleStep_of_due alive ended]
        unfold FofState.transitionPhase
        rcases phaseEnd_cases alive with ⟨phase, -⟩ | ⟨phase, rfl⟩ | ⟨phase, -⟩
        · have unfaded : s.Unfaded := (unfaded_iff s).mpr (Or.inl phase)
          rw [phase]
          refine ⟨⟨graded.calm, fun _ => graded.acc unfaded, ?_⟩, fun _ => due unfaded,
            fun left => absurd phase left⟩
          intro fading
          cases fading
        · have unfaded : s.Unfaded := (unfaded_iff s).mpr (Or.inr phase)
          have decayed := decayEnvAt_inRange s.toFofConstants (due unfaded ended)
          have entered := graded.enterFadeOut (decayed ▸ graded.calm.pow s.t) s.params.fadeDur
          have acc : s.sampleEnv = s.d ^ s.t := by
            rw [sampleEnv, phase]
            exact graded.acc unfaded
          rw [phase]
          refine ⟨entered.1, fun unfaded => absurd unfaded (Nat.lt_irrefl 1), fun _ => ⟨?_, ?_⟩⟩
          · intro attacking
            cases attacking
          · rw [entered.2, decayed, acc]
        · rw [phase]
          refine ⟨⟨graded.calm, fun unfaded => absurd unfaded (Nat.not_lt_zero 1), ?_⟩,
            fun unfaded => absurd unfaded (Nat.not_lt_zero 1),
            fun _ => ⟨?_, graded.sampleEnv_range.1⟩⟩
          · intro fading
            cases fading
          · intro attacking
            cases attacking
      · rw [settleStep_of_inside alive (Nat.lt_of_not_le ended)]
        exact ⟨graded, due, Sinks.refl s⟩

theorem Graded.settle (graded : s.Graded) (due : s.DueInRange) :
    s.settle.Graded ∧ s.Sinks s.settle := by
  rcases graded.settleStep due with ⟨graded₁, due₁, sinks₁⟩
  rcases graded₁.settleStep due₁ with ⟨graded₂, due₂, sinks₂⟩
  rcases graded₂.settleStep due₂ with ⟨graded₃, -, sinks₃⟩
  exact ⟨graded₃, (sinks₁.trans sinks₂).trans sinks₃⟩

/-- One sample inside a phase. -/
theorem Graded.advanceOne (graded : s.Graded) : s.advanceOne.Graded ∧ s.Sinks s.advanceOne := by
  have calm : Calm s.advanceOne.toFofConstants := s.advanceOne_constants ▸ graded.calm
  have same := s.advanceOne_phase
  have unfaded : s.advanceOne.Unfaded ↔ s.Unfaded := by rw [unfaded_iff, unfaded_iff, same]
  have acc : s.Unfaded → s.advanceOne.decayAcc = s.advanceOne.d ^ s.advanceOne.t := by
    intro unfaded
    have held := graded.acc unfaded
    rcases (unfaded_iff s).mp unfaded with phase | phase
    · simp only [FofState.advanceOne, phase, held, pow_succ]
    · simp only [FofState.advanceOne, phase, held, pow_succ]
  refine ⟨⟨calm, fun stays => acc (unfaded.mp stays), fun fading => ?_⟩, fun left => ⟨?_, ?_⟩⟩
  · rw [same] at fading
    rcases graded.entry fading with ⟨range, entered⟩
    simp only [FofState.advanceOne, fading]
    exact ⟨range, Nat.le_succ_of_le entered⟩
  · rw [same]
    exact left
  · cases phase : s.phase with
    | attack => exact absurd phase left
    | decay =>
        have held := graded.acc ((unfaded_iff s).mpr (Or.inr phase))
        simp only [sampleEnv, FofState.advanceOne, phase, held]
        exact mul_le_of_le_one_right (graded.calm.pow s.t).1 graded.calm.falls
    | fadeOut =>
        have later : ((s.t - s.tFo : Nat) : R) ≤ ((s.t + 1 - s.tFo : Nat) : R) :=
          Nat.cast_le.mpr (by omega)
        have slope : 0 ≤ (if 0 < s.effectiveFadeDur then 1 / s.effectiveFadeDur else 0) := by
          split
          · positivity
          · exact le_refl 0
        simp only [sampleEnv, FofState.advanceOne, phase]
        refine mul_le_mul_of_nonneg_left (max_le_max_right 0 ?_) (graded.entry phase).1.1
        exact sub_le_sub_left (mul_le_mul_of_nonneg_right later slope) 1
    | dead => simp only [sampleEnv, FofState.advanceOne, phase, le_refl]

/-- A kill.  It starts the line of the fade-out at the envelope of the moment. -/
theorem Graded.triggerFadeOut (graded : s.Graded)
    (inRange : s.Unfaded → s.t < 2 ^ 31 ∨ s.d = 1) (fadeDur : R) :
    (s.triggerFadeOut fadeDur).Graded ∧ s.Sinks (s.triggerFadeOut fadeDur) := by
  by_cases unfaded : s.Unfaded
  · have decayed := decayEnvAt_inRange s.toFofConstants (inRange unfaded)
    have power := graded.calm.pow s.t
    have acc := graded.acc unfaded
    have killed := triggerFadeOut_of_heard ((unfaded_iff s).mp unfaded) fadeDur
    rcases (unfaded_iff s).mp unfaded with phase | phase
    · have rise := graded.calm.rises s.t
      have envelope : s.envelope = s.attackRiseAt s.t * s.d ^ s.t := by
        rw [FofState.envelope, phase]
        dsimp only
        rw [decayed]
      rw [killed, envelope]
      exact ⟨(graded.enterFadeOut ⟨mul_nonneg rise.1 power.1, mul_le_one₀ rise.2 power.1 power.2⟩
        fadeDur).1, fun left => absurd phase left⟩
    · have envelope : s.envelope = s.d ^ s.t := by
        rw [FofState.envelope, phase]
        exact decayed
      have before : s.sampleEnv = s.d ^ s.t := by
        rw [sampleEnv, phase]
        exact acc
      have entered := graded.enterFadeOut power fadeDur
      rw [killed, envelope]
      refine ⟨entered.1, fun _ => ⟨?_, ?_⟩⟩
      · intro attacking
        cases attacking
      · rw [entered.2, before]
  · rw [triggerFadeOut_of_faded unfaded]
    exact ⟨graded, Sinks.refl s⟩

/-! ## Runs -/

/-- A fade-out within the next `n` samples is entered in the range. -/
def Window (s : FofState R) (n : Nat) : Prop :=
  s.Unfaded → s.t ≤ s.decayEnd ∧ (s.decayEnd < s.t + n → s.decayEnd < 2 ^ 31 ∨ s.d = 1)

omit [LinearOrder R] [FloorRing R] [RealOps R] [IsStrictOrderedRing R] in
theorem Window.due {n : Nat} (window : s.Window (n + 1)) : s.DueInRange := by
  intro unfaded ended
  rcases window unfaded with ⟨within, inRange⟩
  have now : s.t = s.decayEnd := by omega
  rw [now]
  exact inRange (by omega)

omit [RealOps R] [IsStrictOrderedRing R] in
/-- A grain that is still unfaded after its transitions has not reached the end of its
decay. -/
theorem settle_unfaded (ordered : s.attackEnd ≤ s.decayEnd) (stays : s.settle.Unfaded) :
    s.Unfaded ∧ s.t < s.decayEnd := by
  have lower : ∀ s : FofState R, s.settleStep.phase.rank ≤ s.phase.rank := by
    intro s
    rcases s.settleStep_rank with same | less
    · rw [same]
    · exact less.le
  have constants := s.settle_constants
  refine ⟨Nat.lt_of_lt_of_le stays ((lower _).trans ((lower _).trans (lower s))), ?_⟩
  have fixed := s.settle_fixed
  have inside : ∀ phaseEnd, s.settle.phaseEnd = some phaseEnd → s.t < phaseEnd := by
    intro phaseEnd alive
    by_contra ended
    have due := settleStep_of_due alive (by rw [settle_t]; omega)
    have less := transitionPhase_rank alive
    rw [← due, fixed] at less
    exact absurd less (lt_irrefl _)
  rcases (unfaded_iff _).mp stays with phase | phase
  · have before := inside s.attackEnd (by simp only [phaseEnd, phase, constants])
    omega
  · exact inside s.decayEnd (by simp only [phaseEnd, phase, constants])

omit [RealOps R] [IsStrictOrderedRing R] in
theorem Window.sampleStep {n : Nat} (ordered : s.attackEnd ≤ s.decayEnd)
    (window : s.Window (n + 1)) : s.sampleStep.Window n := by
  intro stays
  have settled : s.settle.Unfaded := by
    rwa [FofState.sampleStep, unfaded_iff, advanceOne_phase, ← unfaded_iff] at stays
  rcases settle_unfaded ordered settled with ⟨unfaded, before⟩
  have t : s.sampleStep.t = s.t + 1 := by
    rw [FofState.sampleStep, ← s.settle_t]
    rcases (unfaded_iff _).mp settled with phase | phase <;> simp only [FofState.advanceOne, phase]
  have constants := s.sampleStep_constants
  rw [t, constants]
  exact ⟨before, fun past => (window unfaded).2 (by omega)⟩

/-- What one sample of a run is, and what it leaves. -/
theorem Graded.sample (graded : s.Graded) (due : s.DueInRange) :
    (0 ≤ s.envSample.env ∧ s.envSample.env ≤ 1) ∧ s.sampleStep.Graded ∧
      Below s.envSample s.sampleStep ∧
      ∀ sample, Below sample s → sample.FallsTo s.envSample := by
  rcases graded.settle due with ⟨settled, sinks⟩
  rcases settled.advanceOne with ⟨advanced, lower⟩
  exact ⟨settled.sampleEnv_range, advanced, lower, fun sample below left =>
    ((below.sinks sinks) left).2⟩

/-- The samples of a block are in the range and fall, and so does what follows them.  By
induction on the samples. -/
theorem Graded.samples {n : Nat} (graded : s.Graded) (ordered : s.attackEnd ≤ s.decayEnd)
    (window : s.Window n) :
    (sampleStep^[n] s).Graded ∧
      (∀ sample ∈ s.samplesTrace n, 0 ≤ sample.env ∧ sample.env ≤ 1) ∧
      ∀ sample later, Below sample s →
        (∀ last, Below last (sampleStep^[n] s) → (last :: later).IsChain EnvSample.FallsTo) →
        (sample :: (s.samplesTrace n ++ later)).IsChain EnvSample.FallsTo := by
  induction n generalizing s with
  | zero =>
      refine ⟨graded, fun _ member => absurd member List.not_mem_nil, ?_⟩
      intro sample later below ends
      exact ends sample below
  | succ n ih =>
      rcases graded.sample window.due with ⟨range, stepped, below, falls⟩
      have constants := s.sampleStep_constants
      rcases ih stepped (by rw [constants]; exact ordered) (window.sampleStep ordered) with
        ⟨ended, ranges, chain⟩
      refine ⟨ended, List.forall_mem_cons.mpr ⟨range, ranges⟩, ?_⟩
      intro sample later before ends
      rw [samplesTrace, List.cons_append, List.isChain_cons_cons]
      exact ⟨falls sample before, chain s.envSample later below ends⟩

omit [IsStrictOrderedRing R] in
theorem Graded.refresh (graded : s.Graded) : s.refresh.Graded :=
  ⟨graded.calm, graded.acc, graded.entry⟩

end Ordered

end FofState

/-- The fade-out that a call enters, if any, is entered while the counter is in the signed
range, or with a decay that stands still. -/
def FofCall.EntersInRange (s : FofState R) : FofCall R → Prop
  | .fillBlock blockStart buf =>
      s.Unfaded → s.decayEnd < s.t + s.samplesOf blockStart buf →
        s.decayEnd < 2 ^ 31 ∨ s.d = 1
  | .triggerFadeOut _ => s.Unfaded → s.t < 2 ^ 31 ∨ s.d = 1

namespace FofState

variable [IsStrictOrderedRing R]

/-- A block of a run, by the samples that it renders. -/
theorem Graded.fillBlock (laws : ExpLaws R) {s : FofState R} (sound : s.Sound)
    (counted : s.Counted) (graded : s.Graded) {blockStart : Nat} {buf : List R}
    (inRange : (FofCall.fillBlock blockStart buf).EntersInRange s) :
    (s.fillBlock blockStart buf).1.Graded ∧
      (∀ sample ∈ s.samplesTrace (s.samplesOf blockStart buf), 0 ≤ sample.env ∧ sample.env ≤ 1) ∧
      ∀ sample later, Below sample s →
        (∀ last, Below last (s.fillBlock blockStart buf).1 →
          (last :: later).IsChain EnvSample.FallsTo) →
        (sample :: (s.samplesTrace (s.samplesOf blockStart buf) ++ later)).IsChain
          EnvSample.FallsTo := by
  have window : s.Window (s.samplesOf blockStart buf) := fun unfaded =>
    ⟨counted.t_le unfaded, inRange unfaded⟩
  rcases graded.samples counted.ordered window with ⟨ended, ranges, chain⟩
  have filled := congrArg Prod.fst (fillBlock_eq laws sound blockStart buf)
  dsimp only at filled
  have reached : (s.fillBlock blockStart buf).1 =
      if s.phase = .dead then sampleStep^[s.samplesOf blockStart buf] s
      else (sampleStep^[s.samplesOf blockStart buf] s).refresh := by
    rw [filled]
    split
    next dead =>
      have fixed := sampleStep_of_dead (phaseEnd_of_dead dead)
      exact (Function.iterate_fixed fixed _).symm
    next => rfl
  rw [reached]
  split
  · exact ⟨ended, ranges, chain⟩
  · exact ⟨ended.refresh, ranges, chain⟩

/-- A run, by induction on its calls. -/
theorem Graded.envTrace (laws : ExpLaws R) {s : FofState R} (sound : s.Sound)
    (counted : s.Counted) (graded : s.Graded) {calls : List (FofCall R)}
    (inRange : ∀ earlier call later, earlier ++ call :: later = calls →
      call.EntersInRange (s.afterCalls earlier)) :
    (∀ sample ∈ s.envTrace calls, 0 ≤ sample.env ∧ sample.env ≤ 1) ∧
      ∀ sample, Below sample s → (sample :: s.envTrace calls).IsChain EnvSample.FallsTo := by
  induction calls generalizing s with
  | nil => exact ⟨fun _ member => absurd member List.not_mem_nil, fun sample _ => List.isChain_singleton sample⟩
  | cons call calls ih =>
      have head := inRange [] call calls rfl
      have tail : ∀ earlier next later, earlier ++ next :: later = calls →
          next.EntersInRange ((s.call call).afterCalls earlier) :=
        fun earlier next later split =>
          inRange (call :: earlier) next later (congrArg (call :: ·) split)
      cases call with
      | triggerFadeOut fadeDur =>
          rcases graded.triggerFadeOut head fadeDur with ⟨killed, sinks⟩
          rcases ih (sound.triggerFadeOut fadeDur) (counted.call (.triggerFadeOut fadeDur)) killed
            tail with ⟨ranges, chain⟩
          exact ⟨ranges, fun sample below => chain sample (below.sinks sinks)⟩
      | fillBlock blockStart buf =>
          rcases graded.fillBlock laws sound counted head with ⟨filled, first, join⟩
          rcases ih (fillBlock_sound laws sound blockStart buf)
            (counted.call (.fillBlock blockStart buf)) filled tail with ⟨ranges, chain⟩
          refine ⟨fun sample member => ?_, fun sample below => join sample _ below chain⟩
          rcases List.mem_append.mp member with member | member
          · exact first sample member
          · exact ranges sample member

/-- A kill of a decay that has left the signed range begins its fade-out above one. -/
theorem Rising.late_kill {c : FofConstants R} {n : Nat} {s : FofState R} (rising : Rising c n s)
    (positive : 0 < c.d) (falls : c.d < 1) (late : 2 ^ 31 ≤ n) (counter : n ≤ u32Max)
    (attackOver : c.attackEnd < n) {fadeDur : R} (audible : 0 < fadeDur * c.sampleRate)
    (fits : n + ceilU32 (fadeDur * c.sampleRate) < 2 ^ 32) :
    1 < (s.triggerFadeOut fadeDur).nextEnv := by
  have signed : asI32 n < 0 := by
    rw [asI32, if_neg (Nat.not_lt_of_le late)]
    unfold u32Max at counter
    omega
  rw [rising.nextEnv_triggerFadeOut counter audible, if_pos fits,
    if_neg (Nat.not_le_of_lt attackOver), one_mul]
  exact one_lt_zpow_of_neg₀ positive falls signed

end FofState

/-- In every run that enters its fade-out while the counter is in the signed range, or
whose decay stands still, every sample has an envelope between zero and one, and once
the attack is over no sample has a larger one than the sample before: through the decay,
through the fade-out it enters by itself or by a kill, and into death. -/
theorem envelope_in_range_and_falls [IsStrictOrderedRing R] (laws : ExpLaws R)
    (expPositive : ∀ x : R, 0 < exp x) (expSmall : ∀ x : R, x ≤ 0 → exp x ≤ 1)
    (sineRange : ∀ x : R, |sin x| ≤ 1) (params : FofParams R) {sampleRate : R}
    (rate : 0 < sampleRate) (decays : 0 ≤ params.alpha) (calls : List (FofCall R))
    (inRange : ∀ earlier call later, earlier ++ call :: later = calls →
      call.EntersInRange ((FofState.spawn params sampleRate).afterCalls earlier)) :
    let trace := (FofState.spawn params sampleRate).envTrace calls
    (∀ sample ∈ trace, 0 ≤ sample.env ∧ sample.env ≤ 1) ∧ trace.IsChain EnvSample.FallsTo := by
  intro trace
  have exponent : -(params.alpha / sampleRate) ≤ 0 :=
    neg_nonpos.mpr (div_nonneg decays rate.le)
  have calm : FofState.Calm (FofState.spawn params sampleRate).toFofConstants := by
    refine ⟨expPositive _, expSmall _ exponent, fun t => ?_⟩
    have swing := abs_le.mp
      (sineRange (((t : R) * (FofState.spawn params sampleRate).inv2beta + 1 / 4) * RealOps.tau))
    rw [FofConstants.attackRiseAt, activeSin_std]
    constructor
    · linarith
    · linarith
  have graded : (FofState.spawn params sampleRate).Graded := by
    refine ⟨calm, fun _ => (pow_zero _).symm, ?_⟩
    intro fading
    cases fading
  rcases graded.envTrace laws (FofState.Sound.spawn params sampleRate)
    (FofState.Counted.spawn params sampleRate) inRange with ⟨ranges, chain⟩
  have start : FofState.Below (⟨.attack, 1⟩ : EnvSample R) (FofState.spawn params sampleRate) :=
    fun left => absurd rfl left
  exact ⟨ranges, List.isChain_of_isChain_cons (chain _ start)⟩

/-- A grain whose decay stands still, killed after two samples. -/
theorem envelope_in_range_and_falls_sustained :
    let params : FofParams ℝ := ⟨1, 0, 440, 1, 0, 1, 0, 2, 0, 3, 0, 0, 1⟩
    let trace := (FofState.spawn params 48000).envTrace
      [.fillBlock 0 [0, 0], .triggerFadeOut 3, .fillBlock 2 [0, 0]]
    (∀ sample ∈ trace, 0 ≤ sample.env ∧ sample.env ≤ 1) ∧ trace.IsChain EnvSample.FallsTo := by
  intro params
  have still : (FofState.spawn params 48000).d = 1 := by
    change Real.exp (-(0 / 48000)) = 1
    norm_num
  refine envelope_in_range_and_falls realLaws Real.exp_pos (fun x => Real.exp_le_one_iff.mpr)
    Real.abs_sin_le_one params (by norm_num) (le_refl 0) _ ?_
  intro earlier call later _
  have constants := (FofState.spawn params 48000).afterCalls_constants earlier
  cases call with
  | fillBlock blockStart buf =>
      intro _ _
      rw [constants]
      exact Or.inr still
  | triggerFadeOut fadeDur =>
      intro _
      rw [constants]
      exact Or.inr still

/-- A block of `2 ^ 31` samples of a decay that never ends by itself, and a kill. -/
theorem late_kill_trace (buf : List ℝ) (long : buf.length = 2 ^ 31) :
    let params : FofParams ℝ := ⟨1, 0, 440, 0, 0, 1, 1, 0, 0, 1, 0, 0, 1⟩
    ∃ sample ∈ (FofState.spawn params 48000).envTrace
      [.fillBlock 0 buf, .triggerFadeOut 1, .fillBlock (2 ^ 31) [0]], 1 < sample.env := by
  intro params
  have attackEnd : (FofState.spawn params 48000).attackEnd = 0 := by
    have flat : (0 : ℝ) * 48000 = ((0 : Nat) : ℝ) := by norm_num
    change ceilU32 ((0 : ℝ) * 48000) = 0
    rw [flat, ceilU32_natCast (Nat.zero_le _)]
  have decayEnd : u32Max ≤ (FofState.spawn params 48000).decayEnd := by
    refine le_trans (le_of_eq ?_) (Nat.le_max_left _ _)
    exact (if_neg (fun both => absurd both.2 (lt_irrefl 0))).symm
  have falls : (FofState.spawn params 48000).d < 1 := by
    change Real.exp (-(1 / 48000)) < 1
    rw [Real.exp_lt_one_iff]
    norm_num
  have duration : ceilU32 ((1 : ℝ) * 48000) = 48000 := by
    have counter : ((1 : ℝ) * 48000) = ((48000 : Nat) : ℝ) := by norm_num
    rw [counter, ceilU32_natCast (by decide)]
  have start : params.startSample = 0 := rfl
  have samples : 0 + (buf.length - (params.startSample - 0)) = 2 ^ 31 := by
    rw [long, start, Nat.sub_zero, Nat.zero_add]
  have rising : FofState.Rising (FofState.spawn params 48000).toFofConstants (2 ^ 31)
      ((FofState.spawn params 48000).fillBlock 0 buf).1 := by
    rw [← samples]
    refine (FofState.Rising.spawn params 48000).fillBlock realLaws
      (FofState.Sound.spawn params 48000) ?_
    change 0 + (buf.length - (params.startSample - 0)) ≤ _
    rw [samples]
    exact le_trans (by decide) decayEnd
  rw [FofState.envTrace]
  generalize ((FofState.spawn params 48000).fillBlock 0 buf).1 = s at rising ⊢
  have killed : 1 < (s.triggerFadeOut 1).nextEnv := by
    refine rising.late_kill (Real.exp_pos _) falls (le_refl _) (by decide) ?_ ?_ ?_
    · rw [attackEnd]
      decide
    · change (0 : ℝ) < 1 * 48000
      norm_num
    · change 2 ^ 31 + ceilU32 ((1 : ℝ) * 48000) < 2 ^ 32
      rw [duration]
      decide
  have one : (s.triggerFadeOut 1).samplesOf (2 ^ 31) [0] = 1 := by
    have single : ([0] : List ℝ).length = 1 := rfl
    have onset : (FofState.spawn params 48000).params.startSample = 0 := rfl
    rw [FofState.samplesOf, s.triggerFadeOut_constants, rising.constants, single, onset,
      Nat.zero_sub]
  refine ⟨(s.triggerFadeOut 1).envSample, List.mem_append_right _ ?_, killed⟩
  rw [FofState.envTrace, FofState.envTrace, one]
  exact List.mem_append_left _ List.mem_cons_self

/-- The range and the fall do not hold of every run. -/
theorem envelope_out_of_range :
    ¬ ∀ (params : FofParams ℝ) (sampleRate : ℝ), 0 < sampleRate → 0 ≤ params.alpha →
      ∀ calls : List (FofCall ℝ),
        (∀ sample ∈ (FofState.spawn params sampleRate).envTrace calls,
          0 ≤ sample.env ∧ sample.env ≤ 1) ∧
        ((FofState.spawn params sampleRate).envTrace calls).IsChain EnvSample.FallsTo := by
  intro holds
  rcases late_kill_trace (List.replicate (2 ^ 31) 0) List.length_replicate with ⟨sample, member, high⟩
  have range := (holds _ 48000 (by norm_num) zero_le_one _).1 sample member
  exact absurd range.2 (not_le_of_gt high)

end Grain
end Rfofs
