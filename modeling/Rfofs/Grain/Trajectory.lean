import Rfofs.Grain.FadeEntry

namespace Rfofs
namespace Grain

open Foundation

/-!
# The trajectory of a grain

In exact arithmetic the life of a grain is a function of its constants and of one
record, the circumstances under which it enters its fade-out (`FadeEntry`).

`Rising` and `Fading` describe the grain `n` samples after its onset.  One step of
the sample machine preserves them; a natural fade-out leads from the first to the
second, and so does a kill.  `Governed` is the invariant of whole runs: the calls
that are still to come lead the grain to its record, or it has arrived there.
-/

variable {R : Type*} [Field R]

/-- A grain `n` samples after its onset that does not fade out yet. -/
structure FofState.Rising (c : FofConstants R) (n : Nat) (s : FofState R) : Prop where
  constants : s.toFofConstants = c
  t : s.t = n
  decayAcc : s.decayAcc = c.d ^ n
  phase : (s.phase = .attack ∧ n ≤ c.attackEnd) ∨
    (s.phase = .decay ∧ c.attackEnd < n ∧ n ≤ c.decayEnd)

theorem FofState.Rising.le_decayEnd {c : FofConstants R} {n : Nat} {s : FofState R}
    (rising : Rising c n s) (ordered : c.attackEnd ≤ c.decayEnd) : n ≤ c.decayEnd := by
  rcases rising.phase with ⟨_, early⟩ | ⟨_, _, early⟩
  · exact early.trans ordered
  · exact early

/-- The envelope until the fade-out: the rise of the attack times the decay, and then the
decay alone. -/
def FofConstants.risingEnv [RealOps R] (c : FofConstants R) (t : Nat) : R :=
  if t < c.attackEnd then c.attackRiseAt t * c.d ^ t else c.d ^ t

variable [LinearOrder R] [FloorRing R]

section Rounding

variable [IsStrictOrderedRing R]

/-- A sample before the end of the fade-out exists only when the fade-out has a
positive duration. -/
theorem FadeEntry.duration_positive {entry : FadeEntry R} {n : Nat}
    (audible : n < entry.fadeoutEnd) (entered : entry.tFo ≤ n) :
    0 < entry.effectiveFadeDur := by
  by_contra nonpositive
  rw [FadeEntry.fadeoutEnd, ceilU32_nonpos (le_of_not_gt nonpositive)] at audible
  omega

end Rounding

/-- At the end of its decay a grain fades out by itself. -/
theorem FofState.Rising.settle_natural {c : FofConstants R} {s : FofState R}
    (rising : Rising c c.decayEnd s) (ordered : c.attackEnd ≤ c.decayEnd)
    (fits : c.naturalEntry.fadeoutEnd < 2 ^ 32) :
    ∃ s' : FofState R, s'.settle = s.settle ∧ Fading c c.naturalEntry c.decayEnd s' := by
  have constants := rising.constants
  have t := rising.t
  have entered : ∀ s : FofState R, s.toFofConstants = c → s.t = c.decayEnd → s.phase = .decay →
      Fading c c.naturalEntry c.decayEnd s.settleStep := by
    intro s constants t phase
    have alive : s.phaseEnd = some c.decayEnd := by simp only [phaseEnd, phase, constants]
    rw [settleStep_of_due alive t.ge]
    simp only [transitionPhase, phase]
    rw [constants, t]
    exact fading_enterFadeOut constants t rfl fits
  rcases rising.phase with ⟨phase, early⟩ | ⟨phase, _, _⟩
  · have alive : s.phaseEnd = some c.attackEnd := by simp only [phaseEnd, phase, constants]
    have due : s.settleStep = { s with phase := .decay } := by
      rw [settleStep_of_due alive (by omega)]
      simp only [transitionPhase, phase]
    refine ⟨s.settleStep.settleStep, by rw [settle_settleStep, settle_settleStep], ?_⟩
    apply entered
    · rw [settleStep_constants, constants]
    · rw [due, t]
    · rw [due]
  · exact ⟨s.settleStep, settle_settleStep s, entered s constants t phase⟩

variable [RealOps R]

namespace FofConstants

variable (c : FofConstants R)

/-- The envelope of the whole grain.  It is a function of the sample, with no state behind it. -/
def closedEnv (entry : FadeEntry R) (t : Nat) : R :=
  if t < min c.attackEnd entry.tFo then
    c.attackRiseAt t * c.d ^ t
  else if t < entry.tFo then
    c.d ^ t
  else if t < entry.fadeoutEnd then
    entry.envAtFo * max 0 (1 - ((t - entry.tFo : Nat) : R) / entry.effectiveFadeDur)
  else
    0

/-- The sample that the grain adds `t` samples after its onset. -/
def closedValue (entry : FadeEntry R) (t : Nat) : R :=
  c.ampTotal * c.closedEnv entry t * c.carrierSineAt c.hasGliss t

/-- What the grain adds to sample `j` of a range that begins at `clock`. -/
def closedSample (entry : FadeEntry R) (clock j : Nat) : R :=
  if c.params.startSample ≤ clock + j then
    c.closedValue entry (clock + j - c.params.startSample)
  else
    0

variable {c}

theorem closedEnv_rising {entry : FadeEntry R} {t : Nat} (early : t < entry.tFo) :
    c.closedEnv entry t = c.risingEnv t := by
  unfold closedEnv risingEnv
  by_cases attacking : t < c.attackEnd
  · rw [if_pos (lt_min attacking early), if_pos attacking]
  · have past : ¬ t < min c.attackEnd entry.tFo := fun both => attacking (lt_min_iff.mp both).1
    rw [if_neg past, if_pos early, if_neg attacking]

theorem closedEnv_fading {entry : FadeEntry R} {t : Nat} (entered : entry.tFo ≤ t)
    (audible : t < entry.fadeoutEnd) :
    c.closedEnv entry t =
      entry.envAtFo * max 0 (1 - ((t - entry.tFo : Nat) : R) / entry.effectiveFadeDur) := by
  have past : ¬ t < min c.attackEnd entry.tFo :=
    fun both => Nat.not_lt_of_le entered (lt_min_iff.mp both).2
  rw [closedEnv, if_neg past, if_neg (Nat.not_lt_of_le entered), if_pos audible]

theorem closedEnv_silent {entry : FadeEntry R} {t : Nat} (ended : entry.fadeoutEnd ≤ t) :
    c.closedEnv entry t = 0 := by
  have entered : entry.tFo ≤ t := Nat.le_of_add_right_le ended
  have past : ¬ t < min c.attackEnd entry.tFo :=
    fun both => Nat.not_lt_of_le entered (lt_min_iff.mp both).2
  rw [closedEnv, if_neg past, if_neg (Nat.not_lt_of_le entered), if_neg (Nat.not_lt_of_le ended)]

end FofConstants

namespace FofState

/-! ## Before the fade-out -/

theorem Rising.spawn (params : FofParams R) (sampleRate : R) :
    Rising (FofState.spawn params sampleRate).toFofConstants 0
      (FofState.spawn params sampleRate) where
  constants := rfl
  t := rfl
  decayAcc := (pow_zero _).symm
  phase := Or.inl ⟨rfl, Nat.zero_le _⟩

variable {c : FofConstants R} {entry : FadeEntry R} {n : Nat} {s : FofState R}

/-- One sample of a grain that decays and has not reached the end of its decay. -/
theorem decay_step (constants : s.toFofConstants = c) (t : s.t = n)
    (decayAcc : s.decayAcc = c.d ^ n) (phase : s.phase = .decay) (attacked : c.attackEnd ≤ n)
    (before : n < c.decayEnd) :
    Rising c (n + 1) s.sampleStep ∧
      s.sampleValue = c.ampTotal * c.risingEnv n * c.carrierSineAt c.hasGliss n := by
  subst constants t
  have alive : s.phaseEnd = some s.decayEnd := by simp only [phaseEnd, phase]
  rw [sampleStep, sampleValue, settle_of_inside alive before]
  constructor
  · refine ⟨advanceOne_constants s, ?_, ?_, Or.inr ⟨?_, Nat.lt_succ_of_le attacked, before⟩⟩
    · simp only [advanceOne, phase]
    · simp only [advanceOne, phase, decayAcc, pow_succ]
    · simp only [advanceOne, phase]
  · simp only [settledValue, sampleEnv, phase, decayAcc, FofConstants.risingEnv,
      if_neg (Nat.not_lt_of_le attacked)]

theorem Rising.step (rising : Rising c n s) (before : n < c.decayEnd) :
    Rising c (n + 1) s.sampleStep ∧
      s.sampleValue = c.ampTotal * c.risingEnv n * c.carrierSineAt c.hasGliss n := by
  have constants := rising.constants
  have t := rising.t
  have decayAcc := rising.decayAcc
  rcases rising.phase with ⟨phase, early⟩ | ⟨phase, late, _⟩
  · have alive : s.phaseEnd = some c.attackEnd := by
      simp only [phaseEnd, phase, constants]
    by_cases inside : n < c.attackEnd
    · subst constants t
      rw [sampleStep, sampleValue, settle_of_inside alive inside]
      constructor
      · refine ⟨advanceOne_constants s, ?_, ?_, Or.inl ⟨?_, inside⟩⟩
        · simp only [advanceOne, phase]
        · simp only [advanceOne, phase, decayAcc, pow_succ]
        · simp only [advanceOne, phase]
      · simp only [settledValue, sampleEnv, phase, decayAcc, FofConstants.risingEnv, if_pos inside]
        ring
    · have due : s.settleStep = { s with phase := .decay } := by
        rw [settleStep_of_due alive (by omega)]
        simp only [transitionPhase, phase]
      have resumed := decay_step (s := s.settleStep) (n := n) (c := c)
      rw [sampleStep, sampleValue, settle_settleStep, due] at resumed
      exact resumed constants t decayAcc rfl (Nat.le_of_not_lt inside) before
  · exact decay_step constants t decayAcc phase late.le before

theorem Rising.iterate (rising : Rising c n s) {k : Nat} (before : n + k ≤ c.decayEnd) :
    Rising c (n + k) (sampleStep^[k] s) := by
  induction k with
  | zero => exact rising
  | succ k ih =>
      rw [Function.iterate_succ_apply', ← Nat.add_assoc]
      exact ((ih (by omega)).step (by omega)).1

omit [LinearOrder R] [FloorRing R] [RealOps R] in
theorem Rising.heard (rising : Rising c n s) : s.phase = .attack ∨ s.phase = .decay :=
  rising.phase.imp And.left And.left

omit [LinearOrder R] [FloorRing R] [RealOps R] in
theorem Rising.alive (rising : Rising c n s) : s.phase ≠ .dead := by
  rcases rising.heard with phase | phase <;> rw [phase] <;> decide

/-! ## Entering the fade-out -/

/-- A kill. -/
theorem Rising.trigger (rising : Rising c n s) {fadeDur : R}
    (fits : (c.killedEntry n fadeDur).fadeoutEnd < 2 ^ 32) :
    Fading c (c.killedEntry n fadeDur) n (s.triggerFadeOut fadeDur) := by
  have envelope : s.envelope = (c.killedEntry n fadeDur).envAtFo := by
    rcases rising.phase with ⟨phase, early⟩ | ⟨phase, late, _⟩
    · simp only [FofState.envelope, phase, rising.t, rising.constants,
        FofConstants.killedEntry, if_pos early]
    · simp only [FofState.envelope, phase, rising.t, rising.constants,
        FofConstants.killedEntry, if_neg (Nat.not_le_of_lt late)]
  rw [triggerFadeOut_of_heard rising.heard, envelope]
  exact fading_enterFadeOut rising.constants rising.t rfl fits

/-! ## After the fade-out has begun -/

/-- A grain that renders its sample `n` on the way to `entry`: either the fade-out
has begun, or it is still ahead, or it begins with this sample by itself. -/
def Active (c : FofConstants R) (entry : FadeEntry R) (n : Nat) (s : FofState R) : Prop :=
  (Rising c n s ∧ (n < entry.tFo ∧ entry.tFo ≤ c.decayEnd ∨ entry = c.naturalEntry)) ∨
    Fading c entry n s

/-- A grain that does not fade out yet, ahead of the calls that lead it to `entry`. -/
theorem Rising.active (rising : Rising c n s) {clock : Nat} {calls : List (GrainCall R)}
    (leads : entry = c.fadeEntry clock calls) (before : n < clock - c.params.startSample) :
    Active c entry n s := by
  subst leads
  by_cases inside : clock - c.params.startSample ≤ c.decayEnd
  · have late := FofConstants.fadeEntry_late inside calls
    exact Or.inl ⟨rising, Or.inl ⟨by omega, FofConstants.fadeEntry_tFo_le clock calls⟩⟩
  · exact Or.inl ⟨rising, Or.inr (FofConstants.fadeEntry_natural (by omega) calls)⟩

section Fading

variable [IsStrictOrderedRing R]

theorem Fading.step (fading : Fading c entry n s) :
    Fading c entry (n + 1) s.sampleStep ∧ s.sampleValue = c.closedValue entry n := by
  have constants := fading.constants
  have silent : entry.fadeoutEnd ≤ n → (0 : R) = c.closedValue entry n := by
    intro ended
    rw [FofConstants.closedValue, FofConstants.closedEnv_silent ended, mul_zero, zero_mul]
  rcases fading.phase with ⟨phase, t, entered, within⟩ | ⟨phase, t, past⟩
  · have alive : s.phaseEnd = some entry.fadeoutEnd := by
      simp only [phaseEnd, phase, fading.fadeoutEnd]
    by_cases audible : n < entry.fadeoutEnd
    · rw [sampleStep, sampleValue, settle_of_inside alive (by omega)]
      constructor
      · refine ⟨?_, ?_, ?_, ?_, ?_, Or.inl ⟨?_, ?_, by omega, audible⟩⟩
        · rw [advanceOne_constants, constants]
        all_goals simp only [advanceOne, phase, t]
        · exact fading.envAtFo
        · exact fading.tFo
        · exact fading.effectiveFadeDur
        · exact fading.fadeoutEnd
      · have positive := FadeEntry.duration_positive audible entered
        rw [FofConstants.closedValue, FofConstants.closedEnv_fading entered audible]
        simp only [settledValue, sampleEnv, phase, constants, t, fading.envAtFo, fading.tFo,
          fading.effectiveFadeDur, if_pos positive]
        rw [mul_one_div, max_comm]
    · have ended : s.settleStep = { s with phase := .dead } := by
        rw [settleStep_of_due alive (by omega)]
        simp only [transitionPhase, phase]
      have dead : s.settleStep.phaseEnd = none := by rw [ended]; rfl
      have resting := sampleStep_of_dead dead
      have quiet := sampleValue_of_dead dead
      rw [sampleStep, settle_settleStep, ← sampleStep, ended] at resting
      rw [sampleValue, settle_settleStep, ← sampleValue] at quiet
      rw [resting, quiet]
      refine ⟨⟨constants, fading.envAtFo, fading.tFo, fading.effectiveFadeDur,
        fading.fadeoutEnd, Or.inr ⟨rfl, ?_, ?_⟩⟩, silent (Nat.le_of_not_lt audible)⟩
      · change s.t = _
        omega
      · omega
  · have dead := phaseEnd_of_dead phase
    rw [sampleStep_of_dead dead, sampleValue_of_dead dead]
    exact ⟨{ fading with phase := Or.inr ⟨phase, t, Nat.lt_succ_of_lt past⟩ }, silent past.le⟩

theorem Active.step (ordered : c.attackEnd ≤ c.decayEnd) (fits : entry.fadeoutEnd < 2 ^ 32)
    (active : Active c entry n s) :
    (Rising c (n + 1) s.sampleStep ∨ Fading c entry (n + 1) s.sampleStep) ∧
      s.sampleValue = c.closedValue entry n := by
  have ahead : ∀ s, Rising c n s → n < entry.tFo → n < c.decayEnd →
      (Rising c (n + 1) s.sampleStep ∨ Fading c entry (n + 1) s.sampleStep) ∧
        s.sampleValue = c.closedValue entry n := by
    intro s rising early before
    have next := rising.step before
    rw [FofConstants.closedValue, FofConstants.closedEnv_rising early]
    exact ⟨Or.inl next.1, next.2⟩
  rcases active with ⟨rising, ⟨early, bounded⟩ | natural⟩ | fading
  · exact ahead s rising early (lt_of_lt_of_le early bounded)
  · subst natural
    by_cases before : n < c.decayEnd
    · exact ahead s rising before before
    · have last : n = c.decayEnd :=
        Nat.le_antisymm (rising.le_decayEnd ordered) (Nat.le_of_not_lt before)
      subst last
      rcases rising.settle_natural ordered fits with ⟨s', same, fading⟩
      have next := fading.step
      rw [sampleStep, sampleValue, same] at next
      exact ⟨Or.inr next.1, next.2⟩
  · exact ⟨Or.inr fading.step.1, fading.step.2⟩

end Fading

/-! ## Calls -/

/-- The calls from `clock` on lead the grain to `entry`, or have already led it there. -/
def Governed (c : FofConstants R) (entry : FadeEntry R) (clock : Nat)
    (calls : List (GrainCall R)) (s : FofState R) : Prop :=
  (Rising c (clock - c.params.startSample) s ∧ entry = c.fadeEntry clock calls) ∨
    Fading c entry (clock - c.params.startSample) s

theorem Rising.refresh (rising : Rising c n s) : Rising c n s.refresh :=
  ⟨rising.constants, rising.t, rising.decayAcc, rising.phase⟩

theorem Fading.refresh (fading : Fading c entry n s) : Fading c entry n s.refresh :=
  ⟨fading.constants, fading.envAtFo, fading.tFo, fading.effectiveFadeDur, fading.fadeoutEnd,
    fading.phase⟩

/-- A block during which the grain cannot fade out by itself. -/
theorem Rising.fillBlock (laws : ExpLaws R) (sound : s.Sound) (rising : Rising c n s)
    {blockStart : Nat} {buf : List R}
    (before : n + (buf.length - (c.params.startSample - blockStart)) ≤ c.decayEnd) :
    Rising c (n + (buf.length - (c.params.startSample - blockStart)))
      (s.fillBlock blockStart buf).1 := by
  rw [fillBlock_eq laws sound, if_neg rising.alive, rising.constants]
  exact (rising.iterate before).refresh

theorem Fading.trigger (fading : Fading c entry n s) (fadeDur : R) :
    s.triggerFadeOut fadeDur = s := by
  apply if_pos
  rcases fading.phase with ⟨phase, _⟩ | ⟨phase, _⟩
  · exact Or.inl phase
  · exact Or.inr phase

theorem Governed.spawn (params : FofParams R) (sampleRate : R) {clock : Nat}
    (starts : clock ≤ params.startSample) (calls : List (GrainCall R)) :
    Governed (FofState.spawn params sampleRate).toFofConstants
      ((FofState.spawn params sampleRate).fadeEntry clock calls) clock calls
      (FofState.spawn params sampleRate) := by
  have onset : clock - (FofState.spawn params sampleRate).params.startSample = 0 :=
    Nat.sub_eq_zero_of_le starts
  have rising := Rising.spawn params sampleRate
  rw [← onset] at rising
  exact Or.inl ⟨rising, rfl⟩

variable {clock : Nat} {buf : List R} {rest : List (GrainCall R)} {fadeDur : R}

theorem Governed.params (governed : Governed c entry clock rest s) : s.params = c.params := by
  rcases governed with ⟨rising, _⟩ | fading
  · exact congrArg FofConstants.params rising.constants
  · exact congrArg FofConstants.params fading.constants

section Governing

variable [IsStrictOrderedRing R] (ordered : c.attackEnd ≤ c.decayEnd)
  (fits : entry.fadeoutEnd < 2 ^ 32)

include ordered fits

omit [IsStrictOrderedRing R] in
/-- The first kill decides; later ones find the grain in its fade-out. -/
theorem Governed.kill (governed : Governed c entry clock (.kill fadeDur :: rest) s) :
    Governed c entry clock rest (s.triggerFadeOut fadeDur) := by
  rcases governed with ⟨rising, leads⟩ | fading
  · have killed : entry = c.killedEntry (clock - c.params.startSample) fadeDur :=
      leads.trans (if_pos (rising.le_decayEnd ordered))
    subst killed
    exact Or.inr (rising.trigger fits)
  · rw [fading.trigger]
    exact Or.inr fading

/-- Through a block the grain stays on the way to `entry`. -/
theorem Governed.tracked (governed : Governed c entry clock (.block buf :: rest) s) {k : Nat}
    (inside : clock - c.params.startSample + k ≤ clock + buf.length - c.params.startSample) :
    (Rising c (clock - c.params.startSample + k) (sampleStep^[k] s) ∧
        entry = c.fadeEntry (clock + buf.length) rest) ∨
      Fading c entry (clock - c.params.startSample + k) (sampleStep^[k] s) := by
  induction k with
  | zero => exact governed
  | succ k ih =>
      rw [Function.iterate_succ_apply', ← Nat.add_assoc]
      rcases ih (by omega) with ⟨rising, leads⟩ | fading
      · rcases ((rising.active leads (by omega)).step ordered fits).1 with rising | fading
        · exact Or.inl ⟨rising, leads⟩
        · exact Or.inr fading
      · exact Or.inr fading.step.1

theorem Governed.active (governed : Governed c entry clock (.block buf :: rest) s) {k : Nat}
    (inside : clock - c.params.startSample + k < clock + buf.length - c.params.startSample) :
    Active c entry (clock - c.params.startSample + k) (sampleStep^[k] s) := by
  rcases governed.tracked ordered fits inside.le with ⟨rising, leads⟩ | fading
  · exact rising.active leads inside
  · exact Or.inr fading

/-- A block renders the closed form and hands on to the calls after it. -/
theorem Governed.block (laws : ExpLaws R) (sound : s.Sound)
    (governed : Governed c entry clock (.block buf :: rest) s) :
    (s.fillBlock clock buf).2 = buf.mapIdx (fun j x => x + c.closedSample entry clock j) ∧
      Governed c entry (clock + buf.length) rest (s.fillBlock clock buf).1 := by
  have params := governed.params
  rw [fillBlock_eq laws sound, params]
  constructor
  · apply List.mapIdx_eq_mapIdx_iff.mpr
    intro j inBuf
    rw [FofConstants.closedSample]
    by_cases started : c.params.startSample - clock ≤ j
    · have position : clock - c.params.startSample + (j - (c.params.startSample - clock)) =
          clock + j - c.params.startSample := by omega
      have active := governed.active ordered fits (k := j - (c.params.startSample - clock))
        (by omega)
      rw [if_pos started, if_pos (by omega), (active.step ordered fits).2, position]
    · rw [if_neg started, if_neg (by omega)]
  · have ended := governed.tracked ordered fits
      (k := buf.length - (c.params.startSample - clock)) (by omega)
    have position : clock - c.params.startSample +
        (buf.length - (c.params.startSample - clock)) =
          clock + buf.length - c.params.startSample := by omega
    rw [position] at ended
    split_ifs with dead
    · rwa [Function.iterate_fixed (sampleStep_of_dead (phaseEnd_of_dead dead))] at ended
    · rcases ended with ⟨rising, leads⟩ | fading
      · exact Or.inl ⟨rising.refresh, leads⟩
      · exact Or.inr fading.refresh

end Governing

end FofState

end Grain
end Rfofs
