import Rfofs.Grain.Naive

namespace Rfofs
namespace Grain

open Foundation

/-!
# Where the two lives agree

The grain computes in advance where its phases end and changes phase lazily; the
reference checks after every sample.  Both leave the attack at the same sample.  They
enter the fade-out together when the decay crosses the fade level strictly between
two samples after the attack; when it crosses on a sample, or before the attack has
ended, the reference is one sample late, because its check is strict and begins one
sample after the attack.

A kill makes the two agree when it arrives before either of them fades out, provided
that it fades over a positive duration: a fade-out without duration ends at once in
the grain, and after one more sample in the reference.  A kill that arrives exactly
when the reference has just faded out by itself still reaches the grain.
-/

variable {R : Type*} [Field R] [LinearOrder R] [FloorRing R]

theorem ceil_max_toNat [IsStrictOrderedRing R] (x : R) : ⌈max x 0⌉.toNat = ⌈x⌉.toNat := by
  rcases le_total x 0 with nonpositive | nonnegative
  · have below : ⌈x⌉ ≤ 0 := Int.ceil_le.mpr (by simpa using nonpositive)
    rw [max_eq_right nonpositive, Int.ceil_zero, Int.toNat_of_nonpos below]
    rfl
  · rw [max_eq_left nonnegative]

theorem ceilU32_toNat [IsStrictOrderedRing R] {x : R} (fits : ⌈x⌉.toNat ≤ u32Max) : ceilU32 x = ⌈x⌉.toNat := by
  rw [← ceil_max_toNat] at fits ⊢
  exact ceilU32_eq fits

/-- The sample at which a fade-out ends when no counter has a largest value. -/
def FadeEntry.exactEnd (entry : FadeEntry R) : Nat :=
  entry.tFo + ⌈max entry.effectiveFadeDur 0⌉.toNat

theorem FadeEntry.fadeoutEnd_eq [IsStrictOrderedRing R] {entry : FadeEntry R}
    (fits : entry.exactEnd < 2 ^ 32) : entry.fadeoutEnd = entry.exactEnd := by
  have length : ⌈max entry.effectiveFadeDur 0⌉.toNat ≤ u32Max := by
    rw [FadeEntry.exactEnd] at fits
    rw [u32Max]
    omega
  rw [FadeEntry.fadeoutEnd, FadeEntry.exactEnd, ceilU32_eq length]

variable [RealOps R]

/-- The two machines live the same life under these calls.  The condition compares rounded
lengths of the parameters, not the machines. -/
def LifecycleKept (params : FofParams R) (sampleRate : R) (clock : Nat)
    (calls : List (GrainCall R)) : Prop :=
  let attackEnd := attackLength params sampleRate
  let level := crossing params sampleRate
  let between := (attackEnd : R) < level ∧ ((⌊level⌋ : Int) : R) ≠ level
  match GrainCall.firstKill clock calls with
  | some (arrival, fadeDur) =>
      let t : Int := (arrival - params.startSample : Nat)
      if t ≤ max attackEnd ⌈level⌉ then
        0 < fadeDur ∧ (t ≤ max attackEnd ⌊level⌋ ∨ fadeDur = params.fadeDur)
      else
        between
  | none => between

/-- No sample counter of the grain leaves its range. -/
structure CountersFit (params : FofParams R) (sampleRate : R) (clock : Nat)
    (calls : List (GrainCall R)) : Prop where
  attack : (attackLength params sampleRate).toNat ≤ u32Max
  decay : ⌈crossing params sampleRate⌉.toNat ≤ u32Max
  fadeOut : ((FofState.spawn params sampleRate).fadeEntry clock calls).exactEnd < 2 ^ 32

/-- The parameters of a grain that attacks, decays and fades out by itself. -/
structure Audible (params : FofParams R) (sampleRate : R) : Prop where
  sampleRate : 0 < sampleRate
  beta : 0 < params.beta
  alpha : 0 < params.alpha
  fadeLevel : 0 < params.fadeLevel
  fadeDur : 0 < params.fadeDur

section Thresholds

variable [IsStrictOrderedRing R] {params : FofParams R} {sampleRate : R}

theorem spawn_attackEnd (fits : (attackLength params sampleRate).toNat ≤ u32Max) :
    (FofState.spawn params sampleRate).attackEnd = (attackLength params sampleRate).toNat :=
  ceilU32_toNat fits

theorem spawn_decayEnd (audible : Audible params sampleRate)
    (attack : (attackLength params sampleRate).toNat ≤ u32Max)
    (decay : ⌈crossing params sampleRate⌉.toNat ≤ u32Max) :
    (FofState.spawn params sampleRate).decayEnd =
      max ⌈crossing params sampleRate⌉.toNat (attackLength params sampleRate).toNat := by
  have checked : 0 < params.alpha ∧ 0 < params.fadeLevel := ⟨audible.alpha, audible.fadeLevel⟩
  have raw := ceilU32_toNat decay
  rw [crossing] at raw
  change max (if 0 < params.alpha ∧ 0 < params.fadeLevel then _ else _) _ = _
  rw [if_pos checked, raw]
  exact congrArg _ (spawn_attackEnd attack)

/-- The decay ends at the same sample in both machines exactly when the fade level is
crossed between two samples after the attack. -/
theorem decayEnds_equal_iff (audible : Audible params sampleRate)
    (attack : (attackLength params sampleRate).toNat ≤ u32Max)
    (decay : ⌈crossing params sampleRate⌉.toNat ≤ u32Max) :
    (FofState.spawn params sampleRate).decayEnd = naiveDecayEnd params sampleRate ↔
      ((attackLength params sampleRate : Int) : R) < crossing params sampleRate ∧
        ((⌊crossing params sampleRate⌋ : Int) : R) ≠ crossing params sampleRate := by
  have positive : 0 < attackLength params sampleRate :=
    Int.ceil_pos.mpr (mul_pos audible.beta audible.sampleRate)
  have above := Int.lt_ceil (a := crossing params sampleRate) (z := attackLength params sampleRate)
  have width := Int.ceil_le_floor_add_one (crossing params sampleRate)
  have ordered := Int.floor_le_ceil (crossing params sampleRate)
  have integral : ((⌊crossing params sampleRate⌋ : Int) : R) = crossing params sampleRate ↔
      ⌈crossing params sampleRate⌉ = ⌊crossing params sampleRate⌋ := by
    constructor
    · intro exactly
      conv_lhs => rw [← exactly]
      exact Int.ceil_intCast _
    · intro same
      have above := Int.le_ceil (crossing params sampleRate)
      rw [same] at above
      exact le_antisymm (Int.floor_le _) above
  rw [spawn_decayEnd audible attack decay, naiveDecayEnd, ← above, Ne, integral]
  omega

/-- A fade-out ends at the same sample in both machines exactly when it lasts. -/
theorem lives_equal_iff_entries {entry : FadeEntry R} {tFo : Nat} {duration : R}
    (attack : (attackLength params sampleRate).toNat ≤ u32Max) (fits : entry.exactEnd < 2 ^ 32) :
    FofState.life (FofState.spawn params sampleRate).toFofConstants entry =
        naiveLifeFrom params sampleRate tFo duration ↔
      entry.tFo = tFo ∧ entry.effectiveFadeDur = duration ∧ 0 < duration := by
  have lasting : ⌈duration⌉.toNat = max 1 ⌈duration⌉.toNat ↔ 0 < duration := by
    rw [← Int.ceil_pos]
    omega
  have ended : (FofState.spawn params sampleRate).attackEnd =
      (attackLength params sampleRate).toNat := spawn_attackEnd attack
  rw [Life.ext_iff]
  simp only [FofState.life, naiveLifeFrom, ended, FadeEntry.fadeoutEnd_eq fits,
    FadeEntry.exactEnd, ceil_max_toNat]
  constructor
  · rintro ⟨_, rfl, rfl, died⟩
    exact ⟨rfl, rfl, lasting.mp (Nat.add_left_cancel died)⟩
  · rintro ⟨rfl, rfl, positive⟩
    exact ⟨rfl, rfl, rfl, congrArg _ (lasting.mpr positive)⟩

/-- The lives that the calls lead to are the same exactly under the stated condition. -/
theorem lives_equal_iff_kept (audible : Audible params sampleRate) {clock : Nat}
    {calls : List (GrainCall R)} (fits : CountersFit params sampleRate clock calls) :
    FofState.life (FofState.spawn params sampleRate).toFofConstants
          ((FofState.spawn params sampleRate).fadeEntry clock calls) =
        naiveLife params sampleRate clock calls ↔
      LifecycleKept params sampleRate clock calls := by
  have ends := spawn_decayEnd audible fits.attack fits.decay
  have natural := decayEnds_equal_iff audible fits.attack fits.decay
  have lasting : 0 < params.fadeDur * sampleRate := mul_pos audible.fadeDur audible.sampleRate
  have unkilled : (FofState.spawn params sampleRate).naturalEntry.exactEnd < 2 ^ 32 →
      (FofState.life (FofState.spawn params sampleRate).toFofConstants
          (FofState.spawn params sampleRate).naturalEntry =
        naiveLifeFrom params sampleRate (naiveDecayEnd params sampleRate)
          (params.fadeDur * sampleRate) ↔
      ((attackLength params sampleRate : Int) : R) < crossing params sampleRate ∧
        ((⌊crossing params sampleRate⌋ : Int) : R) ≠ crossing params sampleRate) := by
    intro fadeOut
    rw [lives_equal_iff_entries fits.attack fadeOut, ← natural]
    exact ⟨fun same => same.1, fun same => ⟨same, rfl, lasting⟩⟩
  have fadeOut := fits.fadeOut
  unfold FofConstants.fadeEntry at fadeOut ⊢
  unfold naiveLife LifecycleKept
  generalize GrainCall.firstKill clock calls = killed at fadeOut ⊢
  cases killed with
  | none => exact unkilled fadeOut
  | some kill =>
      rcases kill with ⟨arrival, fadeDur⟩
      have params_eq : (FofState.spawn params sampleRate).params = params := rfl
      dsimp only at fadeOut ⊢
      rw [params_eq] at fadeOut ⊢
      generalize arrival - params.startSample = t at fadeOut ⊢
      have positive : 0 < attackLength params sampleRate :=
        Int.ceil_pos.mpr (mul_pos audible.beta audible.sampleRate)
      have width := Int.ceil_le_floor_add_one (crossing params sampleRate)
      have floor_le := Int.floor_le_ceil (crossing params sampleRate)
      have early_iff : t ≤ (FofState.spawn params sampleRate).decayEnd ↔
          (t : Int) ≤ max (attackLength params sampleRate) ⌈crossing params sampleRate⌉ := by
        rw [ends]
        omega
      have before_iff : t < naiveDecayEnd params sampleRate ↔
          (t : Int) ≤ max (attackLength params sampleRate) ⌊crossing params sampleRate⌋ := by
        unfold naiveDecayEnd
        omega
      have gap : (FofState.spawn params sampleRate).decayEnd ≤ naiveDecayEnd params sampleRate ∧
          naiveDecayEnd params sampleRate ≤ (FofState.spawn params sampleRate).decayEnd + 1 := by
        rw [ends, naiveDecayEnd]
        omega
      have scaled : 0 < fadeDur * sampleRate ↔ 0 < fadeDur :=
        mul_pos_iff_of_pos_right audible.sampleRate
      by_cases early : t ≤ (FofState.spawn params sampleRate).decayEnd
      · rw [if_pos early] at fadeOut ⊢
        rw [if_pos (early_iff.mp early)]
        by_cases before : t < naiveDecayEnd params sampleRate
        · rw [if_pos before, lives_equal_iff_entries fits.attack fadeOut, scaled]
          exact ⟨fun same => ⟨same.2.2, Or.inl (before_iff.mp before)⟩,
            fun kept => ⟨rfl, rfl, kept.1⟩⟩
        · have late : ¬ (t : Int) ≤
              max (attackLength params sampleRate) ⌊crossing params sampleRate⌋ :=
            fun within => before (before_iff.mpr within)
          have last : t = naiveDecayEnd params sampleRate := by omega
          rw [if_neg before, lives_equal_iff_entries fits.attack fadeOut]
          constructor
          · rintro ⟨_, duration, _⟩
            have same : fadeDur = params.fadeDur :=
              mul_right_cancel₀ audible.sampleRate.ne' duration
            exact ⟨same ▸ audible.fadeDur, Or.inr same⟩
          · rintro ⟨_, within | same⟩
            · exact absurd within late
            · exact ⟨last, congrArg (· * sampleRate) same, lasting⟩
      · have past : ¬ t < naiveDecayEnd params sampleRate := by omega
        rw [if_neg early] at fadeOut ⊢
        rw [if_neg (fun within => early (early_iff.mpr within)), if_neg past]
        exact unkilled fadeOut

end Thresholds

/-! ## The logs -/

section Logs

variable [IsStrictOrderedRing R] (laws : ExpLaws R) (logLaws : LogLaws R) {params : FofParams R}
  {sampleRate : R} (audible : Audible params sampleRate) {clock : Nat}
  (starts : clock ≤ params.startSample) {calls : List (GrainCall R)}

/-- The events of the grain under these calls, transitions inside a block included. -/
def grainLog (params : FofParams R) (sampleRate : R) (clock : Nat) (calls : List (GrainCall R)) :
    List (LifeEvent R) :=
  (FofState.spawn params sampleRate).lifeEvents clock calls

/-- The events of the reference under the same calls. -/
def naiveLog (params : FofParams R) (sampleRate : R) (clock : Nat) (calls : List (GrainCall R)) :
    List (LifeEvent R) :=
  (NaiveRef.spawn params sampleRate).lifeEvents sampleRate clock calls

/-- Both machines have died under these calls.  Only then are their logs complete. -/
def BothDead (params : FofParams R) (sampleRate : R) (clock : Nat) (calls : List (GrainCall R)) :
    Prop :=
  ((FofState.spawn params sampleRate).renderCalls clock calls).1.phase = .dead ∧
    ((NaiveRef.spawn params sampleRate).renderCalls sampleRate clock calls).1.phase = .dead

include laws starts in
theorem grain_log (fits : CountersFit params sampleRate clock calls) :
    grainLog params sampleRate clock calls ++
          (FofState.life (FofState.spawn params sampleRate).toFofConstants
            ((FofState.spawn params sampleRate).fadeEntry clock calls)).remaining
              ((FofState.spawn params sampleRate).renderCalls clock calls).1.phase =
        (FofState.life (FofState.spawn params sampleRate).toFofConstants
          ((FofState.spawn params sampleRate).fadeEntry clock calls)).remaining .attack ∧
      FofState.Governed (FofState.spawn params sampleRate).toFofConstants
        ((FofState.spawn params sampleRate).fadeEntry clock calls)
        (clock + (GrainCall.inputOf calls).length) []
        ((FofState.spawn params sampleRate).renderCalls clock calls).1 :=
  (FofState.Governed.spawn params sampleRate starts calls).log (le_max_right _ _)
    (FadeEntry.fadeoutEnd_eq fits.fadeOut ▸ fits.fadeOut) laws
    (FofState.Sound.spawn params sampleRate)

include logLaws audible starts in
theorem naive_log (calls : List (GrainCall R)) :
    naiveLog params sampleRate clock calls ++
          (naiveLife params sampleRate clock calls).remaining
            ((NaiveRef.spawn params sampleRate).renderCalls sampleRate clock calls).1.phase =
        (naiveLife params sampleRate clock calls).remaining .attack ∧
      NaiveRef.Governed params sampleRate (naiveLife params sampleRate clock calls)
        (clock + (GrainCall.inputOf calls).length - params.startSample)
        (clock + (GrainCall.inputOf calls).length) []
        ((NaiveRef.spawn params sampleRate).renderCalls sampleRate clock calls).1 := by
  have attackLength_positive : 0 < attackLength params sampleRate :=
    Int.ceil_pos.mpr (mul_pos audible.beta audible.sampleRate)
  have onset : clock - params.startSample = 0 := Nat.sub_eq_zero_of_le starts
  have spawned : NaiveRef.Rising params sampleRate (clock - params.startSample)
      (NaiveRef.spawn params sampleRate) := by
    rw [onset]
    exact ⟨⟨rfl, rfl, rfl, rfl⟩, rfl, Or.inl ⟨rfl, by omega⟩⟩
  exact NaiveRef.Governed.log logLaws (div_pos audible.alpha audible.sampleRate)
    audible.fadeLevel (Or.inl ⟨spawned, rfl⟩) (naiveLife_shape params sampleRate clock calls)

include laws logLaws audible starts in
/-- Complete logs agree exactly under the stated condition. -/
theorem logs_agree_iff_kept (fits : CountersFit params sampleRate clock calls)
    (dead : BothDead params sampleRate clock calls) :
    grainLog params sampleRate clock calls = naiveLog params sampleRate clock calls ↔
      LifecycleKept params sampleRate clock calls := by
  have grain := (grain_log laws starts fits).1
  have naive := (naive_log logLaws audible starts calls).1
  rw [dead.1, Life.remaining_dead, List.append_nil] at grain
  rw [dead.2, Life.remaining_dead, List.append_nil] at naive
  rw [← lives_equal_iff_kept audible fits, grain, naive]
  exact ⟨Life.remaining_attack_injective, congrArg (Life.remaining · .attack)⟩

include laws logLaws audible starts in
/-- A run that is longer than both lives has ended them. -/
theorem bothDead_of_long (fits : CountersFit params sampleRate clock calls)
    (long : ((FofState.spawn params sampleRate).fadeEntry clock calls).fadeoutEnd <
      clock + (GrainCall.inputOf calls).length - params.startSample)
    (longNaive : (naiveLife params sampleRate clock calls).died ≤
      clock + (GrainCall.inputOf calls).length - params.startSample) :
    BothDead params sampleRate clock calls := by
  constructor
  · rcases (grain_log laws starts fits).2 with ⟨rising, natural⟩ | fading
    · have before : clock + (GrainCall.inputOf calls).length - params.startSample ≤
          (FofState.spawn params sampleRate).decayEnd := rising.le_decayEnd (le_max_right _ _)
      rw [natural] at long
      have entered : (FofState.spawn params sampleRate).decayEnd <
          clock + (GrainCall.inputOf calls).length - params.startSample :=
        lt_of_le_of_lt (Nat.le_add_right _ _) long
      omega
    · rcases fading.phase with ⟨_, _, _, within⟩ | ⟨dead, _⟩
      · exact absurd (lt_of_lt_of_le long within) (lt_irrefl _)
      · exact dead
  · rcases (naive_log logLaws audible starts calls).2 with ⟨rising, natural⟩ | fading
    · have before := rising.before
      rw [natural] at longNaive
      have entered : naiveDecayEnd params sampleRate ≤
          clock + (GrainCall.inputOf calls).length - params.startSample :=
        (Nat.le_add_right _ _).trans longNaive
      omega
    · rcases fading.phase with ⟨_, _, _, within⟩ | ⟨dead, _⟩
      · exact absurd (lt_of_lt_of_le within longNaive) (lt_irrefl _)
      · exact dead

include laws logLaws audible starts in
/-- However a run has gone so far, one block that is long enough ends both lives; and
when both have ended, the logs agree exactly under the stated condition. -/
theorem lifecycle_agrees_iff_kept (fits : CountersFit params sampleRate clock calls) :
    (∃ enough, ∀ buf : List R, enough ≤ buf.length →
      BothDead params sampleRate clock (calls ++ [.block buf])) ∧
    (BothDead params sampleRate clock calls →
      (grainLog params sampleRate clock calls = naiveLog params sampleRate clock calls ↔
        LifecycleKept params sampleRate clock calls)) := by
  constructor
  · refine ⟨params.startSample + ((FofState.spawn params sampleRate).fadeEntry clock
      calls).fadeoutEnd + (naiveLife params sampleRate clock calls).died + 1, ?_⟩
    intro buf enough
    have killed := GrainCall.firstKill_append_block clock calls buf
    have entry : (FofState.spawn params sampleRate).fadeEntry clock (calls ++ [.block buf]) =
        (FofState.spawn params sampleRate).fadeEntry clock calls := by
      simp only [FofConstants.fadeEntry, killed]
    have life : naiveLife params sampleRate clock (calls ++ [.block buf]) =
        naiveLife params sampleRate clock calls := by
      simp only [naiveLife, killed]
    have total : (GrainCall.inputOf (calls ++ [.block buf])).length =
        (GrainCall.inputOf calls).length + buf.length := by
      simp [GrainCall.inputOf, GrainCall.input]
    apply bothDead_of_long laws logLaws audible starts
    · exact ⟨fits.attack, fits.decay, entry ▸ fits.fadeOut⟩
    · rw [entry, total]
      omega
    · rw [life, total]
      omega
  · exact logs_agree_iff_kept laws logLaws audible starts fits

end Logs

/-! ## Grains over the real numbers -/

theorem realLogLaws : LogLaws ℝ where
  exp_lt := fun _ _ => Real.exp_lt_exp
  exp_ln := fun _ positive => Real.exp_log positive

/-- A grain that attacks for one sample and fades out over two, at one sample a second.
Its decay reaches the fade level after `y` samples. -/
noncomputable def shortGrain (y : ℝ) : FofParams ℝ where
  id := 0
  startSample := 0
  f := 440
  gliss := 0
  phi := 0
  amp := 1
  alpha := 1
  beta := 1
  fadeLevel := Real.exp (-y)
  fadeDur := 2
  azm := 0
  elev := 0
  distance := 1

theorem shortGrain_audible (y : ℝ) : Audible (shortGrain y) 1 where
  sampleRate := one_pos
  beta := one_pos
  alpha := one_pos
  fadeLevel := Real.exp_pos _
  fadeDur := two_pos

theorem shortGrain_attack (y : ℝ) : attackLength (shortGrain y) 1 = 1 := by
  simp [attackLength, shortGrain]

theorem shortGrain_crossing (y : ℝ) : crossing (shortGrain y) 1 = y := by
  simp [crossing, shortGrain, RealOps.ln]

theorem shortGrain_died {y : ℝ} {decay : Nat} (rounded : ⌈y⌉ = decay) (fits : decay ≤ 100)
    (buf : List ℝ) :
    CountersFit (shortGrain y) 1 0 [.block buf] ∧
      ((FofState.spawn (shortGrain y) 1).fadeEntry 0 [.block buf]).exactEnd =
        max decay 1 + 2 := by
  have attack : (attackLength (shortGrain y) 1).toNat ≤ u32Max := by
    rw [shortGrain_attack]
    decide
  have within : ⌈crossing (shortGrain y) 1⌉.toNat ≤ u32Max := by
    rw [shortGrain_crossing, rounded, Int.toNat_natCast]
    exact fits.trans (by decide)
  have decayEnd := spawn_decayEnd (shortGrain_audible y) attack within
  rw [shortGrain_crossing, shortGrain_attack, rounded, Int.toNat_natCast] at decayEnd
  have duration : ⌈max ((2 : ℝ) * 1) 0⌉ = 2 := by norm_num
  have ended : ((FofState.spawn (shortGrain y) 1).fadeEntry 0 [.block buf]).exactEnd =
      max decay 1 + 2 := by
    change (FofState.spawn (shortGrain y) 1).decayEnd + ⌈max ((2 : ℝ) * 1) 0⌉.toNat = _
    rw [decayEnd, duration]
    rfl
  refine ⟨⟨attack, within, ?_⟩, ended⟩
  rw [ended]
  omega

/-- A decay that crosses the fade level between two samples. -/
theorem lifecycle_agrees_iff_kept_between :
    ∃ buf : List ℝ, BothDead (shortGrain (5 / 2)) 1 0 [.block buf] ∧
      grainLog (shortGrain (5 / 2)) 1 0 [.block buf] =
        naiveLog (shortGrain (5 / 2)) 1 0 [.block buf] := by
  have rounded : ⌈(5 / 2 : ℝ)⌉ = (3 : Nat) := by norm_num
  have fits := shortGrain_died rounded (by decide)
  have unplayed : CountersFit (shortGrain (5 / 2)) 1 0 [] :=
    ⟨(fits []).1.attack, (fits []).1.decay, (fits []).1.fadeOut⟩
  obtain ⟨enough, long⟩ := (lifecycle_agrees_iff_kept realLaws realLogLaws
    (shortGrain_audible (5 / 2)) (le_refl 0) unplayed).1
  have dead := long (List.replicate enough 0) (List.length_replicate ..).ge
  refine ⟨List.replicate enough 0, dead, ?_⟩
  apply ((lifecycle_agrees_iff_kept realLaws realLogLaws (shortGrain_audible (5 / 2))
    (le_refl 0) (fits (List.replicate enough 0)).1).2 dead).mpr
  have below : ⌊(5 / 2 : ℝ)⌋ = 2 := by norm_num
  change ((attackLength (shortGrain (5 / 2)) 1 : Int) : ℝ) < crossing (shortGrain (5 / 2)) 1 ∧
    ((⌊crossing (shortGrain (5 / 2)) 1⌋ : Int) : ℝ) ≠ crossing (shortGrain (5 / 2)) 1
  rw [shortGrain_attack, shortGrain_crossing, below]
  norm_num

/-- The decay reaches the fade level during the attack: the grain fades out as soon as
the attack ends, the reference one sample later. -/
theorem early_crossing_lives_apart :
    Audible (shortGrain (1 / 2)) 1 ∧ (shortGrain (1 / 2)).fadeLevel < 1 ∧
      BothDead (shortGrain (1 / 2)) 1 0 [.block (List.replicate 8 0)] ∧
      grainLog (shortGrain (1 / 2)) 1 0 [.block (List.replicate 8 0)] ≠
        naiveLog (shortGrain (1 / 2)) 1 0 [.block (List.replicate 8 0)] := by
  have rounded : ⌈(1 / 2 : ℝ)⌉ = (1 : Nat) := by norm_num
  have fits := shortGrain_died rounded (by decide) (List.replicate 8 0)
  have dead : BothDead (shortGrain (1 / 2)) 1 0 [.block (List.replicate 8 0)] := by
    apply bothDead_of_long realLaws realLogLaws (shortGrain_audible (1 / 2)) (le_refl 0) fits.1
    · rw [FadeEntry.fadeoutEnd_eq fits.1.fadeOut, fits.2]
      decide
    · have below : ⌊(1 / 2 : ℝ)⌋ = 0 := by norm_num
      have duration : ⌈(2 : ℝ) * 1⌉ = 2 := by norm_num
      change naiveDecayEnd (shortGrain (1 / 2)) 1 + max 1 ⌈(2 : ℝ) * 1⌉.toNat ≤ 8
      rw [naiveDecayEnd, shortGrain_attack, shortGrain_crossing, below, duration]
      decide
  refine ⟨shortGrain_audible (1 / 2), ?_, dead, ?_⟩
  · change Real.exp (-(1 / 2)) < 1
    exact Real.exp_lt_one_iff.mpr (by norm_num)
  · intro same
    have kept := (logs_agree_iff_kept realLaws realLogLaws (shortGrain_audible (1 / 2))
      (le_refl 0) fits.1 dead).mp same
    have after : ((attackLength (shortGrain (1 / 2)) 1 : Int) : ℝ) <
        crossing (shortGrain (1 / 2)) 1 := kept.1
    rw [shortGrain_attack, shortGrain_crossing] at after
    norm_num at after

end Grain
end Rfofs
