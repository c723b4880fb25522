import Rfofs.Grain.Lifecycle

namespace Rfofs
namespace Grain

open Foundation

/-!
# The per-sample reference

The reference against which the tests of a grain compare: it evaluates every formula
at every sample and checks its phase after every sample, instead of computing in
advance where the phases end.
-/

variable {R : Type*}

/-- State of the reference.  It moves its oscillator one sample at a time and looks at its
envelope after each of them. -/
structure NaiveRef (R : Type*) where
  params : FofParams R
  phase : FofPhase
  carrierPhase : R
  fCurrent : R
  logFFactor : R
  t : Nat
  envAtFo : R
  tFo : Nat
  effectiveFadeDur : R
  sampleRate : R
  ampScale : R
  betaSamples : R
  alphaPerSample : R

namespace NaiveRef

def stage (s : NaiveRef R) : Stage R where
  phase := s.phase
  t := s.t
  tFo := s.tFo
  effectiveFadeDur := s.effectiveFadeDur

variable [Field R] [LinearOrder R] [RealOps R]

/-- The decay of the envelope at the current sample. -/
def decayEnv (s : NaiveRef R) : R := exp (-s.alphaPerSample * (s.t : R))

def envelope (s : NaiveRef R) : R :=
  match s.phase with
  | .attack =>
      let rise := 1 / 2 * (1 - cos (RealOps.pi * (s.t : R) / s.betaSamples))
      rise * s.decayEnv
  | .decay => s.decayEnv
  | .fadeOut =>
      let elapsed := ((s.t - s.tFo : Nat) : R)
      s.envAtFo * max (1 - elapsed / s.effectiveFadeDur) 0
  | .dead => 0

def triggerFadeOut (s : NaiveRef R) (fadeDur : R) : NaiveRef R :=
  if s.phase = .fadeOut ∨ s.phase = .dead then
    s
  else
    { s with
      envAtFo := s.envelope
      tFo := s.t
      effectiveFadeDur := fadeDur * s.sampleRate
      phase := .fadeOut }

/-- The check that follows every sample; it makes at most one transition. -/
def updatePhase (s : NaiveRef R) : NaiveRef R :=
  match s.phase with
  | .attack => if s.betaSamples ≤ (s.t : R) then { s with phase := .decay } else s
  | .decay =>
      if s.decayEnv < s.params.fadeLevel then
        { s with
          envAtFo := s.decayEnv
          tFo := s.t
          effectiveFadeDur := s.params.fadeDur * s.sampleRate
          phase := .fadeOut }
      else
        s
  | .fadeOut =>
      if s.effectiveFadeDur ≤ ((s.t - s.tFo : Nat) : R) then { s with phase := .dead } else s
  | .dead => s

variable [FloorRing R]

def spawn (params : FofParams R) (sampleRate : R) : NaiveRef R :=
  let peak := fofAmax params.alpha params.beta
  { params := params
    phase := .attack
    carrierPhase := wrapPhase (params.phi / RealOps.tau)
    fCurrent := params.f
    logFFactor := exp (params.gliss * RealOps.ln2 / sampleRate)
    t := 0
    envAtFo := 0
    tFo := 0
    effectiveFadeDur := params.fadeDur * sampleRate
    sampleRate := sampleRate
    ampScale := if 0 < peak then 1 / peak else 0
    betaSamples := params.beta * sampleRate
    alphaPerSample := params.alpha / sampleRate }

/-- The grain one sample later, before its phase is checked. -/
def advance (s : NaiveRef R) (sampleRate : R) : NaiveRef R :=
  { s with
    carrierPhase := wrapPhase (s.carrierPhase + s.fCurrent / sampleRate)
    fCurrent := s.fCurrent * s.logFFactor
    t := s.t + 1 }

def fillLoop (s : NaiveRef R) (sampleRate : R) : List R → NaiveRef R × List R
  | [] => (s, [])
  | x :: rest =>
      if s.phase = .dead then
        (s, x :: rest)
      else
        let sine := sin (s.carrierPhase * RealOps.tau)
        let out := x + s.params.amp * s.ampScale * s.envelope * sine
        let later := (s.advance sampleRate).updatePhase.fillLoop sampleRate rest
        (later.1, out :: later.2)

def fillBlock (s : NaiveRef R) (sampleRate : R) (blockStart : Nat) (buf : List R) :
    NaiveRef R × List R :=
  if s.phase = .dead then
    (s, buf)
  else
    let startOffset := s.params.startSample - blockStart
    let filled := s.fillLoop sampleRate (buf.drop startOffset)
    (filled.1, buf.take startOffset ++ filled.2)

/-! ## The log of a run -/

/-- The events that `fillLoop` goes through. -/
def fillLoopEvents (s : NaiveRef R) (sampleRate : R) : List R → List (LifeEvent R)
  | [] => []
  | _ :: rest =>
      if s.phase = .dead then
        []
      else
        let next := (s.advance sampleRate).updatePhase
        s.stage.events next.stage ++ next.fillLoopEvents sampleRate rest

def fillBlockEvents (s : NaiveRef R) (sampleRate : R) (blockStart : Nat) (buf : List R) :
    List (LifeEvent R) :=
  if s.phase = .dead then
    []
  else
    s.fillLoopEvents sampleRate (buf.drop (s.params.startSample - blockStart))

/-- Contiguous calls from `clock` on, as for the grain itself. -/
def renderCalls (s : NaiveRef R) (sampleRate : R) (clock : Nat) :
    List (GrainCall R) → NaiveRef R × List R
  | [] => (s, [])
  | .block buf :: rest =>
      let filled := s.fillBlock sampleRate clock buf
      let later := filled.1.renderCalls sampleRate (clock + buf.length) rest
      (later.1, filled.2 ++ later.2)
  | .kill fadeDur :: rest => (s.triggerFadeOut fadeDur).renderCalls sampleRate clock rest

def lifeEvents (s : NaiveRef R) (sampleRate : R) (clock : Nat) :
    List (GrainCall R) → List (LifeEvent R)
  | [] => []
  | .block buf :: rest =>
      s.fillBlockEvents sampleRate clock buf ++
        (s.fillBlock sampleRate clock buf).1.lifeEvents sampleRate (clock + buf.length) rest
  | .kill fadeDur :: rest =>
      s.stage.events (s.triggerFadeOut fadeDur).stage ++
        (s.triggerFadeOut fadeDur).lifeEvents sampleRate clock rest

end NaiveRef

/-! ## Thresholds -/

/-- The laws that turn a bound on an exponential into a bound on its argument. -/
structure LogLaws (R : Type*) [Field R] [LinearOrder R] [RealOps R] : Prop where
  exp_lt : ∀ x y : R, exp x < exp y ↔ x < y
  exp_ln : ∀ x : R, 0 < x → exp (ln x) = x

section Thresholds

variable [Field R] [LinearOrder R] [FloorRing R]

theorem ceil_toNat_le {x : R} {t : Nat} : ⌈x⌉.toNat ≤ t ↔ x ≤ (t : R) := by
  rw [Int.toNat_le, Int.ceil_le, Int.cast_natCast]

/-- The number of samples of the attack.  It is not cut to a counter. -/
def attackLength (params : FofParams R) (sampleRate : R) : Int := ⌈params.beta * sampleRate⌉

variable [RealOps R]

/-- The time in samples at which the decay reaches the fade level. -/
def crossing (params : FofParams R) (sampleRate : R) : R :=
  -ln params.fadeLevel / (params.alpha / sampleRate)

/-- The sample at which the reference fades out when it is not killed.  The check of
the level begins one sample after the attack. -/
def naiveDecayEnd (params : FofParams R) (sampleRate : R) : Nat :=
  (max (attackLength params sampleRate) ⌊crossing params sampleRate⌋).toNat + 1

theorem below_fadeLevel_iff [IsStrictOrderedRing R] (laws : LogLaws R) {params : FofParams R}
    {sampleRate : R} (rate : 0 < params.alpha / sampleRate) (level : 0 < params.fadeLevel)
    {t : Nat} :
    exp (-(params.alpha / sampleRate) * (t : R)) < params.fadeLevel ↔
      ⌊crossing params sampleRate⌋ < t := by
  have threshold : exp (-(params.alpha / sampleRate) * (t : R)) < params.fadeLevel ↔
      -(params.alpha / sampleRate) * (t : R) < ln params.fadeLevel := by
    conv_lhs => rw [← laws.exp_ln _ level]
    exact laws.exp_lt _ _
  rw [threshold, Int.floor_lt, Int.cast_natCast, crossing, div_lt_iff₀ rate]
  constructor <;> intro bound <;> linarith

end Thresholds

/-! ## The trajectory of the reference -/

section Trajectory

variable [Field R]

/-- The fields that are never written. -/
structure NaiveRef.Configured (params : FofParams R) (sampleRate : R) (s : NaiveRef R) : Prop where
  params_eq : s.params = params
  sampleRate_eq : s.sampleRate = sampleRate
  betaSamples_eq : s.betaSamples = params.beta * sampleRate
  alphaPerSample_eq : s.alphaPerSample = params.alpha / sampleRate

/-- The reference `n` samples after its onset, when its fade-out has begun. -/
structure NaiveRef.Fading (params : FofParams R) (sampleRate : R) (life : Life R) (n : Nat)
    (s : NaiveRef R) : Prop where
  configured : s.Configured params sampleRate
  tFo : s.tFo = life.tFo
  effectiveFadeDur : s.effectiveFadeDur = life.effectiveFadeDur
  phase : (s.phase = .fadeOut ∧ s.t = n ∧ life.tFo ≤ n ∧ n < life.died) ∨
    (s.phase = .dead ∧ s.t = life.died ∧ life.died ≤ n)

/-- A dead reference stays where it is. -/
theorem NaiveRef.Fading.stays {params : FofParams R} {sampleRate : R} {life : Life R} {n : Nat}
    {s : NaiveRef R} (fading : Fading params sampleRate life n s) (dead : s.phase = .dead) (k : Nat) :
    Fading params sampleRate life (n + k) s := by
  rcases fading.phase with ⟨phase, _⟩ | ⟨_, t, past⟩
  · rw [phase] at dead
    cases dead
  · exact { fading with phase := Or.inr ⟨dead, t, Nat.le_add_right_of_le past⟩ }

variable [LinearOrder R] [FloorRing R]

theorem NaiveRef.Configured.advance {params : FofParams R} {sampleRate : R} {s : NaiveRef R}
    (configured : s.Configured params sampleRate) :
    (s.advance sampleRate).Configured params sampleRate :=
  ⟨configured.params_eq, configured.sampleRate_eq, configured.betaSamples_eq,
    configured.alphaPerSample_eq⟩

variable [RealOps R]

/-- The life of a reference that enters its fade-out at `tFo`.  A fade-out lasts at
least one sample, because its end is checked after a sample. -/
def naiveLifeFrom (params : FofParams R) (sampleRate : R) (tFo : Nat) (duration : R) : Life R where
  leftAttack := min (attackLength params sampleRate).toNat tFo
  tFo := tFo
  effectiveFadeDur := duration
  died := tFo + max 1 ⌈duration⌉.toNat

/-- The life that the calls from `clock` on lead to. -/
def naiveLife (params : FofParams R) (sampleRate : R) (clock : Nat) (calls : List (GrainCall R)) :
    Life R :=
  match GrainCall.firstKill clock calls with
  | some (arrival, fadeDur) =>
      if arrival - params.startSample < naiveDecayEnd params sampleRate then
        naiveLifeFrom params sampleRate (arrival - params.startSample) (fadeDur * sampleRate)
      else
        naiveLifeFrom params sampleRate (naiveDecayEnd params sampleRate)
          (params.fadeDur * sampleRate)
  | none =>
      naiveLifeFrom params sampleRate (naiveDecayEnd params sampleRate)
        (params.fadeDur * sampleRate)

theorem naiveLife_shape (params : FofParams R) (sampleRate : R) (clock : Nat)
    (calls : List (GrainCall R)) :
    ∃ tFo duration, naiveLife params sampleRate clock calls =
      naiveLifeFrom params sampleRate tFo duration := by
  unfold naiveLife
  split
  · split
    · exact ⟨_, _, rfl⟩
    · exact ⟨_, _, rfl⟩
  · exact ⟨_, _, rfl⟩

/-- A kill that is still to come cannot have happened before. -/
theorem naiveLife_late {params : FofParams R} {sampleRate : R} {clock : Nat}
    {calls : List (GrainCall R)}
    (before : clock - params.startSample < naiveDecayEnd params sampleRate) :
    clock - params.startSample ≤ (naiveLife params sampleRate clock calls).tFo := by
  unfold naiveLife
  split
  · rename_i arrival fadeDur found
    have later := GrainCall.firstKill_clock found
    split
    · change _ ≤ arrival - params.startSample
      omega
    · exact before.le
  · exact before.le

theorem naiveLife_natural {params : FofParams R} {sampleRate : R} {clock : Nat}
    {calls : List (GrainCall R)}
    (past : naiveDecayEnd params sampleRate ≤ clock - params.startSample) :
    naiveLife params sampleRate clock calls =
      naiveLifeFrom params sampleRate (naiveDecayEnd params sampleRate)
        (params.fadeDur * sampleRate) := by
  unfold naiveLife
  split
  · rename_i arrival fadeDur found
    have later := GrainCall.firstKill_clock found
    exact if_neg (by omega)
  · rfl

namespace NaiveRef

/-- The reference `n` samples after its onset, before its fade-out. -/
structure Rising (params : FofParams R) (sampleRate : R) (n : Nat) (s : NaiveRef R) : Prop where
  configured : s.Configured params sampleRate
  t : s.t = n
  phase : (s.phase = .attack ∧ n < (attackLength params sampleRate).toNat) ∨
    (s.phase = .decay ∧ (attackLength params sampleRate).toNat ≤ n ∧
      n < naiveDecayEnd params sampleRate)

variable {params : FofParams R} {sampleRate : R} {n : Nat} {s : NaiveRef R}

/-- The step of a sample: the counter advances, then the phase is checked. -/
def sampleStep (s : NaiveRef R) (sampleRate : R) : NaiveRef R :=
  (s.advance sampleRate).updatePhase

section Steps

variable [IsStrictOrderedRing R] (laws : LogLaws R) (rate : 0 < params.alpha / sampleRate)
  (level : 0 < params.fadeLevel) {tFo : Nat} {duration : R}

include laws rate level

/-- One sample before the fade-out.  Either the fade-out is not yet due, or it is due
by itself. -/
theorem Rising.step (rising : Rising params sampleRate n s)
    (toward : (n + 1 < naiveDecayEnd params sampleRate ∧ n + 1 ≤ tFo) ∨
      (tFo = naiveDecayEnd params sampleRate ∧ duration = params.fadeDur * sampleRate)) :
    s.stage.events (s.sampleStep sampleRate).stage ++
          (naiveLifeFrom params sampleRate tFo duration).remaining
            (s.sampleStep sampleRate).phase =
        (naiveLifeFrom params sampleRate tFo duration).remaining s.phase ∧
      (Rising params sampleRate (n + 1) (s.sampleStep sampleRate) ∨
        Fading params sampleRate (naiveLifeFrom params sampleRate tFo duration) (n + 1)
          (s.sampleStep sampleRate)) := by
  have configured := rising.configured.advance
  have t : (s.advance sampleRate).t = n + 1 := congrArg Nat.succ rising.t
  have gap : (attackLength params sampleRate).toNat < naiveDecayEnd params sampleRate := by
    unfold naiveDecayEnd
    omega
  rcases rising.phase with ⟨phase, early⟩ | ⟨phase, late, before⟩
  · have attack : (s.advance sampleRate).phase = .attack := phase
    have check : (s.advance sampleRate).betaSamples ≤ ((s.advance sampleRate).t : R) ↔
        (attackLength params sampleRate).toNat ≤ n + 1 := by
      rw [configured.betaSamples_eq, t]
      exact ceil_toNat_le.symm
    by_cases ended : (attackLength params sampleRate).toNat ≤ n + 1
    · have next : s.sampleStep sampleRate = { s.advance sampleRate with phase := .decay } := by
        simp only [sampleStep, updatePhase, attack, check, if_pos ended]
      have left : n + 1 = min (attackLength params sampleRate).toNat tFo := by
        rcases toward with ⟨_, ahead⟩ | ⟨natural, _⟩ <;> omega
      rw [next]
      exact ⟨Stage.events_leftAttack phase rfl (t.trans left), Or.inl
        ⟨⟨configured.params_eq, configured.sampleRate_eq, configured.betaSamples_eq,
          configured.alphaPerSample_eq⟩, t, Or.inr ⟨rfl, ended, by omega⟩⟩⟩
    · have next : s.sampleStep sampleRate = s.advance sampleRate := by
        simp only [sampleStep, updatePhase, attack, check, if_neg ended]
      rw [next]
      exact ⟨Stage.events_quiet rfl, Or.inl ⟨configured, t, Or.inl ⟨phase, by omega⟩⟩⟩
  · have decay : (s.advance sampleRate).phase = .decay := phase
    have check : (s.advance sampleRate).decayEnv < (s.advance sampleRate).params.fadeLevel ↔
        ⌊crossing params sampleRate⌋ < (n + 1 : Nat) := by
      rw [decayEnv, configured.alphaPerSample_eq, configured.params_eq, t]
      exact below_fadeLevel_iff laws rate level
    by_cases ended : ⌊crossing params sampleRate⌋ < (n + 1 : Nat)
    · have last : n + 1 = naiveDecayEnd params sampleRate := by
        unfold naiveDecayEnd at before ⊢
        omega
      have natural : tFo = naiveDecayEnd params sampleRate ∧
          duration = params.fadeDur * sampleRate := by
        rcases toward with ⟨ahead, _⟩ | natural
        · omega
        · exact natural
      have next : s.sampleStep sampleRate =
          { s.advance sampleRate with
            envAtFo := (s.advance sampleRate).decayEnv
            tFo := (s.advance sampleRate).t
            effectiveFadeDur := params.fadeDur * sampleRate
            phase := .fadeOut } := by
        simp only [sampleStep, updatePhase, decay, if_pos (check.mpr ended)]
        simp only [configured.sampleRate_eq, configured.params_eq]
      have entered : (s.advance sampleRate).t = tFo := by omega
      rw [next]
      refine ⟨Stage.events_enteredFadeOut phase rfl entered natural.2.symm, Or.inr
        ⟨⟨configured.params_eq, configured.sampleRate_eq, configured.betaSamples_eq,
          configured.alphaPerSample_eq⟩, entered, natural.2.symm, Or.inl ⟨rfl, t, ?_, ?_⟩⟩⟩
      · change tFo ≤ n + 1
        omega
      · change n + 1 < tFo + max 1 ⌈duration⌉.toNat
        omega
    · have next : s.sampleStep sampleRate = s.advance sampleRate := by
        simp only [sampleStep, updatePhase, decay, check, if_neg ended]
      rw [next]
      refine ⟨Stage.events_quiet rfl, Or.inl ⟨configured, t, Or.inr ⟨phase, by omega, ?_⟩⟩⟩
      unfold naiveDecayEnd
      omega

end Steps

/-- One sample of the fade-out. -/
theorem Fading.step {tFo : Nat} {duration : R}
    (fading : Fading params sampleRate (naiveLifeFrom params sampleRate tFo duration) n s)
    (alive : s.phase ≠ .dead) :
    s.stage.events (s.sampleStep sampleRate).stage ++
          (naiveLifeFrom params sampleRate tFo duration).remaining
            (s.sampleStep sampleRate).phase =
        (naiveLifeFrom params sampleRate tFo duration).remaining s.phase ∧
      Fading params sampleRate (naiveLifeFrom params sampleRate tFo duration) (n + 1)
        (s.sampleStep sampleRate) := by
  have configured := fading.configured.advance
  rcases fading.phase with ⟨phase, t, entered, before⟩ | ⟨dead, _⟩
  · have fadeOut : (s.advance sampleRate).phase = .fadeOut := phase
    have later : (s.advance sampleRate).t = n + 1 := congrArg Nat.succ t
    have entered : tFo ≤ n := entered
    have before : n < tFo + max 1 ⌈duration⌉.toNat := before
    have check : (s.advance sampleRate).effectiveFadeDur ≤
          (((s.advance sampleRate).t - (s.advance sampleRate).tFo : Nat) : R) ↔
        tFo + max 1 ⌈duration⌉.toNat ≤ n + 1 := by
      have duration_eq : (s.advance sampleRate).effectiveFadeDur = duration :=
        fading.effectiveFadeDur
      have tFo_eq : (s.advance sampleRate).tFo = tFo := fading.tFo
      rw [duration_eq, tFo_eq, later, ← ceil_toNat_le]
      omega
    by_cases ended : tFo + max 1 ⌈duration⌉.toNat ≤ n + 1
    · have next : s.sampleStep sampleRate = { s.advance sampleRate with phase := .dead } := by
        simp only [sampleStep, updatePhase, fadeOut, check, if_pos ended]
      have died : (s.advance sampleRate).t = tFo + max 1 ⌈duration⌉.toNat := by omega
      rw [next]
      exact ⟨Stage.events_died phase rfl died,
        ⟨configured.params_eq, configured.sampleRate_eq, configured.betaSamples_eq,
          configured.alphaPerSample_eq⟩, fading.tFo, fading.effectiveFadeDur,
        Or.inr ⟨rfl, died, ended⟩⟩
    · have next : s.sampleStep sampleRate = s.advance sampleRate := by
        simp only [sampleStep, updatePhase, fadeOut, check, if_neg ended]
      rw [next]
      exact ⟨Stage.events_quiet rfl, configured, fading.tFo, fading.effectiveFadeDur,
        Or.inl ⟨phase, later, Nat.le_succ_of_le entered, Nat.lt_of_not_le ended⟩⟩
  · exact absurd dead alive

/-! ## Blocks and calls -/

/-- The calls from `clock` on lead the reference to `life`, or have led it there. -/
def Governed (params : FofParams R) (sampleRate : R) (life : Life R) (n clock : Nat)
    (calls : List (GrainCall R)) (s : NaiveRef R) : Prop :=
  (Rising params sampleRate n s ∧ life = naiveLife params sampleRate clock calls) ∨
    Fading params sampleRate life n s

variable {life : Life R} {clock : Nat} {buf : List R} {calls rest : List (GrainCall R)}
  {fadeDur : R}

theorem Governed.configured (governed : Governed params sampleRate life n clock calls s) :
    s.Configured params sampleRate := by
  rcases governed with ⟨rising, _⟩ | fading
  · exact rising.configured
  · exact fading.configured

theorem Rising.before (rising : Rising params sampleRate n s) :
    n < naiveDecayEnd params sampleRate := by
  rcases rising.phase with ⟨_, early⟩ | ⟨_, _, before⟩
  · unfold naiveDecayEnd
    omega
  · exact before

/-- The first kill decides; later ones find the reference in its fade-out. -/
theorem Governed.kill
    (governed : Governed params sampleRate life (clock - params.startSample) clock
      (.kill fadeDur :: rest) s) :
    s.stage.events (s.triggerFadeOut fadeDur).stage ++
          life.remaining (s.triggerFadeOut fadeDur).phase = life.remaining s.phase ∧
      Governed params sampleRate life (clock - params.startSample) clock rest
        (s.triggerFadeOut fadeDur) := by
  rcases governed with ⟨rising, leads⟩ | fading
  · have killed : life = naiveLifeFrom params sampleRate (clock - params.startSample)
        (fadeDur * sampleRate) := leads.trans (if_pos rising.before)
    have heard : ¬ (s.phase = .fadeOut ∨ s.phase = .dead) := by
      rcases rising.phase with ⟨phase, _⟩ | ⟨phase, _, _⟩ <;> rw [phase] <;> decide
    have duration : fadeDur * s.sampleRate = fadeDur * sampleRate := by
      rw [rising.configured.sampleRate_eq]
    have configured := rising.configured
    rw [triggerFadeOut, if_neg heard]
    subst killed
    constructor
    · rcases rising.phase with ⟨phase, early⟩ | ⟨phase, _, _⟩
      · refine Stage.events_killed phase rfl ?_ rising.t duration
        exact rising.t.trans (Nat.min_eq_right early.le).symm
      · exact Stage.events_enteredFadeOut phase rfl rising.t duration
    · refine Or.inr ⟨⟨configured.params_eq, configured.sampleRate_eq, configured.betaSamples_eq,
        configured.alphaPerSample_eq⟩, rising.t, duration, Or.inl ⟨rfl, rising.t, le_refl _, ?_⟩⟩
      change _ < _ + max 1 _
      omega
  · have unheard : s.triggerFadeOut fadeDur = s := by
      apply if_pos
      rcases fading.phase with ⟨phase, _⟩ | ⟨phase, _⟩
      · exact Or.inl phase
      · exact Or.inr phase
    rw [unheard]
    exact ⟨Stage.events_quiet rfl, Or.inr fading⟩

section Blocks

variable [IsStrictOrderedRing R] (laws : LogLaws R) (rate : 0 < params.alpha / sampleRate)
  (level : 0 < params.fadeLevel)

include laws rate level

/-- One sample of a block, ahead of the calls that follow the block. -/
theorem Governed.step (governed : Governed params sampleRate life n clock rest s)
    (shape : ∃ tFo duration, life = naiveLifeFrom params sampleRate tFo duration)
    (alive : s.phase ≠ .dead) (within : n + 1 ≤ clock - params.startSample) :
    s.stage.events (s.sampleStep sampleRate).stage ++
          life.remaining (s.sampleStep sampleRate).phase = life.remaining s.phase ∧
      Governed params sampleRate life (n + 1) clock rest (s.sampleStep sampleRate) := by
  rcases shape with ⟨tFo, duration, shape⟩
  subst shape
  rcases governed with ⟨rising, leads⟩ | fading
  · have toward : (n + 1 < naiveDecayEnd params sampleRate ∧ n + 1 ≤ tFo) ∨
        (tFo = naiveDecayEnd params sampleRate ∧ duration = params.fadeDur * sampleRate) := by
      by_cases inside : clock - params.startSample < naiveDecayEnd params sampleRate
      · have late : clock - params.startSample ≤
            (naiveLife params sampleRate clock rest).tFo := naiveLife_late inside
        rw [← leads] at late
        exact Or.inl ⟨by omega, within.trans late⟩
      · have natural := leads.trans (naiveLife_natural (Nat.le_of_not_lt inside))
        exact Or.inr ⟨congrArg Life.tFo natural, congrArg Life.effectiveFadeDur natural⟩
    have stepped := rising.step laws rate level toward
    exact ⟨stepped.1, stepped.2.imp (fun rising => ⟨rising, leads⟩) id⟩
  · have stepped := fading.step alive
    exact ⟨stepped.1, Or.inr stepped.2⟩

theorem Governed.fillLoop (governed : Governed params sampleRate life n clock rest s)
    (shape : ∃ tFo duration, life = naiveLifeFrom params sampleRate tFo duration)
    (within : n + buf.length ≤ clock - params.startSample) :
    s.fillLoopEvents sampleRate buf ++ life.remaining (s.fillLoop sampleRate buf).1.phase =
        life.remaining s.phase ∧
      Governed params sampleRate life (n + buf.length) clock rest (s.fillLoop sampleRate buf).1 := by
  induction buf generalizing n s with
  | nil => exact ⟨rfl, governed⟩
  | cons x buf ih =>
      rw [List.length_cons] at within ⊢
      by_cases dead : s.phase = .dead
      · rw [fillLoopEvents, NaiveRef.fillLoop, if_pos dead, if_pos dead]
        refine ⟨rfl, ?_⟩
        rcases governed with ⟨rising, _⟩ | fading
        · rcases rising.phase with ⟨phase, _⟩ | ⟨phase, _⟩ <;> rw [phase] at dead <;> cases dead
        · exact Or.inr (fading.stays dead _)
      · have stepped := governed.step laws rate level shape dead (by omega)
        have later := ih stepped.2 (by omega)
        rw [fillLoopEvents, NaiveRef.fillLoop, if_neg dead, if_neg dead, List.append_assoc]
        have position : n + (buf.length + 1) = n + 1 + buf.length := by omega
        rw [position]
        refine ⟨?_, later.2⟩
        exact (congrArg _ later.1).trans stepped.1

theorem Governed.block
    (governed : Governed params sampleRate life (clock - params.startSample) clock
      (.block buf :: rest) s)
    (shape : ∃ tFo duration, life = naiveLifeFrom params sampleRate tFo duration) :
    s.fillBlockEvents sampleRate clock buf ++
          life.remaining (s.fillBlock sampleRate clock buf).1.phase = life.remaining s.phase ∧
      Governed params sampleRate life (clock + buf.length - params.startSample)
        (clock + buf.length) rest (s.fillBlock sampleRate clock buf).1 := by
  have params_eq := governed.configured.params_eq
  have position : clock - params.startSample +
      (buf.drop (params.startSample - clock)).length =
        clock + buf.length - params.startSample := by
    rw [List.length_drop]
    omega
  have ahead : Governed params sampleRate life (clock - params.startSample)
      (clock + buf.length) rest s := governed
  by_cases dead : s.phase = .dead
  · rw [fillBlockEvents, fillBlock, if_pos dead, if_pos dead]
    refine ⟨rfl, ?_⟩
    rcases ahead with ⟨rising, _⟩ | fading
    · rcases rising.phase with ⟨phase, _⟩ | ⟨phase, _⟩ <;> rw [phase] at dead <;> cases dead
    · have stays := fading.stays dead (buf.drop (params.startSample - clock)).length
      rw [position] at stays
      exact Or.inr stays
  · rw [fillBlockEvents, fillBlock, if_neg dead, if_neg dead, params_eq]
    have filled := ahead.fillLoop laws rate level shape position.le
    rw [position] at filled
    exact filled

/-- The log of a run and the events that are still ahead make up one life. -/
theorem Governed.log
    (governed : Governed params sampleRate life (clock - params.startSample) clock calls s)
    (shape : ∃ tFo duration, life = naiveLifeFrom params sampleRate tFo duration) :
    s.lifeEvents sampleRate clock calls ++
          life.remaining (s.renderCalls sampleRate clock calls).1.phase =
        life.remaining s.phase ∧
      Governed params sampleRate life
        (clock + (GrainCall.inputOf calls).length - params.startSample)
        (clock + (GrainCall.inputOf calls).length) []
        (s.renderCalls sampleRate clock calls).1 := by
  induction calls generalizing s clock with
  | nil => exact ⟨rfl, governed⟩
  | cons call rest ih =>
      cases call with
      | kill fadeDur =>
          have killed := governed.kill
          have later := ih killed.2
          rw [lifeEvents, renderCalls, List.append_assoc, later.1]
          exact ⟨killed.1, later.2⟩
      | block buf =>
          have filled := governed.block laws rate level shape
          have later := ih filled.2
          have total : clock + (GrainCall.inputOf (.block buf :: rest)).length =
              clock + buf.length + (GrainCall.inputOf rest).length := by
            rw [Nat.add_assoc, ← List.length_append]
            rfl
          rw [lifeEvents, renderCalls, List.append_assoc, later.1, total]
          exact ⟨filled.1, later.2⟩

end Blocks

end NaiveRef

end Trajectory

end Grain
end Rfofs
