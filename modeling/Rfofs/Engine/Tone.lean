import Rfofs.Engine.Choir
import Rfofs.Grain.Trajectory

namespace Rfofs
namespace Engine

open Foundation
open Grain

/-!
# Tones

A tone is what the listener knows of a grain: what was asked for, how many samples of
it have been heard, and the kill that ended it early, if there was one.  The record of
the fade-out follows from that, and every sample is the closed form at its age.  There
is no phase, no accumulator and no chunk of eight samples.

`Stage` ties the state of a grain to its tone.  A sample, a block and a kill preserve
it, as long as the fade-outs that have begun fit into the sample counter.
-/

variable {R : Type*}

/-- A grain as a listener would describe it: its request, its age, when it was killed, and
whether kills reach it. -/
structure Tone (R : Type*) where
  params : FofParams R
  age : Nat
  killed : Option (Nat × R)
  marked : Bool

namespace Tone

def start (params : FofParams R) : Tone R where
  params := params
  age := 0
  killed := none
  marked := decide (params.id ≠ 0)

/-- Take the marks of some ids away. -/
def unmark (ids : List Nat) (tone : Tone R) : Tone R :=
  if tone.params.id ∈ ids then { tone with marked := false } else tone

/-- A tone that is heard for `k` more samples. -/
def older (k : Nat) (tone : Tone R) : Tone R := { tone with age := tone.age + k }

/-- A tone behind a block, of which it misses the part before its onset. -/
def grow (blockStart blockSize : Nat) (tone : Tone R) : Tone R :=
  tone.older (blockSize - (tone.params.startSample - blockStart))

variable [Field R] [LinearOrder R] [FloorRing R] [RealOps R]

def constants (sampleRate : R) (tone : Tone R) : FofConstants R :=
  (FofState.spawn tone.params sampleRate).toFofConstants

/-- The fade-out of the tone: it was killed, or it ends by itself. -/
def entry (sampleRate : R) (tone : Tone R) : FadeEntry R :=
  match tone.killed with
  | some (age, fadeDur) => (tone.constants sampleRate).killedEntry age fadeDur
  | none => (tone.constants sampleRate).naturalEntry

/-- The fade-out has begun. -/
def Entered (sampleRate : R) (tone : Tone R) : Prop :=
  tone.killed.isSome ∨ (tone.constants sampleRate).decayEnd < tone.age

/-- The fade-out, once it has begun, ends within the range of the sample counter.  The counter
has 32 bits. -/
def Fits (sampleRate : R) (tone : Tone R) : Prop :=
  tone.Entered sampleRate → (tone.entry sampleRate).fadeoutEnd < 2 ^ 32

/-- The first kill of a marked tone ends it, unless it has begun to end by itself.  Later
kills change nothing. -/
def kill (sampleRate : R) (req : FofKillRequest R) (tone : Tone R) : Tone R :=
  if (tone.marked ∧ tone.params.id = req.id) ∧
      (tone.killed.isNone ∧ tone.age ≤ (tone.constants sampleRate).decayEnd) then
    { tone with killed := some (tone.age, req.fadeDur) }
  else
    tone

/-- A tone has ended behind the end of its fade-out. -/
def ended (sampleRate : R) (tone : Tone R) : Bool :=
  decide ((tone.entry sampleRate).fadeoutEnd < tone.age)

/-- What the tone adds to sample `j` of a block, before panning.  It is the closed form at the
age that the tone has then. -/
def sample (sampleRate : R) (blockStart : Nat) (tone : Tone R) (j : Nat) : R :=
  if tone.params.startSample - blockStart ≤ j then
    (tone.constants sampleRate).closedValue (tone.entry sampleRate)
      (tone.age + (j - (tone.params.startSample - blockStart)))
  else
    0

/-- The grain has come as far as the tone.  Its phase and its oscillators are those of this
age. -/
structure Stage (sampleRate : R) (tone : Tone R) (grain : FofState R) : Prop where
  sound : grain.Sound
  progress :
    (tone.killed = none ∧ FofState.Rising (tone.constants sampleRate) tone.age grain) ∨
    (tone.Entered sampleRate ∧
      FofState.Fading (tone.constants sampleRate) (tone.entry sampleRate) tone.age grain)

section Fitting

variable {sampleRate : R} {tone : Tone R}

omit [Field R] [LinearOrder R] [FloorRing R] [RealOps R] in
theorem unmark_params (ids : List Nat) (tone : Tone R) :
    (tone.unmark ids).params = tone.params := by
  unfold unmark
  split <;> rfl

theorem fits_unmark (ids : List Nat) (tone : Tone R) :
    (tone.unmark ids).Fits sampleRate ↔ tone.Fits sampleRate := by
  unfold unmark
  split <;> exact Iff.rfl

/-- What fits later fits now. -/
theorem Fits.of_older {k : Nat} (fits : (tone.older k).Fits sampleRate) :
    tone.Fits sampleRate := by
  rintro (killed | past)
  · exact fits (Or.inl killed)
  · exact fits (Or.inr (Nat.lt_add_right k past))

theorem Fits.of_kill {req : FofKillRequest R} (fits : (tone.kill sampleRate req).Fits sampleRate) :
    tone.Fits sampleRate := by
  unfold kill at fits
  split at fits
  · rename_i heard
    rintro (killed | past)
    · rw [Option.isNone_iff_eq_none.mp heard.2.1] at killed
      cases killed
    · exact absurd past (Nat.not_lt_of_le heard.2.2)
  · exact fits

end Fitting

namespace Stage

variable {sampleRate : R} {tone : Tone R} {grain : FofState R}

theorem constants (stage : tone.Stage sampleRate grain) :
    grain.toFofConstants = tone.constants sampleRate := by
  rcases stage.progress with ⟨_, rising⟩ | ⟨_, fading⟩
  · exact rising.constants
  · exact fading.constants

theorem params (stage : tone.Stage sampleRate grain) : grain.params = tone.params :=
  congrArg FofConstants.params stage.constants

theorem start (sampleRate : R) (params : FofParams R) :
    (Tone.start params).Stage sampleRate (FofState.spawn params sampleRate) :=
  ⟨FofState.Sound.spawn params sampleRate,
    Or.inl ⟨rfl, FofState.Rising.spawn params sampleRate⟩⟩

theorem unmark (stage : tone.Stage sampleRate grain) (ids : List Nat) :
    (tone.unmark ids).Stage sampleRate grain := by
  unfold Tone.unmark
  split
  · exact ⟨stage.sound, stage.progress⟩
  · exact stage

theorem refresh (stage : tone.Stage sampleRate grain) :
    tone.Stage sampleRate grain.refresh where
  sound := stage.sound.withCarrier _ _
  progress := by
    rcases stage.progress with ⟨unkilled, rising⟩ | ⟨entered, fading⟩
    · exact Or.inl ⟨unkilled, rising.refresh⟩
    · exact Or.inr ⟨entered, fading.refresh⟩

variable [IsStrictOrderedRing R]

omit [IsStrictOrderedRing R] in
/-- The grain is dead exactly when the tone has ended. -/
theorem dead_iff (stage : tone.Stage sampleRate grain) :
    grain.phase = .dead ↔ tone.ended sampleRate = true := by
  rw [ended, decide_eq_true_eq]
  have ordered : (tone.constants sampleRate).attackEnd ≤ (tone.constants sampleRate).decayEnd :=
    le_max_right _ _
  rcases stage.progress with ⟨unkilled, rising⟩ | ⟨_, fading⟩
  · have inside : tone.age ≤ (tone.entry sampleRate).fadeoutEnd := by
      rw [entry, unkilled]
      exact (rising.le_decayEnd ordered).trans (Nat.le_add_right _ _)
    exact iff_of_false rising.alive (Nat.not_lt_of_le inside)
  · rcases fading.phase with ⟨phase, _, _, inside⟩ | ⟨phase, _, past⟩
    · rw [phase]
      exact iff_of_false (by decide) (Nat.not_lt_of_le inside)
    · exact iff_of_true phase past

/-- One sample.  The phase changes are the ones of the closed form. -/
theorem step (stage : tone.Stage sampleRate grain) (fits : (tone.older 1).Fits sampleRate) :
    (tone.older 1).Stage sampleRate grain.sampleStep ∧
      grain.sampleValue =
        (tone.constants sampleRate).closedValue (tone.entry sampleRate) tone.age := by
  have sound : grain.sampleStep.Sound := stage.sound.iterate_sampleStep 1
  have ordered : (tone.constants sampleRate).attackEnd ≤ (tone.constants sampleRate).decayEnd :=
    le_max_right _ _
  rcases stage.progress with ⟨unkilled, rising⟩ | ⟨entered, fading⟩
  · have natural : tone.entry sampleRate = (tone.constants sampleRate).naturalEntry := by
      rw [entry, unkilled]
    by_cases before : tone.age < (tone.constants sampleRate).decayEnd
    · -- the sample lies in the attack or in the decay
      have next := rising.step before
      refine ⟨⟨sound, Or.inl ⟨unkilled, next.1⟩⟩, ?_⟩
      rw [next.2, natural, FofConstants.closedValue, FofConstants.closedEnv_rising before]
    · -- the tone begins to end with this sample
      have entered : (tone.older 1).Entered sampleRate :=
        Or.inr (Nat.lt_succ_of_le (Nat.le_of_not_lt before))
      have stepped := FofState.Active.step ordered (fits entered)
        (Or.inl ⟨rising, Or.inr natural⟩)
      refine ⟨⟨sound, Or.inr ⟨entered, ?_⟩⟩, stepped.2⟩
      rcases stepped.1 with late | fading
      · exact absurd (late.le_decayEnd ordered) (Nat.not_le_of_lt
          (Nat.lt_succ_of_le (Nat.le_of_not_lt before)))
      · exact fading
  · refine ⟨⟨sound, Or.inr ⟨?_, fading.step.1⟩⟩, fading.step.2⟩
    exact entered.imp id (Nat.lt_add_right 1)

/-- Samples in a row, by induction. -/
theorem iterate (stage : tone.Stage sampleRate grain) {k : Nat}
    (fits : (tone.older k).Fits sampleRate) :
    (tone.older k).Stage sampleRate (FofState.sampleStep^[k] grain) := by
  induction k with
  | zero => exact stage
  | succ k ih =>
      have next : ((tone.older k).older 1).Fits sampleRate := fits
      rw [Function.iterate_succ_apply']
      exact ((ih next.of_older).step next).1

/-- Each of the samples is the closed form at its age. -/
theorem iterate_value (stage : tone.Stage sampleRate grain) {k i : Nat}
    (fits : (tone.older k).Fits sampleRate) (inside : i < k) :
    (FofState.sampleStep^[i] grain).sampleValue =
      (tone.constants sampleRate).closedValue (tone.entry sampleRate) (tone.age + i) := by
  have later : (((tone.older i).older 1).older (k - (i + 1))).Fits sampleRate := by
    have whole : ((tone.older i).older 1).older (k - (i + 1)) = tone.older k := by
      simp only [older]
      congr 1
      omega
    rwa [whole]
  exact ((stage.iterate later.of_older.of_older).step later.of_older).2

/-- A block of any length, lanes included. -/
theorem fill (laws : ExpLaws R) (stage : tone.Stage sampleRate grain) {blockStart blockSize : Nat}
    (fits : (tone.grow blockStart blockSize).Fits sampleRate) :
    (tone.grow blockStart blockSize).Stage sampleRate
        (grain.fillBlock blockStart (List.replicate blockSize 0)).1 ∧
      ∀ j, j < blockSize → (grain.fillBlock blockStart (List.replicate blockSize 0)).2.getD j 0 =
        tone.sample sampleRate blockStart j := by
  have onset : grain.params.startSample = tone.params.startSample :=
    congrArg FofParams.startSample stage.params
  have iterated := stage.iterate fits
  rw [FofState.fillBlock_eq laws stage.sound, List.length_replicate, onset]
  constructor
  · dsimp only
    split
    · rename_i dead
      rwa [Function.iterate_fixed (FofState.sampleStep_of_dead
        (FofState.phaseEnd_of_dead dead))] at iterated
    · exact iterated.refresh
  · intro j inside
    have position : j < ((List.replicate blockSize (0 : R)).mapIdx (fun j x => x +
        if tone.params.startSample - blockStart ≤ j then (FofState.sampleStep^[j -
          (tone.params.startSample - blockStart)] grain).sampleValue else 0)).length := by
      rwa [List.length_mapIdx, List.length_replicate]
    dsimp only
    rw [← List.getElem_eq_getD (h := position), List.getElem_mapIdx, List.getElem_replicate,
      zero_add, sample]
    split
    · exact stage.iterate_value fits (by omega)
    · rfl

omit [IsStrictOrderedRing R] in
/-- A kill that reaches the tone. -/
theorem trigger (stage : tone.Stage sampleRate grain) {req : FofKillRequest R}
    (heard : tone.marked = true ∧ tone.params.id = req.id)
    (fits : (tone.kill sampleRate req).Fits sampleRate) :
    (tone.kill sampleRate req).Stage sampleRate (grain.triggerFadeOut req.fadeDur) := by
  have ordered : (tone.constants sampleRate).attackEnd ≤ (tone.constants sampleRate).decayEnd :=
    le_max_right _ _
  refine ⟨stage.sound.triggerFadeOut _, ?_⟩
  unfold kill at fits ⊢
  rcases stage.progress with ⟨unkilled, rising⟩ | ⟨entered, fading⟩
  · have early := rising.le_decayEnd ordered
    rw [if_pos ⟨heard, Option.isNone_iff_eq_none.mpr unkilled, early⟩] at fits ⊢
    exact Or.inr ⟨Or.inl rfl, rising.trigger (fits (Or.inl rfl))⟩
  · have late : ¬ (tone.killed.isNone ∧ tone.age ≤ (tone.constants sampleRate).decayEnd) := by
      rintro ⟨unkilled, early⟩
      rcases entered with killed | past
      · rw [Option.isNone_iff_eq_none.mp unkilled] at killed
        cases killed
      · exact Nat.not_lt_of_le early past
    rw [if_neg (fun both => late both.2), fading.trigger]
    exact Or.inr ⟨entered, fading⟩

end Stage

end Tone

end Engine
end Rfofs
