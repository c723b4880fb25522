import Rfofs.Grain.Trajectory

namespace Rfofs
namespace Grain

open Foundation

/-!
# A grain in closed form

What a grain adds to a sample depends on the number of samples since its onset and on
the record of its fade-out, and on nothing else.  Before the fade-out the envelope is
the rise times a power of the decay factor; after it the envelope is a line that
reaches zero.  How the range was cut into blocks leaves no trace.
-/

variable {R : Type*} [Field R] [LinearOrder R] [FloorRing R] [RealOps R]

theorem closedSample_shift (c : FofConstants R) (entry : FadeEntry R) (clock shift j : Nat) :
    c.closedSample entry clock (j + shift) = c.closedSample entry (clock + shift) j := by
  rw [FofConstants.closedSample, FofConstants.closedSample, Nat.add_comm j, ← Nat.add_assoc]

/-- The calls on a grain render the closed form of the fade-out that they lead to.  By
induction on the calls. -/
theorem FofState.Governed.renders [IsStrictOrderedRing R] (laws : ExpLaws R) {c : FofConstants R}
    (ordered : c.attackEnd ≤ c.decayEnd) {entry : FadeEntry R} (fits : entry.fadeoutEnd < 2 ^ 32)
    {clock : Nat} {calls : List (GrainCall R)} {s : FofState R} (sound : s.Sound)
    (governed : Governed c entry clock calls s) :
    (s.renderCalls clock calls).2 =
      (GrainCall.inputOf calls).mapIdx (fun j x => x + c.closedSample entry clock j) := by
  induction calls generalizing s clock with
  | nil => rfl
  | cons call rest ih =>
      cases call with
      | kill fadeDur =>
          exact ih (sound.triggerFadeOut fadeDur) (governed.kill ordered fits)
      | block buf =>
          have filled := governed.block ordered fits laws sound
          have later := ih (fillBlock_sound laws sound clock buf) filled.2
          have joined : GrainCall.inputOf (.block buf :: rest) = buf ++ GrainCall.inputOf rest := rfl
          rw [joined, List.mapIdx_append]
          simp only [closedSample_shift]
          rw [← filled.1, ← later, renderCalls]

/-! ## The rendering of a grain -/

/-- A spawned grain renders the closed form of its fade-out, whatever contiguous blocks it
is asked for and whenever it is killed; and while nobody kills it, the cut into blocks
leaves neither the samples nor the grain different. -/
theorem spawned_grain_renders_closed_form [IsStrictOrderedRing R] (laws : ExpLaws R)
    (params : FofParams R) (sampleRate : R) (clock : Nat) (starts : clock ≤ params.startSample) :
    (∀ calls : List (GrainCall R),
      ((FofState.spawn params sampleRate).fadeEntry clock calls).fadeoutEnd < 2 ^ 32 →
      ((FofState.spawn params sampleRate).renderCalls clock calls).2 =
        (GrainCall.inputOf calls).mapIdx (fun j x =>
          x + (FofState.spawn params sampleRate).closedSample
            ((FofState.spawn params sampleRate).fadeEntry clock calls) clock j)) ∧
    (∀ blocks others : List (List R), (∀ buf ∈ blocks, buf ≠ []) → (∀ buf ∈ others, buf ≠ []) →
      blocks.flatten = others.flatten →
      (FofState.spawn params sampleRate).renderCalls clock (blocks.map .block) =
        (FofState.spawn params sampleRate).renderCalls clock (others.map .block)) := by
  have sound := FofState.Sound.spawn params sampleRate
  constructor
  · intro calls fits
    exact (FofState.Governed.spawn params sampleRate starts calls).renders laws
      (le_max_right _ _) fits sound
  · intro blocks others proper properOthers same
    exact FofState.partition_invisible laws sound clock proper properOthers same

/-- A grain with its onset inside the first block, killed after its first sample. -/
theorem spawned_grain_renders_closed_form_killed :
    let params : FofParams ℝ := ⟨1, 5, 440, 1, 0, 1, 0, 2, 0, 3, 0, 0, 1⟩
    let calls : List (GrainCall ℝ) := [.block [0, 0], .kill 3, .block [0, 0, 0]]
    ((FofState.spawn params 1).renderCalls 4 calls).2 =
      [0, 0, 0, 0, 0].mapIdx (fun j x => x + (FofState.spawn params 1).closedSample
        ((FofState.spawn params 1).killedEntry 1 3) 4 j) := by
  intro params calls
  have entry : (FofState.spawn params 1).fadeEntry 4 calls =
      (FofState.spawn params 1).killedEntry 1 3 := by
    apply if_pos
    have endless : (FofState.spawn params 1).decayEnd =
        max u32Max (FofState.spawn params 1).attackEnd := by
      simp [FofState.spawn, params]
    change 6 - 5 ≤ _
    rw [endless]
    exact le_max_of_le_left (by decide)
  have rendered := (spawned_grain_renders_closed_form realLaws params 1 4 (by decide)).1 calls
  rw [entry] at rendered
  apply rendered
  have duration : ceilU32 ((3 : ℝ) * 1) = 3 := ceilU32_whole (by norm_num) (by decide)
  change 1 + ceilU32 ((3 : ℝ) * 1) < 2 ^ 32
  rw [duration]
  decide

end Grain
end Rfofs
