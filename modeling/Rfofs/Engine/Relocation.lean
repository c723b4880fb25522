import Rfofs.Engine.Runs
import Rfofs.Grain.Trajectory

namespace Rfofs
namespace Engine

open Foundation
open Grain
open Queue

/-!
# Clocks that are set from outside

A grain does not know which sample of the clock it has reached: each block finds its
first output index anew, from the onset of the grain and the start of the block.  For a
grain that has begun the index is zero as long as the block does not start before its
onset.  Forward jumps are therefore harmless.

A block that starts before the onset of an active grain is not, whether the clock was moved
back there or stands still there after the grain began in the middle of a block: the grain
waits for its onset again, and pauses in the middle of its life.
-/

variable {R : Type*}

/-- The clock is not before the onset of an active grain. -/
def Reached (engine : RfofsEngine R) : Prop :=
  ∀ grain ∈ engine.active.values, grain.params.startSample ≤ engine.sampleClock

/-- The assertion of `fillBlock` on the output index of the first sample.  In a build without
assertions the loop writes nothing instead. -/
def OffsetInside (grain : FofState R) (blockStart blockSize : Nat) : Prop :=
  grain.params.startSample - blockStart < blockSize

variable [Field R] [LinearOrder R] [FloorRing R] [RealOps R]

/-- The block is rendered from its first index: the loop is given the whole buffer, and
the grain counts every sample of it or dies. -/
structure Gapless (grain : FofState R) (blockStart blockSize : Nat) : Prop where
  first : ∀ buf, (grain.fillBlock blockStart buf).2 = (grain.fillLoop buf).2
  counted : ∀ buf, buf.length = blockSize →
    (grain.fillBlock blockStart buf).1.t = grain.t + blockSize ∨
      (grain.fillBlock blockStart buf).1.phase = .dead

theorem gapless_of_reached {grain : FofState R} (alive : grain.phase ≠ .dead) {blockStart : Nat}
    (reached : grain.params.startSample ≤ blockStart) (blockSize : Nat) :
    Gapless grain blockStart blockSize := by
  have onset : grain.params.startSample - blockStart = 0 := Nat.sub_eq_zero_of_le reached
  refine ⟨fun buf => ?_, fun buf size => ?_⟩
  · rw [FofState.fillBlock_onset alive, onset, List.take_zero, List.drop_zero, List.nil_append]
  · have counted := FofState.fillBlock_t alive blockStart buf
    rw [onset, Nat.sub_zero, size] at counted
    exact counted.imp id And.left

/-- A grain whose onset lies ahead loses samples of the block. -/
theorem counted_lt {grain : FofState R} (alive : grain.phase ≠ .dead) {blockStart blockSize : Nat}
    (positive : 1 ≤ blockSize) (ahead : blockStart < grain.params.startSample) {buf : List R}
    (size : buf.length = blockSize) :
    (grain.fillBlock blockStart buf).1.t < grain.t + blockSize := by
  have counted := FofState.fillBlock_t alive blockStart buf
  rw [size] at counted
  omega

/-- A grain that was active before a block and is at the same sample, or one that is
spawned by the block and whose onset lies before its end. -/
def Originates (engine : RfofsEngine R) (blockSize : Nat) (grain : FofState R) : Prop :=
  (∃ old ∈ engine.active.values, grain.params = old.params ∧ grain.t = old.t) ∨
    (grain.t = 0 ∧ grain.params.startSample < engine.sampleClock + blockSize)

section Blocks

variable {engine : RfofsEngine R} {slots : List (Nat × Voice R)}

/-- Every grain of a block has been active already, or is spawned by the block. -/
theorem Sound.originates (sound : Sound engine slots) (blockSize : Nat) :
    ∀ voice ∈ roused engine.sampleRate (engine.incoming blockSize) engine.pendingKills
      (slots.map Prod.snd), Originates engine blockSize voice.grain := by
  apply roused_forall
  · intro voice old
    rcases List.mem_map.mp old with ⟨before, beforeMember, rfl⟩
    exact Or.inl ⟨_, sound.represents.values.mem_iff.mpr (List.mem_map_of_mem
      (f := fun slot : Nat × Voice R => slot.2.grain) beforeMember), rfl, rfl⟩
  · exact fun params fired => Or.inr ⟨rfl, sound.accounted.incoming_lt fired⟩
  · intro grain fadeDur origin
    have constants := congrArg FofConstants.params (grain.triggerFadeOut_constants fadeDur)
    have sample : (grain.triggerFadeOut fadeDur).t = grain.t := by
      unfold FofState.triggerFadeOut
      split <;> rfl
    unfold Originates
    rw [constants, sample]
    exact origin

theorem Sound.ready_originates (sound : Sound engine slots) (choice : KeyChoice)
    (blockSize : Nat) :
    ∃ ready, engine.ready choice blockSize = some ready ∧
      ready.sampleClock = engine.sampleClock ∧
      ∀ grain ∈ ready.active.values, Originates engine blockSize grain := by
  rcases sound.block choice blockSize with
    ⟨ready, next, prepared, frame, represents, _, voices, _⟩
  refine ⟨ready, prepared, frame.sampleClock, fun grain member => ?_⟩
  rcases List.mem_map.mp (represents.values.mem_iff.mp member) with ⟨slot, slotMember, rfl⟩
  apply sound.originates blockSize slot.2
  rw [← voices]
  exact List.mem_map_of_mem slotMember

/-- A block that starts behind all onsets ends behind all onsets. -/
theorem Reached.block (reached : Reached engine) (sound : Sound engine slots) {choice : KeyChoice}
    {blockSize : Nat} {outputs rendered : List (List R)} {next : RfofsEngine R}
    (processed : engine.processBlock choice outputs blockSize = some (next, rendered)) :
    Reached next := by
  rcases sound.block choice blockSize with
    ⟨ready, roused, _, frame, _, _, voices, finished⟩
  rcases finished outputs with ⟨same, done⟩
  rw [same] at processed
  cases processed
  intro grain member
  change _ ≤ ready.sampleClock + blockSize
  rw [frame.sampleClock]
  rcases List.mem_map.mp (done.represents.values.mem_iff.mp member) with ⟨slot, slotMember, rfl⟩
  rcases mem_sweptSlots slotMember with ⟨filled, filledMember, _, grain⟩
  rcases mem_eachVoice.mp filledMember with ⟨voice, voiceMember, rfl⟩
  have params := congrArg FofConstants.params
    (voice.grain.fillBlock_constants engine.sampleClock (List.replicate blockSize 0))
  rw [grain]
  change (voice.grain.fillBlock _ _).1.params.startSample ≤ _
  rw [params]
  have listed : voice ∈ roused.map Prod.snd := List.mem_map_of_mem voiceMember
  rw [voices] at listed
  rcases sound.originates blockSize voice listed with ⟨old, oldMember, same, _⟩ | ⟨_, inside⟩
  · rw [same]
    exact (reached old oldMember).trans (Nat.le_add_right _ _)
  · exact inside.le

end Blocks

/-- In every run, whatever the clock is set to: a block that does not start before the
onset of an active grain meets the assertion on every grain that is alive, and renders
without a gap every grain that has begun.  A grain whose onset lies ahead of the block
counts fewer samples than the block has. -/
theorem resync_gapless (sampleRate : R) (panMode : PanMode)
    (specs : List (Nat × Geometry × Bool)) (killCapacity : Nat) (calls : List (EngineCall R)) :
    ∃ engine, (RfofsEngine.new sampleRate panMode (freshWheels specs)
        (killQueue killCapacity)).run calls = some engine ∧
      ∀ choice blockSize, 1 ≤ blockSize → ∃ ready, engine.ready choice blockSize = some ready ∧
        ready.sampleClock = engine.sampleClock ∧
        (Reached engine → ∀ grain ∈ ready.active.values, grain.phase ≠ .dead →
          OffsetInside grain ready.sampleClock blockSize ∧
            (0 < grain.t → Gapless grain ready.sampleClock blockSize)) ∧
        ∀ grain ∈ ready.active.values, grain.phase ≠ .dead →
          ready.sampleClock < grain.params.startSample → ∀ buf, buf.length = blockSize →
            (grain.fillBlock ready.sampleClock buf).1.t < grain.t + blockSize := by
  rcases (Sound.new sampleRate panMode specs killCapacity).run calls with
    ⟨engine, slots, ran, sound⟩
  refine ⟨engine, ran, fun choice blockSize positive => ?_⟩
  rcases sound.ready_originates choice blockSize with ⟨ready, prepared, clock, origin⟩
  refine ⟨ready, prepared, clock, ?_, fun grain _ alive ahead buf size =>
    counted_lt alive positive ahead size⟩
  intro reached grain member alive
  unfold OffsetInside
  rw [clock]
  rcases origin grain member with ⟨old, oldMember, params, _⟩ | ⟨fresh, inside⟩
  · have begun : grain.params.startSample ≤ engine.sampleClock := params ▸ reached old oldMember
    exact ⟨by omega, fun _ => gapless_of_reached alive begun blockSize⟩
  · exact ⟨by omega, fun started => absurd fresh (Nat.ne_of_gt started)⟩

/-! ## A grain that begins at the fifth sample -/

/-- One wheel of four slots of ten samples. -/
def oneWheel : List (Nat × Geometry × Bool) := [(16, smallGeometry, false)]

/-- A request for a grain without an attack and without a decay. -/
def sustained : FofParams ℝ := ⟨1, 5, 440, 0, 0, 1, 0, 0, 0, 1, 0, 0, 1⟩

/-- An engine whose ring holds the request. -/
noncomputable def sustainedWaits : RfofsEngine ℝ :=
  let engine := RfofsEngine.new 48000 .mono (freshWheels oneWheel) (killQueue 16)
  (engine.submit 0 sustained).getD engine

theorem sustainedWaits_sound : Sound sustainedWaits [] := by
  have fresh := Sound.new (48000 : ℝ) .mono oneWheel 16
  rcases fresh.accounted.submit 0 sustained with ⟨wheels, accounted, same⟩
  unfold sustainedWaits
  dsimp only
  rw [same]
  exact ⟨fresh.represents.frame rfl rfl, accounted⟩

/-- A request without a decay never fades out by itself. -/
theorem sustained_decayEnd : u32Max ≤ (FofState.spawn sustained 48000).decayEnd := by
  have never : ¬ ((0 : ℝ) < 0 ∧ (0 : ℝ) < 0) := fun both => lt_irrefl _ both.1
  change u32Max ≤ max (if (0 : ℝ) < 0 ∧ (0 : ℝ) < 0 then _ else u32Max) _
  rw [if_neg never]
  exact Nat.le_max_left _ _

/-- The first block of the grain.  It begins in the middle of the block. -/
theorem sustained_begins :
    ∃ engine key voice, (RfofsEngine.new (48000 : ℝ) .mono (freshWheels oneWheel)
        (killQueue 16)).run [.submit 0 sustained,
          .block KeyChoice.next [List.replicate 10 0] 10] = some engine ∧
      Sound engine [(key, voice)] ∧ Reached engine ∧ engine.sampleClock = 10 ∧
      engine.wheels = (sustainedWaits.drained 10).wheels ∧
      engine.killRx = (sustainedWaits.drained 10).killRx ∧
      voice.grain.params = sustained ∧ voice.grain.t = 5 ∧ voice.grain.phase ≠ .dead := by
  rcases sustainedWaits_sound.block KeyChoice.next 10 with
    ⟨ready, next, _, frame, _, _, voices, finished⟩
  rcases finished [List.replicate 10 0] with ⟨processed, done⟩
  have before : Reached sustainedWaits := nofun
  have reached := before.block sustainedWaits_sound processed
  change next.map Prod.snd = [Voice.spawn 48000 sustained] at voices
  rcases List.map_eq_singleton_iff.mp voices with ⟨⟨key, voice⟩, rfl, spawned⟩
  have rising : FofState.Rising (FofState.spawn sustained 48000).toFofConstants 5
      (Voice.fill 0 10 voice).grain := by
    change voice = _ at spawned
    rw [spawned]
    have early : 0 + ((List.replicate 10 (0 : ℝ)).length - (5 - 0)) ≤
        (FofState.spawn sustained 48000).decayEnd := by
      rw [List.length_replicate]
      exact (by decide : 0 + (10 - (5 - 0)) ≤ u32Max).trans sustained_decayEnd
    exact (FofState.Rising.spawn sustained (48000 : ℝ)).fillBlock realLaws
      (FofState.Sound.spawn sustained 48000) early
  have params : (Voice.fill 0 10 voice).grain.params = sustained := by
    change voice = _ at spawned
    rw [spawned]
    exact congrArg FofConstants.params ((FofState.spawn sustained 48000).fillBlock_constants 0 _)
  have swept : sweptSlots (eachVoice (Voice.fill sustainedWaits.sampleClock 10) [(key, voice)]) =
      [(key, Voice.fill 0 10 voice)] := by
    apply sweptSlots_alive
    intro slot member
    rw [List.mem_singleton.mp member]
    exact rising.alive
  rw [swept] at done
  refine ⟨_, key, _, ?_, done, reached, ?_, frame.wheels, frame.killRx, params, rising.t,
    rising.alive⟩
  · have submitted : (RfofsEngine.new (48000 : ℝ) .mono (freshWheels oneWheel)
        (killQueue 16)).call (.submit 0 sustained) = some sustainedWaits := rfl
    have blocked : sustainedWaits.call (.block KeyChoice.next [List.replicate 10 0] 10) =
        some (ready.finish 10 [List.replicate 10 0]).1 :=
      congrArg (Option.map Prod.fst) processed
    rw [RfofsEngine.run_cons submitted, RfofsEngine.run_cons blocked]
    rfl
  · change ready.sampleClock + 10 = 10
    rw [frame.sampleClock]
    rfl

/-- A grain that is active before a block in which nothing is fired and nothing killed
is active just before it is rendered. -/
theorem Sound.quiet_ready {engine : RfofsEngine ℝ} {key : Nat} {voice : Voice ℝ}
    (sound : Sound engine [(key, voice)]) (choice : KeyChoice) (blockSize : Nat)
    (incoming : engine.incoming blockSize = []) (kills : engine.pendingKills = []) :
    ∃ ready, engine.ready choice blockSize = some ready ∧
      ready.sampleClock = engine.sampleClock ∧ voice.grain ∈ ready.active.values := by
  rcases sound.block choice blockSize with
    ⟨ready, next, prepared, frame, represents, _, voices, _⟩
  rw [incoming, kills] at voices
  refine ⟨ready, prepared, frame.sampleClock, represents.values.mem_iff.mpr ?_⟩
  change next.map Prod.snd = [voice] at voices
  have grains := congrArg (List.map Voice.grain) voices
  rw [List.map_map] at grains
  change voice.grain ∈ next.map (Voice.grain ∘ Prod.snd)
  rw [grains]
  exact List.mem_singleton_self _

/-- The next block follows at once.  The grain loses no sample. -/
theorem resync_gapless_contiguous :
    ∃ engine ready grain, (RfofsEngine.new (48000 : ℝ) .mono (freshWheels oneWheel)
        (killQueue 16)).run [.submit 0 sustained,
          .block KeyChoice.next [List.replicate 10 0] 10] = some engine ∧
      engine.ready KeyChoice.next 10 = some ready ∧ grain ∈ ready.active.values ∧
      OffsetInside grain ready.sampleClock 10 ∧ Gapless grain ready.sampleClock 10 := by
  rcases resync_gapless (48000 : ℝ) .mono oneWheel 16 [.submit 0 sustained,
    .block KeyChoice.next [List.replicate 10 0] 10] with ⟨engine, ran, settled⟩
  rcases sustained_begins with
    ⟨same, key, voice, sameRan, sound, reached, clock, wheels, killRx, _, begun, alive⟩
  rw [sameRan, Option.some.injEq] at ran
  subst ran
  have incoming : same.incoming 10 = [] := by
    rw [RfofsEngine.incoming, clock, wheels]
    rfl
  have kills : same.pendingKills = [] := by
    rw [RfofsEngine.pendingKills, killRx]
    rfl
  rcases sound.quiet_ready KeyChoice.next 10 incoming kills with ⟨ready, prepared, _, member⟩
  rcases settled KeyChoice.next 10 (by decide) with ⟨sameReady, samePrepared, _, gapless, _⟩
  rw [prepared, Option.some.injEq] at samePrepared
  subst samePrepared
  have rendered := gapless reached voice.grain member alive
  refine ⟨same, ready, voice.grain, sameRan, prepared, member, rendered.1, rendered.2 ?_⟩
  rw [begun]
  decide

/-- The clock is set back before the onset: the assertion fails for a grain that has
begun, and the grain stands still. -/
theorem relocation_pauses_grain :
    ∃ engine ready grain, (RfofsEngine.new (48000 : ℝ) .mono (freshWheels oneWheel)
        (killQueue 16)).run [.submit 0 sustained,
          .block KeyChoice.next [List.replicate 10 0] 10, .clock 0] = some engine ∧
      engine.ready KeyChoice.next 4 = some ready ∧ grain ∈ ready.active.values ∧
      0 < grain.t ∧ grain.phase ≠ .dead ∧ ¬ OffsetInside grain ready.sampleClock 4 ∧
      ¬ ((grain.fillBlock ready.sampleClock (List.replicate 4 0)).1.t = grain.t + 4 ∨
        (grain.fillBlock ready.sampleClock (List.replicate 4 0)).1.phase = .dead) := by
  rcases sustained_begins with
    ⟨engine, key, voice, ran, sound, _, _, wheels, killRx, params, begun, alive⟩
  have moved : Sound (engine.setSampleClock 0) [(key, voice)] :=
    ⟨sound.represents.frame rfl rfl, sound.accounted⟩
  have incoming : (engine.setSampleClock 0).incoming 4 = [] := by
    change (drainWheels 0 4 engine.wheels []).2 = []
    rw [wheels]
    rfl
  have kills : (engine.setSampleClock 0).pendingKills = [] := by
    change (engine.killRx.drainAll []).2 = []
    rw [killRx]
    rfl
  rcases moved.quiet_ready KeyChoice.next 4 incoming kills with ⟨ready, prepared, clock, member⟩
  change ready.sampleClock = 0 at clock
  have onset : voice.grain.params.startSample = 5 := by
    rw [params]
    rfl
  refine ⟨engine.setSampleClock 0, ready, voice.grain, ?_, prepared, member, ?_, alive, ?_, ?_⟩
  · exact RfofsEngine.run_append ran [.clock 0]
  · rw [begun]
    decide
  · rw [OffsetInside, onset, clock]
    decide
  · rw [clock]
    have before : 0 + (List.replicate 4 (0 : ℝ)).length ≤ voice.grain.params.startSample := by
      rw [onset, List.length_replicate]
      decide
    have still := FofState.fillBlock_before alive 0 (List.replicate 4 0) before
    rw [still.1, still.2]
    rintro (counted | dead)
    · omega
    · exact alive dead

end Engine
end Rfofs
