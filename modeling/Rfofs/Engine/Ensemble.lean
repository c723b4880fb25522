import Rfofs.Engine.Superposition
import Rfofs.Engine.Tone

namespace Rfofs
namespace Engine

open Foundation
open Grain
open Queue

/-!
# The ensemble

What the engine is for, without the pool: a list of tones in the order of their
onsets in the engine, behind the same queues and the same clock.  A block adds to
every frame of every channel the sum of the tones, each times its gain.  There are no
keys, no map of ids, no grain states and no scratch buffers.

`Plays` says that an engine has a roster whose voices are the tones of an ensemble.
Every call preserves it, and a block of the engine is heard as a block of the ensemble.
So whole runs are, with any clocks, kills and sizes of blocks, as long as every
fade-out that begins ends within the range of the sample counter.
-/

variable {R : Type*}

/-- The engine as a listener would describe it: the tones that sound, and the queues.  There
is no pool, no map and no phase. -/
structure Ensemble (R : Type*) where
  sampleRate : R
  panMode : PanMode
  tones : List (Tone R)
  sampleClock : Nat
  wheels : List (TimeWheelConsumer R)
  killRx : KillQueueConsumer R

/-- What is heard of a block: its outputs, and how many grains are active after it.  The pool,
the map and the phases of the grains are not heard. -/
structure Heard (R : Type*) where
  outputs : List (List R)
  activeCount : Nat

/-- Push to one of the wheels; a refused request is dropped.  Other wheels are not touched. -/
def pushTo (index : Nat) (params : FofParams R) (wheels : List (TimeWheelConsumer R)) :
    List (TimeWheelConsumer R) :=
  match wheels[index]? with
  | some wheel =>
      match wheel.push params with
      | .ok next => wheels.set index next
      | .error _ => wheels
  | none => wheels

/-- Push to the kill queue; a refused request is dropped. -/
def pushKill (req : FofKillRequest R) (killRx : KillQueueConsumer R) : KillQueueConsumer R :=
  match killRx.push req with
  | .ok next => next
  | .error _ => killRx

theorem RfofsEngine.submit_getD (engine : RfofsEngine R) (index : Nat) (params : FofParams R) :
    (engine.submit index params).getD engine =
      { engine with wheels := pushTo index params engine.wheels } := by
  unfold submit pushTo
  cases engine.wheels[index]? with
  | none => rfl
  | some wheel =>
      rw [Option.bind_some]
      dsimp only
      cases wheel.push params <;> rfl

theorem RfofsEngine.submitKill_eq (engine : RfofsEngine R) (req : FofKillRequest R) :
    (engine.submitKill req).getD engine =
      { engine with killRx := pushKill req engine.killRx } := by
  unfold submitKill pushKill
  cases engine.killRx.push req <;> rfl

section Outputs

theorem mapIdx_untouched {X : Type*} (list : List X) : list.mapIdx (fun _ y => y) = list := by
  rw [List.mapIdx_eq_zipIdx_map, List.zipIdx_map_fst]

variable [CommRing R]

theorem addScaled_mapIdx (gain : R) (out mono : List R) :
    addScaled gain out mono = out.mapIdx (fun j x => x + mono.getD j 0 * gain) := by
  induction out generalizing mono with
  | nil => cases mono <;> rfl
  | cons x out ih =>
      cases mono with
      | nil =>
          have silent : ∀ j, ([] : List R).getD j 0 = 0 := fun _ => rfl
          simp only [silent, zero_mul, add_zero, mapIdx_untouched]
          rfl
      | cons m mono =>
          rw [addScaled, ih, List.mapIdx_cons]
          rfl

/-- Scattering adds to every frame of every channel.  The sum is written with explicit
indices, so that it can be compared with a formula. -/
theorem scatter_mapIdx (mono gains : List R) (outputs : List (List R)) :
    scatter mono gains outputs = outputs.mapIdx (fun ch out =>
      out.mapIdx (fun j x => x + mono.getD j 0 * gains.getD ch 0)) := by
  induction outputs generalizing gains with
  | nil => cases gains <;> rfl
  | cons out outputs ih =>
      cases gains with
      | nil =>
          have silent : ∀ ch, ([] : List R).getD ch 0 = 0 := fun _ => rfl
          simp only [silent, mul_zero, add_zero, mapIdx_untouched]
          rfl
      | cons gain gains =>
          rw [scatter, ih, addScaled_mapIdx, List.mapIdx_cons]
          rfl

end Outputs

/-! ## The abstract machine -/

section Machine

variable [Field R] [LinearOrder R] [FloorRing R] [RealOps R]

/-- A new tone takes over the mark of its id.  Older tones with this id sound on, but no kill
reaches them. -/
def join (tones : List (Tone R)) (params : FofParams R) : List (Tone R) :=
  tones.map (Tone.unmark [params.id]) ++ [Tone.start params]

/-- The ids of the tones that have ended.  In the program they leave the map together with
their grains. -/
def endedIds (sampleRate : R) (tones : List (Tone R)) : List Nat :=
  (tones.filter (fun tone => tone.ended sampleRate)).map (fun tone => tone.params.id)

/-- Drop the tones that have ended and the marks of their ids.  The mark of a younger tone
with the same id is dropped as well, as in the program. -/
def dismiss (sampleRate : R) (tones : List (Tone R)) : List (Tone R) :=
  (tones.filter (fun tone => !tone.ended sampleRate)).map (Tone.unmark (endedIds sampleRate tones))

/-- The gain of a tone on a channel; channels beyond those of the mode have none. -/
def Tone.gain (panMode : PanMode) (tone : Tone R) (ch : Nat) : R :=
  (panGains tone.params.azm tone.params.elev tone.params.distance panMode
    (List.replicate panMode.channelCount 0)).getD ch 0

namespace Ensemble

def new (sampleRate : R) (panMode : PanMode) (wheels : List (TimeWheelConsumer R))
    (killRx : KillQueueConsumer R) : Ensemble R :=
  ⟨sampleRate, panMode, [], 0, wheels, killRx⟩

/-- The tones of a block: those that are there, those that the wheels fire, and then the
kills. -/
def awake (ensemble : Ensemble R) (blockSize : Nat) : List (Tone R) :=
  (ensemble.killRx.drainAll []).2.foldl
    (fun tones req => tones.map (Tone.kill ensemble.sampleRate req))
    ((drainWheels ensemble.sampleClock blockSize ensemble.wheels []).2.foldl join ensemble.tones)

/-- The tones behind a block, with those that have ended in it.  They have grown older by one
block. -/
def grown (ensemble : Ensemble R) (blockSize : Nat) : List (Tone R) :=
  (ensemble.awake blockSize).map (Tone.grow ensemble.sampleClock blockSize)

/-- What the tones of a block add to one of its frames on a channel.  The sum runs over the
tones, and each sample is the closed form of its tone. -/
def mix (ensemble : Ensemble R) (blockSize ch j : Nat) : R :=
  ((ensemble.awake blockSize).map (fun tone =>
    tone.sample ensemble.sampleRate ensemble.sampleClock j *
      tone.gain ensemble.panMode ch)).sum

/-- A block: the ensemble after it, and what is heard.  What was in the outputs before is
added to. -/
def block (ensemble : Ensemble R) (outputs : List (List R)) (blockSize : Nat) :
    Ensemble R × Heard R :=
  let left := dismiss ensemble.sampleRate (ensemble.grown blockSize)
  ({ ensemble with
      tones := left
      sampleClock := ensemble.sampleClock + blockSize
      wheels := (drainWheels ensemble.sampleClock blockSize ensemble.wheels []).1
      killRx := (ensemble.killRx.drainAll []).1 },
    { outputs := outputs.mapIdx (fun ch out => out.mapIdx (fun j x =>
        if j < blockSize then x + ensemble.mix blockSize ch j else x))
      activeCount := left.length })

def call (ensemble : Ensemble R) : EngineCall R → Ensemble R × List (Heard R)
  | .clock sample => ({ ensemble with sampleClock := sample }, [])
  | .submit index params =>
      ({ ensemble with wheels := pushTo index params ensemble.wheels }, [])
  | .kill req => ({ ensemble with killRx := pushKill req ensemble.killRx }, [])
  | .block _ outputs blockSize =>
      let done := ensemble.block outputs blockSize
      (done.1, [done.2])

def play (ensemble : Ensemble R) : List (EngineCall R) → Ensemble R × List (Heard R)
  | [] => (ensemble, [])
  | call :: calls =>
      let first := ensemble.call call
      let rest := first.1.play calls
      (rest.1, first.2 ++ rest.2)

/-- The fade-outs that have begun by the end of a block end within the range of the
sample counter. -/
def BlockFits (ensemble : Ensemble R) : EngineCall R → Prop
  | .block _ _ blockSize => ∀ tone ∈ ensemble.grown blockSize, tone.Fits ensemble.sampleRate
  | _ => True

/-- They do so in every block of a run.  The tones of a block depend on the calls before it,
so the condition follows the run. -/
def Fits (ensemble : Ensemble R) : List (EngineCall R) → Prop
  | [] => True
  | call :: calls => ensemble.BlockFits call ∧ (ensemble.call call).1.Fits calls

end Ensemble

end Machine

/-! ## Voices and tones -/

section Singing

variable [Field R] [LinearOrder R] [FloorRing R] [RealOps R] {sampleRate : R}

/-- The voice of a tone.  Nothing is said about the grain once a fade-out does not fit, except
that its mark and its parameters are those of the tone. -/
structure Sings (sampleRate : R) (voice : Voice R) (tone : Tone R) : Prop where
  marked : voice.marked = tone.marked
  params : voice.grain.params = tone.params
  stage : tone.Fits sampleRate → tone.Stage sampleRate voice.grain

namespace Sings

variable {voice : Voice R} {tone : Tone R}

theorem id (sings : Sings sampleRate voice tone) : voice.id = tone.params.id :=
  congrArg FofParams.id sings.params

theorem spawn (sampleRate : R) (params : FofParams R) :
    Sings sampleRate (Voice.spawn sampleRate params) (Tone.start params) :=
  ⟨rfl, rfl, fun _ => Tone.Stage.start sampleRate params⟩

theorem unmark (sings : Sings sampleRate voice tone) (ids : List Nat) :
    Sings sampleRate (voice.unmark ids) (tone.unmark ids) where
  marked := by
    unfold Voice.unmark Tone.unmark
    rw [sings.id]
    split
    · rfl
    · exact sings.marked
  params := by
    rw [voice.unmark_grain, tone.unmark_params]
    exact sings.params
  stage := by
    intro fits
    rw [voice.unmark_grain]
    exact (sings.stage ((Tone.fits_unmark ids tone).mp fits)).unmark ids

theorem kill (sings : Sings sampleRate voice tone) (req : FofKillRequest R) :
    Sings sampleRate (voice.kill req) (tone.kill sampleRate req) where
  marked := by
    rw [voice.kill_marked, sings.marked]
    unfold Tone.kill
    split <;> rfl
  params := by
    have same : (tone.kill sampleRate req).params = tone.params := by
      unfold Tone.kill
      split <;> rfl
    rw [same, ← sings.params]
    unfold Voice.kill
    split
    · exact congrArg FofConstants.params (voice.grain.triggerFadeOut_constants req.fadeDur)
    · rfl
  stage := by
    intro fits
    have stage := sings.stage fits.of_kill
    unfold Voice.kill
    rw [sings.marked, sings.id]
    by_cases heard : tone.marked = true ∧ tone.params.id = req.id
    · rw [if_pos heard]
      exact stage.trigger heard fits
    · rw [if_neg heard, Tone.kill, if_neg (fun both => heard both.1)]
      exact stage

variable [IsStrictOrderedRing R]

theorem fill (laws : ExpLaws R) (sings : Sings sampleRate voice tone) (blockStart blockSize : Nat) :
    Sings sampleRate (voice.fill blockStart blockSize) (tone.grow blockStart blockSize) where
  marked := sings.marked
  params := by
    refine Eq.trans ?_ sings.params
    exact congrArg FofConstants.params (voice.grain.fillBlock_constants blockStart _)
  stage := fun fits => ((sings.stage fits.of_older).fill laws fits).1

omit [IsStrictOrderedRing R] in
theorem dead_iff (sings : Sings sampleRate voice tone) (fits : tone.Fits sampleRate) :
    voice.grain.phase = .dead ↔ tone.ended sampleRate = true :=
  (sings.stage fits).dead_iff

end Sings

/-- The voices of a roster, and the tones that they sing.  Both lists stand in the order of
spawning. -/
def Choral (sampleRate : R) (voices : List (Voice R)) (tones : List (Tone R)) : Prop :=
  List.Forall₂ (Sings sampleRate) voices tones

namespace Choral

variable {voices : List (Voice R)} {tones : List (Tone R)}

theorem map (choral : Choral sampleRate voices tones) {f : Voice R → Voice R}
    {g : Tone R → Tone R} (each : ∀ ⦃voice tone⦄, Sings sampleRate voice tone →
      Sings sampleRate (f voice) (g tone)) :
    Choral sampleRate (voices.map f) (tones.map g) :=
  List.rel_map each choral

theorem enlist (choral : Choral sampleRate voices tones) (params : FofParams R) :
    Choral sampleRate (enlist sampleRate voices params) (join tones params) :=
  List.rel_append (choral.map (fun _ _ sings => sings.unmark [params.id]))
    (List.Forall₂.cons (Sings.spawn sampleRate params) List.Forall₂.nil)

/-- Where every fade-out fits, the dead voices are those of the tones that have ended.  The
two lists stay in step. -/
theorem sweep (choral : Choral sampleRate voices tones)
    (fits : ∀ tone ∈ tones, tone.Fits sampleRate) :
    Choral sampleRate (sweep voices) (dismiss sampleRate tones) := by
  have fitting : List.Forall₂ (fun voice tone =>
      Sings sampleRate voice tone ∧ tone.Fits sampleRate) voices tones := by
    induction choral with
    | nil => exact List.Forall₂.nil
    | cons sings _ ih =>
        exact List.Forall₂.cons ⟨sings, fits _ List.mem_cons_self⟩
          (ih (fun tone member => fits tone (List.mem_cons_of_mem _ member)))
  have dead : deadIds voices = endedIds sampleRate tones := by
    have gone := List.rel_filter (p := fun voice : Voice R => decide (voice.grain.phase = .dead))
      (q := fun tone : Tone R => tone.ended sampleRate)
      (fun voice tone both => decide_eq_true_iff.trans (both.1.dead_iff both.2)) fitting
    have ids : List.Forall₂ Eq (deadIds voices) (endedIds sampleRate tones) :=
      List.rel_map (fun voice tone both => both.1.id) gone
    exact (congrFun (congrFun List.forall₂_eq_eq_eq _) _).mp ids
  have alive := List.rel_filter (p := fun voice : Voice R => decide (voice.grain.phase ≠ .dead))
    (q := fun tone : Tone R => !tone.ended sampleRate)
    (fun voice tone both => by
      have same := both.1.dead_iff both.2
      simp only [decide_eq_true_eq, Bool.not_eq_true', Ne, same, Bool.not_eq_true]) fitting
  rw [Engine.sweep, dismiss, dead]
  exact List.rel_map (fun voice tone both => both.1.unmark _) alive

theorem roused (choral : Choral sampleRate voices tones) (incoming : List (FofParams R))
    (kills : List (FofKillRequest R)) :
    Choral sampleRate (roused sampleRate incoming kills voices)
      (kills.foldl (fun tones req => tones.map (Tone.kill sampleRate req))
        (incoming.foldl join tones)) := by
  have enlisted : Choral sampleRate (incoming.foldl (Engine.enlist sampleRate) voices)
      (incoming.foldl join tones) := by
    induction incoming generalizing voices tones with
    | nil => exact choral
    | cons params incoming ih => exact ih (choral.enlist params)
  unfold Engine.roused
  generalize incoming.foldl (Engine.enlist sampleRate) voices = voices at enlisted ⊢
  generalize incoming.foldl join tones = tones at enlisted ⊢
  induction kills generalizing voices tones with
  | nil => exact enlisted
  | cons req kills ih => exact ih _ _ (enlisted.map (fun _ _ sings => sings.kill req))

variable [IsStrictOrderedRing R]

/-- The voices mix what the tones add up to. -/
theorem mix (laws : ExpLaws R) (panMode : PanMode) (choral : Choral sampleRate voices tones)
    {blockStart blockSize : Nat}
    (fits : ∀ tone ∈ tones, (tone.grow blockStart blockSize).Fits sampleRate)
    (outputs : List (List R)) :
    (voices.map Voice.grain).foldl (mixGrain panMode blockStart blockSize) outputs =
      outputs.mapIdx (fun ch out => out.mapIdx (fun j x => if j < blockSize then
        x + (tones.map (fun tone =>
          tone.sample sampleRate blockStart j * tone.gain panMode ch)).sum else x)) := by
  induction choral generalizing outputs with
  | nil =>
      simp only [List.map_nil, List.foldl_nil, List.sum_nil, add_zero, ite_self, mapIdx_untouched]
  | @cons voice tone voices tones sings _ ih =>
      have head := fits tone List.mem_cons_self
      have filled := (sings.stage head.of_older).fill laws head
      have params : (voice.grain.fillBlock blockStart (List.replicate blockSize 0)).1.params =
          tone.params := filled.1.params
      have short : (voice.grain.fillBlock blockStart
          (List.replicate blockSize 0)).2.length = blockSize := by
        rw [FofState.fillBlock_eq laws (sings.stage head.of_older).sound, List.length_mapIdx,
          List.length_replicate]
      rw [List.map_cons, List.foldl_cons,
        ih (fun later member => fits later (List.mem_cons_of_mem _ member)), mixGrain,
        scatter_mapIdx, List.mapIdx_mapIdx]
      congr 1
      funext ch out
      rw [Function.comp_apply, List.mapIdx_mapIdx]
      congr 1
      funext j x
      rw [Function.comp_apply]
      by_cases inside : j < blockSize
      · rw [if_pos inside, if_pos inside, filled.2 j inside, List.map_cons, List.sum_cons, params,
          ← add_assoc]
        rfl
      · rw [if_neg inside, if_neg inside, List.getD_eq_default _ _ (by omega), zero_mul, add_zero]

end Choral

end Singing

/-! ## Engines and ensembles -/

section Playing

variable [Field R] [LinearOrder R] [FloorRing R] [RealOps R]

/-- An engine that plays an ensemble.  The queues and the clock are equal, and the pool
represents a roster that sings the tones. -/
structure Plays (engine : RfofsEngine R) (ensemble : Ensemble R) : Prop where
  sampleRate : engine.sampleRate = ensemble.sampleRate
  panMode : engine.panMode = ensemble.panMode
  sampleClock : engine.sampleClock = ensemble.sampleClock
  wheels : engine.wheels = ensemble.wheels
  killRx : engine.killRx = ensemble.killRx
  roster : ∃ slots, Sound engine slots ∧
    Choral ensemble.sampleRate (slots.map Prod.snd) ensemble.tones

/-- A call, and what is heard of it.  Only blocks are heard. -/
def RfofsEngine.hear (engine : RfofsEngine R) :
    EngineCall R → Option (RfofsEngine R × List (Heard R))
  | .block choice outputs blockSize =>
      (engine.processBlock choice outputs blockSize).map (fun done =>
        (done.1, [⟨done.2, done.1.activeCount⟩]))
  | call => (engine.call call).map (fun next => (next, []))

/-- All calls in turn, and all that is heard. -/
def RfofsEngine.play (engine : RfofsEngine R) :
    List (EngineCall R) → Option (RfofsEngine R × List (Heard R))
  | [] => some (engine, [])
  | call :: calls => (engine.hear call).bind (fun first =>
      (first.1.play calls).map (fun rest => (rest.1, first.2 ++ rest.2)))

namespace Plays

variable {engine : RfofsEngine R} {ensemble : Ensemble R}

theorem new (sampleRate : R) (panMode : PanMode) (specs : List (Nat × Geometry × Bool))
    (killCapacity : Nat) :
    Plays (RfofsEngine.new sampleRate panMode (freshWheels specs) (killQueue killCapacity))
      (Ensemble.new sampleRate panMode (freshWheels specs) (killQueue killCapacity)) :=
  ⟨rfl, rfl, rfl, rfl, rfl, [], Sound.new sampleRate panMode specs killCapacity,
    List.Forall₂.nil⟩

variable [IsStrictOrderedRing R]

/-- A block of the engine is heard as a block of the ensemble.  The roster carries the proof:
its pool is fixed up to the choice of keys, and mixing forgets the keys. -/
theorem block (laws : ExpLaws R) (plays : Plays engine ensemble) (choice : KeyChoice)
    (outputs : List (List R)) (blockSize : Nat)
    (fits : ∀ tone ∈ ensemble.grown blockSize, tone.Fits ensemble.sampleRate) :
    ∃ next, engine.hear (.block choice outputs blockSize) =
        some (next, [(ensemble.block outputs blockSize).2]) ∧
      Plays next (ensemble.block outputs blockSize).1 := by
  rcases plays.roster with ⟨slots, sound, choral⟩
  rcases sound.block choice blockSize with
    ⟨ready, next, _, frame, represents, _, voices, finished⟩
  rcases finished outputs with ⟨processed, done⟩
  have clock : ready.sampleClock = ensemble.sampleClock :=
    frame.sampleClock.trans plays.sampleClock
  have mode : ready.panMode = ensemble.panMode := frame.panMode.trans plays.panMode
  have incoming : engine.incoming blockSize =
      (drainWheels ensemble.sampleClock blockSize ensemble.wheels []).2 := by
    rw [RfofsEngine.incoming, plays.sampleClock, plays.wheels]
  have kills : engine.pendingKills = (ensemble.killRx.drainAll []).2 := by
    rw [RfofsEngine.pendingKills, plays.killRx]
  have awake : Choral ensemble.sampleRate (next.map Prod.snd) (ensemble.awake blockSize) := by
    rw [voices, incoming, kills, plays.sampleRate]
    exact choral.roused _ _
  have fitting : ∀ tone ∈ ensemble.awake blockSize,
      (tone.grow ensemble.sampleClock blockSize).Fits ensemble.sampleRate :=
    fun tone member => fits _ (List.mem_map_of_mem member)
  have left : Choral ensemble.sampleRate ((sweptSlots (eachVoice
      (Voice.fill engine.sampleClock blockSize) next)).map Prod.snd)
      (dismiss ensemble.sampleRate (ensemble.grown blockSize)) := by
    rw [sweptSlots_voices, eachVoice_voices, plays.sampleClock]
    exact (awake.map (fun _ _ sings => sings.fill laws _ _)).sweep fits
  refine ⟨(ready.finish blockSize outputs).1, ?_, ?_⟩
  · have count : (ready.finish blockSize outputs).1.activeCount =
        (dismiss ensemble.sampleRate (ensemble.grown blockSize)).length := by
      rw [done.represents.activeCount, ← left.length_eq, List.length_map]
    rw [RfofsEngine.hear, processed, Option.map_some, count, represents.finish_outputs, mode,
      clock, awake.mix laws _ fitting]
    rfl
  · refine ⟨frame.sampleRate.trans plays.sampleRate, mode, ?_, ?_, ?_, _, done, left⟩
    · exact congrArg (· + blockSize) clock
    · refine frame.wheels.trans ?_
      rw [RfofsEngine.drained, plays.sampleClock, plays.wheels]
      rfl
    · refine frame.killRx.trans ?_
      rw [RfofsEngine.drained, plays.killRx]
      rfl

/-- A call of the engine is heard as the call of the ensemble. -/
theorem call (laws : ExpLaws R) (plays : Plays engine ensemble) (call : EngineCall R)
    (fits : ensemble.BlockFits call) :
    ∃ next, engine.hear call = some (next, (ensemble.call call).2) ∧
      Plays next (ensemble.call call).1 := by
  rcases plays.roster with ⟨slots, sound, choral⟩
  cases call with
  | clock sample =>
      refine ⟨_, rfl, plays.sampleRate, plays.panMode, rfl, plays.wheels, plays.killRx, slots, ?_,
        choral⟩
      exact ⟨sound.represents.frame rfl rfl, sound.accounted⟩
  | submit index params =>
      rcases sound.accounted.submit index params with ⟨wheels, accounted, same⟩
      have pushed := engine.submit_getD index params
      have equal : pushTo index params engine.wheels = wheels :=
        congrArg RfofsEngine.wheels (pushed.symm.trans same)
      refine ⟨{ engine with wheels := pushTo index params engine.wheels },
        congrArg (fun next => some (next, [])) pushed, plays.sampleRate, plays.panMode,
        plays.sampleClock, ?_, plays.killRx, slots, ?_, choral⟩
      · exact congrArg (pushTo index params) plays.wheels
      · exact ⟨sound.represents.frame rfl rfl, equal ▸ accounted⟩
  | kill req =>
      refine ⟨{ engine with killRx := pushKill req engine.killRx },
        congrArg (fun next => some (next, [])) (engine.submitKill_eq req), plays.sampleRate,
        plays.panMode, plays.sampleClock, plays.wheels, ?_, slots, ?_, choral⟩
      · exact congrArg (pushKill req) plays.killRx
      · exact ⟨sound.represents.frame rfl rfl, sound.accounted⟩
  | block choice outputs blockSize => exact plays.block laws choice outputs blockSize fits

/-- Every call in turn.  The condition on the fade-outs is asked for each block as it comes. -/
theorem play (laws : ExpLaws R) (plays : Plays engine ensemble) {calls : List (EngineCall R)}
    (fits : ensemble.Fits calls) :
    ∃ final, engine.play calls = some (final, (ensemble.play calls).2) ∧
      Plays final (ensemble.play calls).1 := by
  induction calls generalizing engine ensemble with
  | nil => exact ⟨engine, rfl, plays⟩
  | cons call calls ih =>
      rcases plays.call laws call fits.1 with ⟨next, heard, nextPlays⟩
      rcases ih nextPlays fits.2 with ⟨final, later, finalPlays⟩
      refine ⟨final, ?_, finalPlays⟩
      rw [RfofsEngine.play, heard, Option.bind_some, later, Option.map_some]
      rfl

end Plays

end Playing

end Engine
end Rfofs
