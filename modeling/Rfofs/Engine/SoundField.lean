import Rfofs.Engine.Ensemble
import Rfofs.Engine.ReverbBus
import Rfofs.Grain.Placement
import Rfofs.Queue.Naturality

namespace Rfofs
namespace Engine

open Foundation
open Grain
open Queue

/-!
# The sound field

Where a grain is placed has no influence on admission, on its life, or on the other
grains: the runs of an engine whose grains are placed elsewhere are the same runs but for
the gains.  If the gains in the new places are a linear image of the old ones, then so is
every frame of the output.

Turning all grains about the vertical axis thus turns an ambisonic field, its first-order
reverb bus included, and mirroring them exchanges the channels of a stereo signal.
-/

variable {R : Type*}

/-! ## Placed engines -/

theorem keepsOnsets_params (move : Placement R) : KeepsOnsets move.params := fun _ => rfl

/-- The engine with every grain and every request in its new place.  Keys, ids, clocks and
phases stay. -/
def placed (move : Placement R) (engine : RfofsEngine R) : RfofsEngine R :=
  { engine with
    active := engine.active.mapValues (fun _ => move.grain)
    wheels := engine.wheels.map (mapConsumer move.params) }

theorem placed_activeCount (move : Placement R) (engine : RfofsEngine R) :
    (placed move engine).activeCount = engine.activeCount := by
  unfold RfofsEngine.activeCount
  change (engine.active.mapValues (fun _ => move.grain)).values.length = _
  rw [Slab.mapValues_values, List.length_map]

theorem pushTo_placed (move : Placement R) (index : Nat) (params : FofParams R)
    (wheels : List (TimeWheelConsumer R)) :
    pushTo index (move.params params) (wheels.map (mapConsumer move.params)) =
      (pushTo index params wheels).map (mapConsumer move.params) := by
  unfold pushTo
  rw [List.getElem?_map]
  cases wheels[index]? with
  | none => rfl
  | some wheel =>
      dsimp only [Option.map_some]
      rcases wheel.push_cases params with ⟨rx, pushed, _, _⟩ | ⟨refused, full⟩
      · rw [pushed, mapConsumer_push_ok pushed]
        exact List.map_set.symm
      · rw [refused, mapConsumer_push_error full]

theorem drainWheels_placed (move : Placement R) (blockStart blockSize : Nat)
    (wheels : List (TimeWheelConsumer R)) (incoming : List (FofParams R)) :
    drainWheels blockStart blockSize (wheels.map (mapConsumer move.params))
        (incoming.map move.params) =
      ((drainWheels blockStart blockSize wheels incoming).1.map (mapConsumer move.params),
        (drainWheels blockStart blockSize wheels incoming).2.map move.params) := by
  induction wheels generalizing incoming with
  | nil => rfl
  | cons wheel wheels ih =>
      rw [List.map_cons, drainWheels, mapConsumer_drain (keepsOnsets_params move), ih]
      rfl

/-! ## Frames -/

/-- Sample `j` of every channel.  The channels of one sample form a vector, which is what a
linear map acts on. -/
def frameOf [Zero R] (outputs : List (List R)) (j ch : Nat) : R := (outputs.getD ch []).getD j 0

section Frames

variable [Field R]

/-- There is room for a block of every channel. -/
def Wide (channels blockSize : Nat) (outputs : List (List R)) : Prop :=
  channels ≤ outputs.length ∧ ∀ out ∈ outputs, blockSize ≤ out.length

/-- The shapes are the same, and every frame is the image of the frame before. -/
structure Turned (turn : (Nat → R) →ₗ[R] (Nat → R)) (outputs turned : List (List R)) : Prop where
  shape : turned.map List.length = outputs.map List.length
  frames : ∀ j, frameOf turned j = turn (frameOf outputs j)

theorem frameOf_scatter {mono gains : List R} {outputs : List (List R)}
    (wide : Wide gains.length mono.length outputs) (j : Nat) :
    frameOf (scatter mono gains outputs) j =
      frameOf outputs j + mono.getD j 0 • (fun ch => gains.getD ch 0) := by
  funext ch
  rw [scatter_mapIdx]
  simp only [frameOf, Pi.add_apply, Pi.smul_apply, smul_eq_mul, List.getD_eq_getElem?_getD,
    List.getElem?_mapIdx]
  cases channel : outputs[ch]? with
  | none =>
      have outside : gains[ch]? = none :=
        List.getElem?_eq_none (wide.1.trans (List.getElem?_eq_none_iff.mp channel))
      simp only [outside, Option.map_none, Option.getD_none, List.getElem?_nil, mul_zero, add_zero]
  | some out =>
      simp only [Option.map_some, Option.getD_some, List.getElem?_mapIdx]
      cases sample : out[j]? with
      | none =>
          have inside := wide.2 out (List.mem_of_getElem? channel)
          have outside : mono[j]? = none :=
            List.getElem?_eq_none (inside.trans (List.getElem?_eq_none_iff.mp sample))
          simp only [outside, Option.map_none, Option.getD_none, zero_mul, add_zero]
      | some x => rfl

omit [Field R] in
theorem Wide.of_shape {channels blockSize : Nat} {outputs other : List (List R)}
    (wide : Wide channels blockSize outputs)
    (shape : other.map List.length = outputs.map List.length) :
    Wide channels blockSize other := by
  refine ⟨?_, fun out member => ?_⟩
  · have same := congrArg List.length shape
    rw [List.length_map, List.length_map] at same
    exact wide.1.trans same.symm.le
  · have listed : out.length ∈ outputs.map List.length := shape ▸ List.mem_map_of_mem member
    rcases List.mem_map.mp listed with ⟨old, oldMember, same⟩
    exact same ▸ wide.2 old oldMember

/-- One grain more in both fields.  Here the linearity of the map is used. -/
theorem Turned.scatter {turn : (Nat → R) →ₗ[R] (Nat → R)} {outputs turned : List (List R)}
    (same : Turned turn outputs turned) {mono gains turnedGains : List R}
    (wide : Wide gains.length mono.length outputs) (length : turnedGains.length = gains.length)
    (image : (fun ch => turnedGains.getD ch 0) = turn (fun ch => gains.getD ch 0)) :
    Turned turn (scatter mono gains outputs) (scatter mono turnedGains turned) := by
  refine ⟨?_, fun j => ?_⟩
  · rw [scatter_lengths, scatter_lengths]
    exact same.shape
  · have turnedWide : Wide turnedGains.length mono.length turned := by
      rw [length]
      exact wide.of_shape same.shape
    rw [frameOf_scatter turnedWide, frameOf_scatter wide, same.frames, image, map_add, map_smul]

end Frames

/-! ## Blocks -/

section Blocks

variable [Field R] [LinearOrder R] [FloorRing R] [RealOps R]

/-- The gains of a request on all channels. -/
def gainsOf (panMode : PanMode) (params : FofParams R) (ch : Nat) : R :=
  (panGains params.azm params.elev params.distance panMode
    (List.replicate panMode.channelCount 0)).getD ch 0

/-- The gains in the new places are an image of the old gains.  This is all that has to be
shown of a symmetry. -/
def Turns (move : Placement R) (turn : (Nat → R) →ₗ[R] (Nat → R)) (panMode : PanMode) : Prop :=
  ∀ params, gainsOf panMode (move.params params) = turn (gainsOf panMode params)

variable {move : Placement R} {turn : (Nat → R) →ₗ[R] (Nat → R)}

theorem spawn_placed (choice : KeyChoice) (engine : RfofsEngine R) (params : FofParams R) :
    (placed move engine).spawn choice (move.params params) =
      placed move (engine.spawn choice params) := by
  unfold RfofsEngine.spawn placed
  simp only [Slab.mapValues_keys, move.spawn_params, Slab.mapValues_insert]
  rfl

theorem spawn_foldl_placed (choice : KeyChoice) (engine : RfofsEngine R)
    (requests : List (FofParams R)) :
    (requests.map move.params).foldl (RfofsEngine.spawn choice) (placed move engine) =
      placed move (requests.foldl (RfofsEngine.spawn choice) engine) := by
  induction requests generalizing engine with
  | nil => rfl
  | cons params requests ih =>
      rw [List.map_cons, List.foldl_cons, List.foldl_cons, spawn_placed]
      exact ih _

theorem kill_placed (engine : RfofsEngine R) (req : FofKillRequest R) :
    (placed move engine).kill req = (engine.kill req).map (placed move) := by
  have idMap : (placed move engine).idMap = engine.idMap := rfl
  have keys : (placed move engine).active.keys = engine.active.keys := Slab.mapValues_keys _ _
  have faded : (placed move engine).active.modify =
      (engine.active.mapValues (fun _ => move.grain)).modify := rfl
  cases known : engine.idMap req.id with
  | none => simp only [RfofsEngine.kill, idMap, known, Option.map_some]
  | some idx =>
      simp only [RfofsEngine.kill, idMap, known, keys, faded]
      split
      · rw [Slab.mapValues_modify _ (fun grain => move.triggerFadeOut_grain grain req.fadeDur)]
        rfl
      · rfl

theorem kill_foldlM_placed (engine : RfofsEngine R) (requests : List (FofKillRequest R)) :
    requests.foldlM RfofsEngine.kill (placed move engine) =
      (requests.foldlM RfofsEngine.kill engine).map (placed move) := by
  induction requests generalizing engine with
  | nil => rfl
  | cons req requests ih =>
      rw [List.foldlM_cons, List.foldlM_cons, kill_placed]
      cases engine.kill req with
      | none => rfl
      | some killed => exact ih killed

omit [Field R] [LinearOrder R] [FloorRing R] [RealOps R] in
theorem removeDead_placed (engine : RfofsEngine R) :
    (placed move engine).removeDead = placed move engine.removeDead := by
  have phase : ∀ grain : FofState R, (move.grain grain).phase = grain.phase := fun _ => rfl
  unfold RfofsEngine.removeDead placed
  dsimp only
  rw [Slab.mapValues_retain _ (fun grain => by rw [phase]), Slab.mapValues_values, List.filter_map,
    List.map_map]
  rfl

omit [FloorRing R] in
theorem gains_length (engine : RfofsEngine R) (params : FofParams R) :
    (engine.gains params).length = engine.panMode.channelCount := by
  rw [RfofsEngine.gains, panGains, panSample_length, List.length_replicate]

/-- The grains of a block, in both fields.  By induction on the grains. -/
theorem mix_placed (engine : RfofsEngine R) (turns : Turns move turn engine.panMode)
    (blockStart : Nat) {blockSize : Nat} (grains : List (FofState R))
    {outputs turned : List (List R)} (same : Turned turn outputs turned)
    (wide : Wide engine.panMode.channelCount blockSize outputs) :
    Turned turn
      (grains.foldl (fun outputs grain =>
        scatter (grain.fillBlock blockStart (List.replicate blockSize 0)).2
          (engine.gains (grain.fillBlock blockStart (List.replicate blockSize 0)).1.params) outputs)
        outputs)
      ((grains.map move.grain).foldl (fun outputs grain =>
        scatter (grain.fillBlock blockStart (List.replicate blockSize 0)).2
          ((placed move engine).gains
            (grain.fillBlock blockStart (List.replicate blockSize 0)).1.params) outputs)
        turned) := by
  induction grains generalizing outputs turned with
  | nil => exact same
  | cons grain grains ih =>
      rw [List.map_cons, List.foldl_cons, List.foldl_cons, move.fillBlock_grain]
      have short := grain.fillBlock_length blockStart (List.replicate blockSize 0)
      rw [List.length_replicate] at short
      apply ih
      · refine same.scatter ?_ ?_ ?_
        · rw [short, gains_length]
          exact wide
        · rw [gains_length, gains_length]
          rfl
        · exact turns _
      · exact wide.of_shape (scatter_lengths _ _ _)

theorem render_placed (engine : RfofsEngine R) (turns : Turns move turn engine.panMode)
    (blockStart : Nat) {blockSize : Nat} {outputs turned : List (List R)}
    (same : Turned turn outputs turned)
    (wide : Wide engine.panMode.channelCount blockSize outputs) :
    ((placed move engine).render blockStart blockSize turned).1 =
        placed move (engine.render blockStart blockSize outputs).1 ∧
      Turned turn (engine.render blockStart blockSize outputs).2
        ((placed move engine).render blockStart blockSize turned).2 := by
  constructor
  · unfold RfofsEngine.render placed
    dsimp only
    rw [Slab.mapValues_comm move.grain (fun grain => congrArg Prod.fst
      (move.fillBlock_grain grain blockStart (List.replicate blockSize 0)))]
  · have values : (placed move engine).active.values = engine.active.values.map move.grain :=
      Slab.mapValues_values _ _
    change Turned turn _ ((placed move engine).active.values.foldl _ turned)
    rw [values]
    exact mix_placed engine turns blockStart engine.active.values same wide

theorem kill_panMode {engine killed : RfofsEngine R} {requests : List (FofKillRequest R)}
    (done : requests.foldlM RfofsEngine.kill engine = some killed) :
    killed.panMode = engine.panMode := by
  induction requests generalizing engine with
  | nil =>
      cases done
      rfl
  | cons req requests ih =>
      rw [List.foldlM_cons, Option.bind_eq_bind, Option.bind_eq_some_iff] at done
      rcases done with ⟨middle, first, rest⟩
      refine (ih rest).trans ?_
      unfold RfofsEngine.kill at first
      split at first
      · cases first
        rfl
      · split at first <;> cases first
        rfl

theorem spawn_panMode (choice : KeyChoice) (engine : RfofsEngine R)
    (requests : List (FofParams R)) :
    (requests.foldl (RfofsEngine.spawn choice) engine).panMode = engine.panMode := by
  induction requests generalizing engine with
  | nil => rfl
  | cons params requests ih => exact ih _

/-- A block in both fields.  The engine keeps its places in everything but the gains. -/
theorem processBlock_placed {engine : RfofsEngine R} (turns : Turns move turn engine.panMode)
    (choice : KeyChoice) {blockSize : Nat} {outputs turned : List (List R)}
    (same : Turned turn outputs turned) (wide : Wide engine.panMode.channelCount blockSize outputs)
    {done : RfofsEngine R × List (List R)}
    (processed : engine.processBlock choice outputs blockSize = some done) :
    done.1.panMode = engine.panMode ∧
      ∃ heard, (placed move engine).processBlock choice turned blockSize =
        some (placed move done.1, heard) ∧ Turned turn done.2 heard := by
  rcases Option.map_eq_some_iff.mp processed with ⟨killed, applied, rfl⟩
  have mode : killed.panMode = engine.panMode :=
    (kill_panMode applied).trans (spawn_panMode choice _ _)
  rw [← mode] at turns wide
  rcases render_placed killed turns engine.sampleClock same wide with ⟨rendered, heard⟩
  have drained : drainWheels engine.sampleClock blockSize (placed move engine).wheels [] =
      ((drainWheels engine.sampleClock blockSize engine.wheels []).1.map
          (mapConsumer move.params),
        (drainWheels engine.sampleClock blockSize engine.wheels []).2.map move.params) :=
    drainWheels_placed move engine.sampleClock blockSize engine.wheels []
  have prepared : (engine.killRx.drainAll []).2.foldlM RfofsEngine.kill
      (((drainWheels engine.sampleClock blockSize engine.wheels []).2.map move.params).foldl
        (RfofsEngine.spawn choice) (placed move { engine with
          wheels := (drainWheels engine.sampleClock blockSize engine.wheels []).1
          killRx := (engine.killRx.drainAll []).1 })) = some (placed move killed) := by
    rw [spawn_foldl_placed, kill_foldlM_placed]
    exact congrArg (Option.map (placed move)) applied
  refine ⟨mode, _, ?_, heard⟩
  have clock : (placed move engine).sampleClock = engine.sampleClock := rfl
  have killRx : (placed move engine).killRx = engine.killRx := rfl
  unfold RfofsEngine.processBlock
  simp only [clock, killRx, drained]
  refine (congrArg (Option.map _) prepared).trans ?_
  rw [Option.map_some, rendered, removeDead_placed]
  rfl

/-! ## Runs -/

/-- The calls of the other field: the same, with the grains in their new places and the
outputs turned. -/
inductive CallPlaced (move : Placement R) (turn : (Nat → R) →ₗ[R] (Nat → R)) (panMode : PanMode) :
    EngineCall R → EngineCall R → Prop
  | clock (sample : Nat) : CallPlaced move turn panMode (.clock sample) (.clock sample)
  | submit (index : Nat) (params : FofParams R) :
      CallPlaced move turn panMode (.submit index params) (.submit index (move.params params))
  | kill (req : FofKillRequest R) : CallPlaced move turn panMode (.kill req) (.kill req)
  | block (choice : KeyChoice) {blockSize : Nat} {outputs turned : List (List R)}
      (wide : Wide panMode.channelCount blockSize outputs) (same : Turned turn outputs turned) :
      CallPlaced move turn panMode (.block choice outputs blockSize) (.block choice turned blockSize)

/-- What is heard of a block in both fields. -/
structure HeardTurned (turn : (Nat → R) →ₗ[R] (Nat → R)) (heard turned : Heard R) : Prop where
  outputs : Turned turn heard.outputs turned.outputs
  activeCount : turned.activeCount = heard.activeCount

/-- One call in both fields. -/
theorem hear_placed {engine : RfofsEngine R} (turns : Turns move turn engine.panMode)
    {call other : EngineCall R} (same : CallPlaced move turn engine.panMode call other)
    {next : RfofsEngine R} {heard : List (Heard R)} (done : engine.hear call = some (next, heard)) :
    next.panMode = engine.panMode ∧
      ∃ turned, (placed move engine).hear other = some (placed move next, turned) ∧
        List.Forall₂ (HeardTurned turn) heard turned := by
  cases same with
  | clock sample =>
      cases done
      exact ⟨rfl, [], rfl, List.Forall₂.nil⟩
  | submit index params =>
      have pushed := congrArg (fun next => some (next, ([] : List (Heard R))))
        (engine.submit_getD index params)
      cases pushed.symm.trans done
      refine ⟨rfl, [], ?_, List.Forall₂.nil⟩
      refine (congrArg (fun next => some (next, ([] : List (Heard R))))
        ((placed move engine).submit_getD index (move.params params))).trans ?_
      exact congrArg (fun wheels => some ({ placed move engine with wheels := wheels },
        ([] : List (Heard R)))) (pushTo_placed move index params engine.wheels)
  | kill req =>
      have pushed := congrArg (fun next => some (next, ([] : List (Heard R))))
        (engine.submitKill_eq req)
      cases pushed.symm.trans done
      refine ⟨rfl, [], ?_, List.Forall₂.nil⟩
      exact congrArg (fun next => some (next, ([] : List (Heard R))))
        ((placed move engine).submitKill_eq req)
  | block choice wide same =>
      rcases Option.map_eq_some_iff.mp done with ⟨processed, found, equal⟩
      cases equal
      rcases processBlock_placed turns choice same wide found with ⟨mode, outputs, other, turned⟩
      refine ⟨mode, [⟨outputs, processed.1.activeCount⟩], ?_,
        List.Forall₂.cons ⟨turned, rfl⟩ List.Forall₂.nil⟩
      refine (congrArg (Option.map _) other).trans ?_
      rw [Option.map_some, placed_activeCount]

/-- A run in both fields.  By induction on the calls; the pan mode never changes. -/
theorem play_placed {engine : RfofsEngine R} (turns : Turns move turn engine.panMode)
    {calls others : List (EngineCall R)}
    (same : List.Forall₂ (CallPlaced move turn engine.panMode) calls others)
    {final : RfofsEngine R} {heard : List (Heard R)} (done : engine.play calls = some (final, heard)) :
    ∃ turned, (placed move engine).play others = some (placed move final, turned) ∧
      List.Forall₂ (HeardTurned turn) heard turned := by
  induction calls generalizing engine others heard with
  | nil =>
      cases same
      cases done
      exact ⟨[], rfl, List.Forall₂.nil⟩
  | cons call calls ih =>
      cases same with
      | cons first rest =>
          rcases Option.bind_eq_some_iff.mp done with ⟨⟨next, early⟩, called, played⟩
          rcases Option.map_eq_some_iff.mp played with ⟨⟨last, late⟩, later, equal⟩
          cases equal
          rcases hear_placed turns first called with ⟨mode, turnedEarly, otherCalled, earlySame⟩
          dsimp only at mode otherCalled later
          rw [← mode] at turns rest
          rcases ih turns rest later with ⟨turnedLate, otherPlayed, lateSame⟩
          refine ⟨turnedEarly ++ turnedLate, ?_, List.rel_append earlySame lateSame⟩
          rw [RfofsEngine.play, otherCalled, Option.bind_some, otherPlayed]
          rfl

end Blocks

end Engine
end Rfofs
