import Rfofs.Engine.Pan
import Rfofs.Foundation.Slab
import Rfofs.Queue.TimeWheel

namespace Rfofs
namespace Engine

open Foundation
open Grain
open Queue

/-!
# The engine

The audio thread owns the engine.  A block drains the wheels and the kill queue,
spawns what was fired, applies the kills, renders every active grain, removes the
dead ones and advances the clock.

The buffers that are cleared before each use are local values here.  The pool picks
its keys by an arbitrary `KeyChoice`.  A kill of a grain whose id maps to a key that
is not in the pool panics, which is `none`; `Tracked` says that this never happens.
-/

variable {R : Type*}

/-- The engine owns the consumers of its wheels, the kill queue, the pool of active grains and
the map from ids to keys of the pool. -/
structure RfofsEngine (R : Type*) where
  sampleRate : R
  panMode : PanMode
  active : Slab (FofState R)
  idMap : Nat → Option Nat
  sampleClock : Nat
  wheels : List (TimeWheelConsumer R)
  killRx : KillQueueConsumer R

namespace RfofsEngine

def new (sampleRate : R) (panMode : PanMode) (wheels : List (TimeWheelConsumer R))
    (killRx : KillQueueConsumer R) : RfofsEngine R where
  sampleRate := sampleRate
  panMode := panMode
  active := Slab.empty
  idMap := fun _ => none
  sampleClock := 0
  wheels := wheels
  killRx := killRx

/-- Current count of active grains. -/
def activeCount (engine : RfofsEngine R) : Nat := engine.active.values.length

/-- Override the clock ahead of the next block.  Neither the wheels nor the grains are told. -/
def setSampleClock (engine : RfofsEngine R) (sample : Nat) : RfofsEngine R :=
  { engine with sampleClock := sample }

/-- The producer of the `index`-th wheel pushes; `none` when its ring is full. -/
def submit (engine : RfofsEngine R) (index : Nat) (params : FofParams R) :
    Option (RfofsEngine R) :=
  engine.wheels[index]?.bind (fun wheel =>
    match wheel.push params with
    | .ok next => some { engine with wheels := engine.wheels.set index next }
    | .error _ => none)

/-- The producer of kill requests pushes; `none` when the queue is full. -/
def submitKill (engine : RfofsEngine R) (req : FofKillRequest R) : Option (RfofsEngine R) :=
  match engine.killRx.push req with
  | .ok next => some { engine with killRx := next }
  | .error _ => none

end RfofsEngine

/-- Drain the wheels in turn into one list of incoming requests.  The requests of the first
wheel come first. -/
def drainWheels (blockStart blockSize : Nat) :
    List (TimeWheelConsumer R) → List (FofParams R) →
      List (TimeWheelConsumer R) × List (FofParams R)
  | [], incoming => ([], incoming)
  | wheel :: wheels, incoming =>
      let drained := wheel.drainBlockSafe blockStart blockSize incoming
      let rest := drainWheels blockStart blockSize wheels drained.2
      (drained.1 :: rest.1, rest.2)

/-- What the wheels fire in the next block. -/
def RfofsEngine.incoming (engine : RfofsEngine R) (blockSize : Nat) : List (FofParams R) :=
  (drainWheels engine.sampleClock blockSize engine.wheels []).2

/-- Remove an id from the map.  The entry is removed whatever key it leads to. -/
def forget (idMap : Nat → Option Nat) (id : Nat) : Nat → Option Nat :=
  if id ≠ 0 then Function.update idMap id none else idMap

/-! ## Mixing -/

section Mixing

variable [Add R] [Mul R]

/-- `out[i] += mono[i] * gain`, as far as both go.  Frames beyond the mono block stay as they
are. -/
def addScaled (gain : R) : List R → List R → List R
  | out :: outs, m :: mono => (out + m * gain) :: addScaled gain outs mono
  | outs, _ => outs

/-- Scatter a mono block into the output channels that have a gain.  Channels beyond the gains
are left alone. -/
def scatter (mono : List R) : List R → List (List R) → List (List R)
  | gain :: gains, out :: outs => addScaled gain out mono :: scatter mono gains outs
  | _, outs => outs

theorem addScaled_length (gain : R) (out mono : List R) :
    (addScaled gain out mono).length = out.length := by
  induction out generalizing mono with
  | nil => rfl
  | cons x out ih =>
      cases mono with
      | nil => rfl
      | cons m mono =>
          rw [addScaled, List.length_cons, ih, List.length_cons]

/-- Mixing changes neither the number of channels nor their lengths. -/
theorem scatter_lengths (mono gains : List R) (outputs : List (List R)) :
    (scatter mono gains outputs).map List.length = outputs.map List.length := by
  induction outputs generalizing gains with
  | nil => cases gains <;> rfl
  | cons out outputs ih =>
      cases gains with
      | nil => rfl
      | cons gain gains =>
          rw [scatter, List.map_cons, List.map_cons, ih, addScaled_length]

end Mixing

/-! ## The map of ids -/

namespace RfofsEngine

/-- Remove the dead grains from the pool and from the map.  An id is removed by its value, so
the entry of a younger grain with the same id goes as well. -/
def removeDead (engine : RfofsEngine R) : RfofsEngine R :=
  let dead := engine.active.values.filter (fun grain => decide (grain.phase = .dead))
  { engine with
    active := engine.active.retain (fun grain => decide (grain.phase ≠ .dead))
    idMap := (dead.map (fun grain => grain.params.id)).foldl forget engine.idMap }

theorem removeDead_values (engine : RfofsEngine R) :
    engine.removeDead.active.values =
      engine.active.values.filter (fun grain => decide (grain.phase ≠ .dead)) :=
  Slab.retain_values _ _

/-- Nothing but the pool and the map has changed. -/
structure Frame (engine next : RfofsEngine R) : Prop where
  sampleRate : next.sampleRate = engine.sampleRate
  panMode : next.panMode = engine.panMode
  sampleClock : next.sampleClock = engine.sampleClock
  wheels : next.wheels = engine.wheels
  killRx : next.killRx = engine.killRx

theorem Frame.refl (engine : RfofsEngine R) : engine.Frame engine := ⟨rfl, rfl, rfl, rfl, rfl⟩

theorem Frame.trans {engine middle next : RfofsEngine R} (first : engine.Frame middle)
    (second : middle.Frame next) : engine.Frame next where
  sampleRate := second.sampleRate.trans first.sampleRate
  panMode := second.panMode.trans first.panMode
  sampleClock := second.sampleClock.trans first.sampleClock
  wheels := second.wheels.trans first.wheels
  killRx := second.killRx.trans first.killRx

end RfofsEngine

/-- Every id that the map knows is the id of the grain under its key.  An id may be missing
from the map while its grain is alive. -/
def Tracked (active : Slab (FofState R)) (idMap : Nat → Option Nat) : Prop :=
  ∀ id key, idMap id = some key →
    id ≠ 0 ∧ ∃ grain, (key, grain) ∈ active.entries ∧ grain.params.id = id

namespace Tracked

variable {active : Slab (FofState R)} {idMap : Nat → Option Nat}

theorem empty : Tracked (Slab.empty : Slab (FofState R)) (fun _ => none) := nofun

theorem insert (tracked : Tracked active idMap) {key : Nat} (unused : key ∉ active.keys)
    (grain : FofState R) :
    Tracked (active.insert key grain)
      (if grain.params.id ≠ 0 then Function.update idMap grain.params.id (some key)
        else idMap) := by
  have kept : ∀ id other, idMap id = some other →
      id ≠ 0 ∧ ∃ old, (other, old) ∈ (active.insert key grain).entries ∧ old.params.id = id := by
    intro id other known
    rcases tracked id other known with ⟨nonzero, old, member, same⟩
    exact ⟨nonzero, old, (active.mem_insert unused grain).mpr (Or.inr member), same⟩
  intro id other known
  split at known
  · rename_i nonzero
    by_cases same : id = grain.params.id
    · rw [same, Function.update_self, Option.some.injEq] at known
      rw [same, ← known]
      exact ⟨nonzero, grain, (active.mem_insert unused grain).mpr (Or.inl rfl), rfl⟩
    · rw [Function.update_of_ne same] at known
      exact kept id other known
  · exact kept id other known

theorem mapValues (tracked : Tracked active idMap) {f : Nat → FofState R → FofState R}
    (constant : ∀ key grain, (f key grain).params = grain.params) :
    Tracked (active.mapValues f) idMap := by
  intro id key known
  rcases tracked id key known with ⟨nonzero, grain, member, same⟩
  refine ⟨nonzero, f key grain, List.mem_map_of_mem (f := fun entry => (entry.1, f entry.1 entry.2))
    member, ?_⟩
  rw [constant, same]

theorem key_mem (tracked : Tracked active idMap) {id key : Nat} (known : idMap id = some key) :
    key ∈ active.keys := by
  rcases tracked id key known with ⟨_, grain, member, _⟩
  exact List.mem_map_of_mem (f := Prod.fst) member

end Tracked

theorem forget_foldl (idMap : Nat → Option Nat) (ids : List Nat) (id : Nat) :
    ids.foldl forget idMap id = if id ≠ 0 ∧ id ∈ ids then none else idMap id := by
  induction ids generalizing idMap with
  | nil => simp
  | cons first ids ih =>
      rw [List.foldl_cons, ih, forget]
      by_cases same : id = first
      · subst same
        by_cases zero : id = 0 <;> simp [zero]
      · by_cases zero : first = 0
        · subst zero
          simp [same]
        · simp [zero, same]

/-- The dead grains leave the pool together with their ids.  An id that is still known
afterwards leads to a grain that is alive. -/
theorem Tracked.removeDead {engine : RfofsEngine R} (tracked : Tracked engine.active engine.idMap) :
    Tracked engine.removeDead.active engine.removeDead.idMap := by
  intro id key known
  change (List.foldl forget engine.idMap _) id = some key at known
  rw [forget_foldl] at known
  split at known
  · cases known
  · rename_i remembered
    rcases tracked id key known with ⟨nonzero, grain, member, same⟩
    refine ⟨nonzero, grain, List.mem_filter.mpr ⟨member, ?_⟩, same⟩
    rw [decide_eq_true_eq]
    intro dead
    have value : grain ∈ engine.active.values := List.mem_map_of_mem (f := Prod.snd) member
    apply remembered
    refine ⟨nonzero, List.mem_map.mpr ⟨grain, List.mem_filter.mpr ⟨value, ?_⟩, same⟩⟩
    exact decide_eq_true dead

/-! ## One block -/

section Block

variable [Field R] [LinearOrder R] [FloorRing R] [RealOps R]

namespace RfofsEngine

/-- Spawn one incoming grain and track it, if it has an id.  The newest grain of an id takes
over its entry in the map. -/
def spawn (choice : KeyChoice) (engine : RfofsEngine R) (params : FofParams R) :
    RfofsEngine R :=
  let idx := choice.pick engine.active.keys
  { engine with
    active := engine.active.insert idx (FofState.spawn params engine.sampleRate)
    idMap :=
      if params.id ≠ 0 then Function.update engine.idMap params.id (some idx)
      else engine.idMap }

/-- Apply one kill request.  An unknown id is ignored; a known id whose key is not in the pool
would be a panic. -/
def kill (engine : RfofsEngine R) (req : FofKillRequest R) : Option (RfofsEngine R) :=
  match engine.idMap req.id with
  | none => some engine
  | some idx =>
      if idx ∈ engine.active.keys then
        some { engine with
          active := engine.active.modify idx (fun grain => grain.triggerFadeOut req.fadeDur) }
      else
        none

/-- The gains of a grain, one for each channel of the mode.  They are computed anew in every
block. -/
def gains (engine : RfofsEngine R) (p : FofParams R) : List R :=
  panGains p.azm p.elev p.distance engine.panMode
    (List.replicate engine.panMode.channelCount 0)

/-- Render every active grain, in the order of the keys, into the outputs.  Each grain fills a
mono block first, which is then scattered with its gains. -/
def render (engine : RfofsEngine R) (blockStart blockSize : Nat) (outputs : List (List R)) :
    RfofsEngine R × List (List R) :=
  let fill := fun grain : FofState R => grain.fillBlock blockStart (List.replicate blockSize 0)
  ({ engine with active := engine.active.mapValues (fun _ grain => (fill grain).1) },
    engine.active.values.foldl
      (fun outputs grain => scatter (fill grain).2 (engine.gains (fill grain).1.params) outputs)
      outputs)

/-- Process one block: the engine after it, and the outputs.  The steps come in the order of
the source: drain, spawn, kill, render, remove the dead, and advance the clock. -/
def processBlock (choice : KeyChoice) (engine : RfofsEngine R) (outputs : List (List R))
    (blockSize : Nat) : Option (RfofsEngine R × List (List R)) :=
  let blockStart := engine.sampleClock
  let blockEnd := blockStart + blockSize
  let drained := drainWheels blockStart blockSize engine.wheels []
  let kills := engine.killRx.drainAll []
  let queued := { engine with wheels := drained.1, killRx := kills.1 }
  let spawned := drained.2.foldl (spawn choice) queued
  (kills.2.foldlM kill spawned).map (fun killed =>
    let rendered := killed.render blockStart blockSize outputs
    ({ rendered.1.removeDead with sampleClock := blockEnd }, rendered.2))

end RfofsEngine

namespace RfofsEngine

/-- Every request is spawned: the pool gains one fresh grain for each.  Which keys they get is
the choice of the pool. -/
theorem spawn_foldl (choice : KeyChoice) (engine : RfofsEngine R)
    (tracked : Tracked engine.active engine.idMap) (requests : List (FofParams R)) :
    let spawned := requests.foldl (spawn choice) engine
    engine.Frame spawned ∧ Tracked spawned.active spawned.idMap ∧
      spawned.active.values.Perm (engine.active.values ++
        requests.map (fun params => FofState.spawn params engine.sampleRate)) := by
  induction requests generalizing engine with
  | nil =>
      refine ⟨Frame.refl engine, tracked, ?_⟩
      rw [List.map_nil, List.append_nil]
      exact List.Perm.refl _
  | cons params requests ih =>
      have unused := choice.fresh engine.active.keys
      have inserted := tracked.insert unused (FofState.spawn params engine.sampleRate)
      rcases ih (engine.spawn choice params) inserted with ⟨frame, nextTracked, values⟩
      refine ⟨(Frame.mk rfl rfl rfl rfl rfl : engine.Frame (engine.spawn choice params)).trans frame,
        nextTracked, values.trans ?_⟩
      have fresh := engine.active.insert_values_perm unused
        (FofState.spawn params engine.sampleRate)
      exact (fresh.append_right _).trans List.perm_middle.symm

/-- A kill never misses the pool.  The map leads only to keys that are in use. -/
theorem kill_total {engine : RfofsEngine R} (tracked : Tracked engine.active engine.idMap)
    (req : FofKillRequest R) :
    ∃ next, engine.kill req = some next ∧ engine.Frame next ∧
      Tracked next.active next.idMap := by
  unfold kill
  cases known : engine.idMap req.id with
  | none => exact ⟨engine, rfl, Frame.refl engine, tracked⟩
  | some idx =>
      refine ⟨_, if_pos (tracked.key_mem known), ⟨rfl, rfl, rfl, rfl, rfl⟩, ?_⟩
      apply tracked.mapValues
      intro key grain
      split
      · exact congrArg FofConstants.params (grain.triggerFadeOut_constants req.fadeDur)
      · rfl

theorem kill_foldlM {engine : RfofsEngine R} (tracked : Tracked engine.active engine.idMap)
    (requests : List (FofKillRequest R)) :
    ∃ next, requests.foldlM kill engine = some next ∧ engine.Frame next ∧
      Tracked next.active next.idMap := by
  induction requests generalizing engine with
  | nil => exact ⟨engine, rfl, Frame.refl engine, tracked⟩
  | cons req requests ih =>
      rcases kill_total tracked req with ⟨middle, killed, frame, middleTracked⟩
      rcases ih middleTracked with ⟨next, rest, later, nextTracked⟩
      refine ⟨next, ?_, frame.trans later, nextTracked⟩
      rw [List.foldlM_cons, killed]
      exact rest

theorem render_values (engine : RfofsEngine R) (blockStart blockSize : Nat)
    (outputs : List (List R)) :
    (engine.render blockStart blockSize outputs).1.active.values = engine.active.values.map
      (fun grain => (grain.fillBlock blockStart (List.replicate blockSize 0)).1) :=
  Slab.mapValues_values _ _

theorem render_tracked {engine : RfofsEngine R} (tracked : Tracked engine.active engine.idMap)
    (blockStart blockSize : Nat) (outputs : List (List R)) :
    Tracked (engine.render blockStart blockSize outputs).1.active engine.idMap :=
  tracked.mapValues (fun _ grain =>
    congrArg FofConstants.params (grain.fillBlock_constants blockStart _))

theorem render_lengths (engine : RfofsEngine R) (blockStart blockSize : Nat)
    (outputs : List (List R)) :
    (engine.render blockStart blockSize outputs).2.map List.length = outputs.map List.length := by
  have mixed : ∀ (grains : List (FofState R)) (mono : FofState R → List R)
      (gains : FofState R → List R) (outputs : List (List R)),
      (grains.foldl (fun outputs grain => scatter (mono grain) (gains grain) outputs)
        outputs).map List.length = outputs.map List.length := by
    intro grains mono gains
    induction grains with
    | nil => exact fun _ => rfl
    | cons grain grains ih =>
        intro outputs
        rw [List.foldl_cons, ih, scatter_lengths]
  exact mixed _ _ _ _

/-! ## Specification of a block -/

theorem processBlock_clock {choice : KeyChoice} {engine next : RfofsEngine R}
    {outputs rendered : List (List R)} {blockSize : Nat}
    (processed : engine.processBlock choice outputs blockSize = some (next, rendered)) :
    next.sampleClock = engine.sampleClock + blockSize := by
  rcases Option.map_eq_some_iff.mp processed with ⟨killed, _, same⟩
  cases same
  rfl

/-- What a block does to everything but the pool: the clock advances, the wheels are drained
and the kill queue is emptied. -/
structure BlockDone (engine next : RfofsEngine R) (blockSize : Nat) : Prop where
  tracked : Tracked next.active next.idMap
  sampleRate : next.sampleRate = engine.sampleRate
  panMode : next.panMode = engine.panMode
  sampleClock : next.sampleClock = engine.sampleClock + blockSize
  wheels : next.wheels = (drainWheels engine.sampleClock blockSize engine.wheels []).1
  killRx : next.killRx = (engine.killRx.drainAll []).1

/-- A block never panics, for any choice of keys and any outputs.  It is enough that the map
is tracked. -/
theorem processBlock_total (choice : KeyChoice) {engine : RfofsEngine R}
    (tracked : Tracked engine.active engine.idMap) (outputs : List (List R)) (blockSize : Nat) :
    ∃ next rendered, engine.processBlock choice outputs blockSize = some (next, rendered) ∧
      engine.BlockDone next blockSize ∧ rendered.map List.length = outputs.map List.length := by
  obtain ⟨frame, spawnTracked, _⟩ := spawn_foldl choice
    ({ engine with
      wheels := (drainWheels engine.sampleClock blockSize engine.wheels []).1
      killRx := (engine.killRx.drainAll []).1 }) tracked (engine.incoming blockSize)
  rcases kill_foldlM spawnTracked (engine.killRx.drainAll []).2 with
    ⟨killed, applied, later, killTracked⟩
  have whole := frame.trans later
  refine ⟨_, _, Option.map_eq_some_iff.mpr ⟨killed, applied, rfl⟩, ?_, render_lengths _ _ _ _⟩
  exact ⟨(render_tracked killTracked _ _ _).removeDead, whole.sampleRate, whole.panMode, rfl,
    whole.wheels, whole.killRx⟩

/-- Without kill requests a block renders and sieves the old grains and the spawned
ones. -/
theorem processBlock_values (choice : KeyChoice) {engine next : RfofsEngine R}
    (tracked : Tracked engine.active engine.idMap) {outputs rendered : List (List R)}
    {blockSize : Nat} (unkilled : engine.killRx.rx.items = [])
    (processed : engine.processBlock choice outputs blockSize = some (next, rendered)) :
    next.active.values.Perm (((engine.active.values ++ (engine.incoming blockSize).map
      (fun params => FofState.spawn params engine.sampleRate)).map (fun grain =>
        (grain.fillBlock engine.sampleClock (List.replicate blockSize 0)).1)).filter
          (fun grain => decide (grain.phase ≠ .dead))) := by
  obtain ⟨frame, spawnTracked, values⟩ := spawn_foldl choice
    ({ engine with
      wheels := (drainWheels engine.sampleClock blockSize engine.wheels []).1
      killRx := (engine.killRx.drainAll []).1 }) tracked (engine.incoming blockSize)
  have none : (engine.killRx.drainAll []).2 = [] := unkilled
  unfold processBlock at processed
  dsimp only at processed
  rw [none, List.foldlM_nil] at processed
  cases processed
  dsimp only
  rw [removeDead_values, render_values]
  exact (values.map _).filter _

end RfofsEngine

end Block

end Engine
end Rfofs
