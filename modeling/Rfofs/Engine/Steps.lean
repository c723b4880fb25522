import Rfofs.Engine.Runs

namespace Rfofs
namespace Engine

open Foundation
open Grain
open Queue

/-!
# A block, step by step

The four loops of a block spawn the incoming requests, apply the kills, render the
active grains and take the dead ones out, one at a time.  A kill and the rendering
look a grain up by its key, and the removal takes a key out; each of them panics on a
key that is not in the pool.

`Passes` says that a list of steps runs without a panic, that the map of ids leads to
grains with the mapped ids before and after every step, and that a kill fades no grain
with another id.  The steps of a block pass, and they compute what `processBlock` does.
-/

variable {R : Type*}

/-- One turn of one of the four loops of a block: a spawn, a kill, a fill, or the removal of a
dead grain. -/
inductive BlockStep (R : Type*) where
  | spawn (params : FofParams R)
  | kill (req : FofKillRequest R)
  | fill (key : Nat)
  | remove (key id : Nat)

/-- A kill request leaves every grain with another id as it is. -/
def FadesOnly (req : FofKillRequest R) (before after : Slab (FofState R)) : Prop :=
  ∀ key grain, (key, grain) ∈ before.entries → grain.params.id ≠ req.id →
    (key, grain) ∈ after.entries

/-- Taking the dead grains out one at a time is `removeDead`. -/
theorem removeDead_eq (engine : RfofsEngine R) :
    engine.removeDead = { engine with
      active := ((engine.active.entries.filter (fun entry =>
        decide (entry.2.phase = .dead))).map Prod.fst).foldl Slab.remove engine.active
      idMap := ((engine.active.entries.filter (fun entry =>
        decide (entry.2.phase = .dead))).map (fun entry => entry.2.params.id)).foldl forget
          engine.idMap } := by
  have active : engine.active.retain (fun grain => decide (grain.phase ≠ .dead)) =
      ((engine.active.entries.filter (fun entry => decide (entry.2.phase = .dead))).map
        Prod.fst).foldl Slab.remove engine.active := by
    apply Slab.ext
    rw [Slab.remove_foldl]
    apply List.filter_congr
    rintro ⟨key, grain⟩ member
    rw [decide_eq_decide]
    constructor
    · intro alive listed
      rcases List.mem_map.mp listed with ⟨⟨other, old⟩, found, same⟩
      rcases List.mem_filter.mp found with ⟨oldMember, dead⟩
      cases same
      have equal : old = grain := Slab.unique oldMember member
      exact alive (equal ▸ of_decide_eq_true dead)
    · intro outside dead
      exact outside (List.mem_map.mpr ⟨_, List.mem_filter.mpr ⟨member, decide_eq_true dead⟩, rfl⟩)
  have ids : (engine.active.values.filter (fun grain => decide (grain.phase = .dead))).map
      (fun grain => grain.params.id) =
        (engine.active.entries.filter (fun entry => decide (entry.2.phase = .dead))).map
          (fun entry => entry.2.params.id) := by
    rw [Slab.values, List.filter_map, List.map_map]
    rfl
  rw [RfofsEngine.removeDead, active, ids]

section Steps

variable [Field R] [LinearOrder R] [FloorRing R] [RealOps R]

namespace RfofsEngine

/-- One step on the engine and the outputs; `none` is a panic.  A step looks its key up in the
pool, as the source does. -/
def step (choice : KeyChoice) (blockStart blockSize : Nat)
    (state : RfofsEngine R × List (List R)) : BlockStep R → Option (RfofsEngine R × List (List R))
  | .spawn params => some (state.1.spawn choice params, state.2)
  | .kill req => (state.1.kill req).map (fun next => (next, state.2))
  | .fill key => (state.1.active.get? key).map (fun grain =>
      let fill := fun grain : FofState R => grain.fillBlock blockStart (List.replicate blockSize 0)
      ({ state.1 with active := state.1.active.modify key (fun grain => (fill grain).1) },
        scatter (fill grain).2 (state.1.gains (fill grain).1.params) state.2))
  | .remove key id =>
      if key ∈ state.1.active.keys then
        some ({ state.1 with
          active := state.1.active.remove key
          idMap := forget state.1.idMap id }, state.2)
      else
        none

/-- The keys and ids of the dead grains, in the order of the keys.  They are collected before
any of them is removed. -/
def deadKeys (engine : RfofsEngine R) : List (Nat × Nat) :=
  (engine.active.entries.filter (fun entry => decide (entry.2.phase = .dead))).map
    (fun entry => (entry.1, entry.2.params.id))

/-- The steps of a block, given the engine just before it is rendered. -/
def blockSteps (engine ready : RfofsEngine R) (blockSize : Nat) : List (BlockStep R) :=
  (engine.incoming blockSize).map .spawn ++ (engine.pendingKills.map .kill ++
    (ready.active.keys.map .fill ++
      (ready.render engine.sampleClock blockSize []).1.deadKeys.map
        (fun dead => .remove dead.1 dead.2)))

end RfofsEngine

/-- The steps run from the first state to the last one, and the map of ids is in order
before and after each of them. -/
inductive Passes (choice : KeyChoice) (blockStart blockSize : Nat) :
    RfofsEngine R × List (List R) → List (BlockStep R) → RfofsEngine R × List (List R) → Prop
  | done {state : RfofsEngine R × List (List R)} (tracked : Tracked state.1.active state.1.idMap) :
      Passes choice blockStart blockSize state [] state
  | step {state next final : RfofsEngine R × List (List R)} {step : BlockStep R}
      {steps : List (BlockStep R)} (tracked : Tracked state.1.active state.1.idMap)
      (taken : RfofsEngine.step choice blockStart blockSize state step = some next)
      (fades : ∀ req, step = .kill req → FadesOnly req state.1.active next.1.active)
      (rest : Passes choice blockStart blockSize next steps final) :
      Passes choice blockStart blockSize state (step :: steps) final

namespace Passes

variable {choice : KeyChoice} {blockStart blockSize : Nat}
  {state middle final : RfofsEngine R × List (List R)} {first second : List (BlockStep R)}

theorem append (front : Passes choice blockStart blockSize state first middle)
    (back : Passes choice blockStart blockSize middle second final) :
    Passes choice blockStart blockSize state (first ++ second) final := by
  induction front with
  | done _ => exact back
  | step tracked taken fades _ ih => exact .step tracked taken fades (ih back)

theorem tracked (passes : Passes choice blockStart blockSize state first final) :
    Tracked final.1.active final.1.idMap := by
  induction passes with
  | done tracked => exact tracked
  | step _ _ _ _ ih => exact ih

/-- Passing steps run without a panic. -/
theorem runs (passes : Passes choice blockStart blockSize state first final) :
    first.foldlM (RfofsEngine.step choice blockStart blockSize) state = some final := by
  induction passes with
  | done _ => rfl
  | step _ taken _ _ ih =>
      rw [List.foldlM_cons, taken]
      exact ih

end Passes

/-! ## The four loops -/

section Loops

variable {engine : RfofsEngine R} (choice : KeyChoice) (blockStart blockSize : Nat)
  (outputs : List (List R))

theorem passes_spawn (tracked : Tracked engine.active engine.idMap)
    (requests : List (FofParams R)) :
    Passes choice blockStart blockSize (engine, outputs) (requests.map .spawn)
      (requests.foldl (RfofsEngine.spawn choice) engine, outputs) := by
  induction requests generalizing engine with
  | nil => exact .done tracked
  | cons params requests ih =>
      have inserted : Tracked (engine.spawn choice params).active (engine.spawn choice params).idMap :=
        tracked.insert (choice.fresh engine.active.keys) (FofState.spawn params engine.sampleRate)
      exact .step tracked rfl nofun (ih inserted)

/-- A kill that finds its id fades the one grain under the mapped key.  By the invariant this
grain has the id of the request. -/
theorem kill_fadesOnly (tracked : Tracked engine.active engine.idMap) {req : FofKillRequest R}
    {next : RfofsEngine R} (killed : engine.kill req = some next) :
    FadesOnly req engine.active next.active := by
  intro key grain member other
  cases known : engine.idMap req.id with
  | none =>
      simp only [RfofsEngine.kill, known, Option.some.injEq] at killed
      rwa [← killed]
  | some idx =>
      simp only [RfofsEngine.kill, known, if_pos (tracked.key_mem known),
        Option.some.injEq] at killed
      rw [← killed]
      have elsewhere : key ≠ idx := by
        rintro rfl
        rcases tracked req.id key known with ⟨_, target, listed, same⟩
        rw [Slab.unique listed member] at same
        exact other same
      refine List.mem_map.mpr ⟨(key, grain), member, ?_⟩
      simp only [if_neg elsewhere]

theorem passes_kill (tracked : Tracked engine.active engine.idMap)
    (requests : List (FofKillRequest R)) {killed : RfofsEngine R}
    (applied : requests.foldlM RfofsEngine.kill engine = some killed) :
    Passes choice blockStart blockSize (engine, outputs) (requests.map .kill)
      (killed, outputs) := by
  induction requests generalizing engine with
  | nil =>
      cases applied
      exact .done tracked
  | cons req requests ih =>
      rcases RfofsEngine.kill_total tracked req with ⟨next, first, _, nextTracked⟩
      rw [List.foldlM_cons, first] at applied
      refine .step tracked (congrArg (Option.map _) first) ?_ (ih nextTracked applied)
      intro other same
      cases same
      exact kill_fadesOnly tracked first

/-- The rendering loop from the middle of the pool: the grains of `done` have been
rendered, and those of `rest` have not. -/
theorem passes_fill (tracked : Tracked engine.active engine.idMap)
    (done rest : List (Nat × FofState R)) (split : engine.active.entries = done ++ rest) :
    ∃ active : Slab (FofState R),
      active.entries = done ++ rest.map (fun entry =>
        (entry.1, (entry.2.fillBlock blockStart (List.replicate blockSize 0)).1)) ∧
      Passes choice blockStart blockSize (engine, outputs)
        (rest.map (fun entry => .fill entry.1))
        ({ engine with active := active },
          (rest.map Prod.snd).foldl (fun outputs grain =>
            scatter (grain.fillBlock blockStart (List.replicate blockSize 0)).2
              (engine.gains (grain.fillBlock blockStart (List.replicate blockSize 0)).1.params)
              outputs) outputs) := by
  induction rest generalizing engine done outputs with
  | nil => exact ⟨engine.active, split, .done tracked⟩
  | cons entry rest ih =>
      rcases entry with ⟨key, grain⟩
      have listed : (key, grain) ∈ engine.active.entries := by
        rw [split]
        exact List.mem_append_right _ List.mem_cons_self
      let fill := fun grain : FofState R => grain.fillBlock blockStart (List.replicate blockSize 0)
      let next : RfofsEngine R :=
        { engine with active := engine.active.modify key (fun grain => (fill grain).1) }
      have nextTracked : Tracked next.active next.idMap := by
        apply tracked.mapValues
        intro other old
        split
        · exact congrArg FofConstants.params (old.fillBlock_constants blockStart _)
        · rfl
      have nextSplit : next.active.entries = (done ++ [(key, (fill grain).1)]) ++ rest := by
        rw [List.append_assoc]
        exact Slab.modify_split split _
      rcases ih (scatter (fill grain).2 (engine.gains (fill grain).1.params) outputs) nextTracked
        _ nextSplit with ⟨active, entries, passes⟩
      refine ⟨active, ?_, .step tracked ?_ nofun passes⟩
      · rw [entries, List.append_assoc]
        rfl
      · change Option.map _ _ = _
        rw [Slab.get?_eq_some.mpr listed]
        rfl

/-- The removal loop, over any part of the pool.  The keys are distinct, so no removal takes a
key away that is still to come. -/
theorem passes_remove (tracked : Tracked engine.active engine.idMap)
    (dead : List (Nat × FofState R)) (listed : ∀ entry ∈ dead, entry ∈ engine.active.entries)
    (distinct : (dead.map Prod.fst).Nodup) :
    Passes choice blockStart blockSize (engine, outputs)
      (dead.map (fun entry => .remove entry.1 entry.2.params.id))
      ({ engine with
        active := (dead.map Prod.fst).foldl Slab.remove engine.active
        idMap := (dead.map (fun entry => entry.2.params.id)).foldl forget engine.idMap },
        outputs) := by
  induction dead generalizing engine with
  | nil => exact .done tracked
  | cons entry dead ih =>
      rcases entry with ⟨key, grain⟩
      have here := listed (key, grain) List.mem_cons_self
      have present : key ∈ engine.active.keys := List.mem_map_of_mem here
      have fresh := List.nodup_cons.mp distinct
      let next : RfofsEngine R := { engine with
        active := engine.active.remove key
        idMap := forget engine.idMap grain.params.id }
      have nextTracked : Tracked next.active next.idMap := by
        intro id other known
        change [grain.params.id].foldl forget engine.idMap id = some other at known
        rw [forget_foldl] at known
        split at known
        · cases known
        · rename_i remembered
          rcases tracked id other known with ⟨nonzero, old, member, same⟩
          refine ⟨nonzero, old, List.mem_filter.mpr ⟨member, decide_eq_true ?_⟩, same⟩
          rintro rfl
          cases Slab.unique member here
          exact remembered ⟨nonzero, same ▸ List.mem_singleton_self _⟩
      refine .step tracked (if_pos present) nofun (ih nextTracked ?_ fresh.2)
      intro other member
      refine List.mem_filter.mpr ⟨listed other (List.mem_cons_of_mem _ member), decide_eq_true ?_⟩
      intro same
      exact fresh.1 (List.mem_map.mpr ⟨other, member, same⟩)

end Loops

/-- The steps of a block pass, and lead to what the block computes; only the clock is
still to be advanced. -/
theorem RfofsEngine.passes_block {engine : RfofsEngine R}
    (tracked : Tracked engine.active engine.idMap) (choice : KeyChoice)
    (outputs : List (List R)) (blockSize : Nat) :
    ∃ ready next rendered, engine.ready choice blockSize = some ready ∧
      engine.processBlock choice outputs blockSize =
        some ({ next with sampleClock := engine.sampleClock + blockSize }, rendered) ∧
      Passes choice engine.sampleClock blockSize (engine.drained blockSize, outputs)
        (engine.blockSteps ready blockSize) (next, rendered) ∧
      ∀ grain ∈ next.active.values, grain.phase ≠ .dead := by
  have drained : Tracked (engine.drained blockSize).active (engine.drained blockSize).idMap := tracked
  have spawning := passes_spawn choice engine.sampleClock blockSize outputs drained
    (engine.incoming blockSize)
  rcases RfofsEngine.kill_foldlM spawning.tracked engine.pendingKills with
    ⟨ready, applied, _, readyTracked⟩
  have killing := passes_kill choice engine.sampleClock blockSize outputs spawning.tracked
    engine.pendingKills applied
  rcases passes_fill choice engine.sampleClock blockSize outputs readyTracked []
    ready.active.entries rfl with ⟨active, entries, filling⟩
  let rendered := ready.render engine.sampleClock blockSize outputs
  have same : active = rendered.1.active := Slab.ext entries
  rw [same] at filling
  have keys : ready.active.entries.map (fun entry => BlockStep.fill entry.1) =
      (ready.active.keys.map .fill : List (BlockStep R)) := by
    rw [Slab.keys, List.map_map]
    rfl
  rw [keys] at filling
  have removing := passes_remove choice engine.sampleClock blockSize rendered.2
    filling.tracked
    (rendered.1.active.entries.filter (fun entry => decide (entry.2.phase = .dead)))
    (fun entry member => List.mem_of_mem_filter member)
    (List.Nodup.sublist (List.filter_sublist.map _) rendered.1.active.keys_nodup)
  rw [← removeDead_eq] at removing
  have steps : (rendered.1.active.entries.filter (fun entry =>
      decide (entry.2.phase = .dead))).map (fun entry => .remove entry.1 entry.2.params.id) =
        ((ready.render engine.sampleClock blockSize []).1.deadKeys.map
          (fun dead => .remove dead.1 dead.2) : List (BlockStep R)) := by
    rw [deadKeys, List.map_map]
    rfl
  rw [steps] at removing
  refine ⟨ready, rendered.1.removeDead, rendered.2, applied,
    Option.map_eq_some_iff.mpr ⟨ready, applied, rfl⟩,
    spawning.append (killing.append (filling.append removing)), ?_⟩
  intro grain member
  rw [removeDead_values] at member
  exact of_decide_eq_true (List.mem_filter.mp member).2

/-- The map of ids never dangles: no run panics; in every state reached each entry of
the map has a nonzero id and leads to a grain with that id; this also holds before and
after every step of any block, where no kill touches a grain with another id; and no
dead grain is left behind a block. -/
theorem id_map_never_dangles (sampleRate : R) (panMode : PanMode)
    (specs : List (Nat × Geometry × Bool)) (killCapacity : Nat) (calls : List (EngineCall R)) :
    ∃ engine, (RfofsEngine.new sampleRate panMode (freshWheels specs)
        (killQueue killCapacity)).run calls = some engine ∧
      Tracked engine.active engine.idMap ∧
      ∀ choice outputs blockSize, ∃ ready next rendered,
        engine.ready choice blockSize = some ready ∧
        engine.processBlock choice outputs blockSize =
          some ({ next with sampleClock := engine.sampleClock + blockSize }, rendered) ∧
        Passes choice engine.sampleClock blockSize (engine.drained blockSize, outputs)
          (engine.blockSteps ready blockSize) (next, rendered) ∧
        ∀ grain ∈ next.active.values, grain.phase ≠ .dead := by
  rcases (Sound.new sampleRate panMode specs killCapacity).run calls with
    ⟨engine, slots, ran, sound⟩
  have tracked := sound.represents.tracked
  exact ⟨engine, ran, tracked, fun choice outputs blockSize =>
    engine.passes_block tracked choice outputs blockSize⟩

end Steps

end Engine
end Rfofs
