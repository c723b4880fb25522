import Rfofs.Engine.Roster
import Rfofs.Engine.Session

namespace Rfofs
namespace Engine

open Foundation
open Grain
open Queue

/-!
# Runs of the engine

The engine is called from three sides: producers push requests and kill requests, the
owner sets the clock to any value, and a block may have any size.  A refused push is
dropped.  The wheels were created for the engine, with any geometries.

`Sound` is the invariant of all runs: the engine has a roster, and each wheel has
accounts.  It makes every call total.
-/

variable {R : Type*}

/-- What is done to an engine: pushes, kills, a new clock, and blocks. -/
inductive EngineCall (R : Type*) where
  | clock (sample : Nat)
  | submit (index : Nat) (params : FofParams R)
  | kill (req : FofKillRequest R)
  | block (choice : KeyChoice) (outputs : List (List R)) (blockSize : Nat)

/-! ## Wheels -/

/-- Each wheel has accounts.  Nothing is said about how they came about. -/
def Accounted (wheels : List (TimeWheelConsumer R)) : Prop :=
  ∀ wheel ∈ wheels, ∃ g log fired, WheelAccounts g wheel.wheel log fired

/-- The wheels of an engine that has just been created, each with its ring, its geometry, and
a sink if it has one. -/
def freshWheels (specs : List (Nat × Geometry × Bool)) : List (TimeWheelConsumer R) :=
  specs.map (fun spec => freshWheel spec.1 spec.2.1 spec.2.2)

/-- Four slots of ten samples, for examples. -/
def smallGeometry : Geometry := ⟨4, 10, 64, by decide, by decide⟩

theorem freshWheels_accounted (specs : List (Nat × Geometry × Bool)) :
    Accounted (freshWheels specs : List (TimeWheelConsumer R)) := by
  intro wheel member
  rcases List.mem_map.mp member with ⟨⟨capacity, g, recorded⟩, _, rfl⟩
  refine ⟨g, [], [], ?_⟩
  cases recorded <;> exact new_wheelAccounts g

theorem drainWheels_eq (blockStart blockSize : Nat) (wheels : List (TimeWheelConsumer R))
    (incoming : List (FofParams R)) :
    drainWheels blockStart blockSize wheels incoming =
      (wheels.map (fun wheel => (wheel.drainBlockSafe blockStart blockSize []).1),
        incoming ++ wheels.flatMap (fun wheel => (wheel.drainBlockSafe blockStart blockSize []).2)) := by
  induction wheels generalizing incoming with
  | nil => rw [drainWheels, List.map_nil, List.flatMap_nil, List.append_nil]
  | cons wheel wheels ih =>
      rw [drainWheels, wheel.drainBlockSafe_out, ih, List.map_cons, List.flatMap_cons,
        List.append_assoc]

theorem RfofsEngine.mem_incoming {engine : RfofsEngine R} {blockSize : Nat} {params : FofParams R} :
    params ∈ engine.incoming blockSize ↔ ∃ wheel ∈ engine.wheels,
      params ∈ (wheel.drainBlockSafe engine.sampleClock blockSize []).2 := by
  rw [incoming, drainWheels_eq, List.nil_append, List.mem_flatMap]

/-- A block fires only slots that have elapsed by its end.  The onsets of what it fires
therefore lie before it. -/
theorem Accounted.incoming_lt {engine : RfofsEngine R} (accounted : Accounted engine.wheels)
    {blockSize : Nat} {params : FofParams R} (member : params ∈ engine.incoming blockSize) :
    params.startSample < engine.sampleClock + blockSize := by
  rcases RfofsEngine.mem_incoming.mp member with ⟨wheel, listed, fired⟩
  rcases accounted wheel listed with ⟨g, log, before, accounts⟩
  have slotIndex := TimeWheelConsumer.drainBlockSafe_slotIndex accounts engine.sampleClock
    blockSize []
  rw [TimeWheelConsumer.drainBlockSafe_fires accounts] at fired
  have range := (mem_orderedFrom.mp fired).2
  have elapsed : slotNumber g params < (engine.sampleClock + blockSize) / g.duration := by
    omega
  calc params.startSample
      < (engine.sampleClock + blockSize) / g.duration * g.duration :=
        (Nat.div_lt_iff_lt_mul g.duration_pos).mp elapsed
    _ ≤ engine.sampleClock + blockSize := Nat.div_mul_le_self _ _

theorem Accounted.drain {wheels : List (TimeWheelConsumer R)} (accounted : Accounted wheels)
    (blockStart blockSize : Nat) : Accounted (drainWheels blockStart blockSize wheels []).1 := by
  rw [drainWheels_eq]
  intro wheel member
  rcases List.mem_map.mp member with ⟨old, listed, rfl⟩
  rcases accounted old listed with ⟨g, log, fired, accounts⟩
  have next := TimeWheelConsumer.drainBlockSafe_accounts accounts blockStart blockSize
  rw [old.drainBlockSafe_out] at next
  exact ⟨g, _, _, next⟩

/-- A push fills the ring of one wheel. -/
theorem Accounted.submit {engine : RfofsEngine R} (accounted : Accounted engine.wheels)
    (index : Nat) (params : FofParams R) :
    ∃ wheels, Accounted wheels ∧
      (engine.submit index params).getD engine = { engine with wheels := wheels } := by
  unfold RfofsEngine.submit
  cases listed : engine.wheels[index]? with
  | none => exact ⟨engine.wheels, accounted, rfl⟩
  | some wheel =>
      rw [Option.bind_some]
      rcases wheel.push_cases params with ⟨rx, pushed, _⟩ | ⟨refused, _⟩
      · rw [pushed]
        refine ⟨_, ?_, rfl⟩
        intro other member
        rcases List.mem_or_eq_of_mem_set member with old | rfl
        · exact accounted other old
        · exact accounted wheel (List.mem_of_getElem? listed)
      · rw [refused]
        exact ⟨engine.wheels, accounted, rfl⟩

/-! ## Calls -/

/-- What every run preserves: the wheels have accounts, and the slots represent the pool and
the map. -/
structure Sound (engine : RfofsEngine R) (slots : List (Nat × Voice R)) : Prop where
  represents : Represents engine slots
  accounted : Accounted engine.wheels

theorem Sound.new (sampleRate : R) (panMode : PanMode) (specs : List (Nat × Geometry × Bool))
    (killCapacity : Nat) :
    Sound (RfofsEngine.new sampleRate panMode (freshWheels specs) (killQueue killCapacity)) [] :=
  ⟨new_represents sampleRate panMode _ _, freshWheels_accounted specs⟩

namespace RfofsEngine

/-- A refused kill request is dropped. -/
theorem submitKill_getD (engine : RfofsEngine R) (req : FofKillRequest R) :
    ∃ killRx, (engine.submitKill req).getD engine = { engine with killRx := killRx } := by
  unfold submitKill
  cases engine.killRx.push req with
  | ok next => exact ⟨next, rfl⟩
  | error refused => exact ⟨engine.killRx, rfl⟩

variable [Field R] [LinearOrder R] [FloorRing R] [RealOps R]

def call (engine : RfofsEngine R) : EngineCall R → Option (RfofsEngine R)
  | .clock sample => some (engine.setSampleClock sample)
  | .submit index params => some ((engine.submit index params).getD engine)
  | .kill req => some ((engine.submitKill req).getD engine)
  | .block choice outputs blockSize =>
      (engine.processBlock choice outputs blockSize).map Prod.fst

def run (engine : RfofsEngine R) (calls : List (EngineCall R)) : Option (RfofsEngine R) :=
  calls.foldlM call engine

theorem run_cons {engine next : RfofsEngine R} {call : EngineCall R}
    (called : engine.call call = some next) (calls : List (EngineCall R)) :
    engine.run (call :: calls) = next.run calls := by
  rw [run, List.foldlM_cons, called]
  rfl

theorem run_append {engine middle : RfofsEngine R} {before : List (EngineCall R)}
    (ran : engine.run before = some middle) (after : List (EngineCall R)) :
    engine.run (before ++ after) = middle.run after := by
  rw [run] at ran
  rw [run, List.foldlM_append, ran]
  rfl

end RfofsEngine

section Calls

variable [Field R] [LinearOrder R] [FloorRing R] [RealOps R]
variable {engine : RfofsEngine R} {slots : List (Nat × Voice R)}

/-- The slots just before and just behind a block.  The choice of keys occurs in the slots,
not in the voices. -/
theorem Sound.block (sound : Sound engine slots) (choice : KeyChoice) (blockSize : Nat) :
    ∃ ready next, engine.ready choice blockSize = some ready ∧
      (engine.drained blockSize).Frame ready ∧ Represents ready next ∧
      next.map Prod.fst = slots.map Prod.fst ++
        spawnKeys choice (engine.drained blockSize) (engine.incoming blockSize) ∧
      next.map Prod.snd = roused engine.sampleRate (engine.incoming blockSize)
        engine.pendingKills (slots.map Prod.snd) ∧
      ∀ outputs, engine.processBlock choice outputs blockSize =
          some (ready.finish blockSize outputs) ∧
        Sound (ready.finish blockSize outputs).1
          (sweptSlots (eachVoice (Voice.fill engine.sampleClock blockSize) next)) := by
  rcases sound.represents.ready choice blockSize with
    ⟨ready, next, prepared, frame, represents, keys, voices⟩
  have clock : ready.sampleClock = engine.sampleClock := frame.sampleClock
  refine ⟨ready, next, prepared, frame, represents, keys, voices, fun outputs =>
    ⟨RfofsEngine.processBlock_eq prepared clock outputs, ?_, ?_⟩⟩
  · rw [← clock]
    exact represents.finish blockSize outputs
  · have wheels : (ready.finish blockSize outputs).1.wheels =
        (drainWheels engine.sampleClock blockSize engine.wheels []).1 := frame.wheels
    rw [wheels]
    exact sound.accounted.drain _ _

/-- No call panics. -/
theorem Sound.call (sound : Sound engine slots) (call : EngineCall R) :
    ∃ next nextSlots, engine.call call = some next ∧ Sound next nextSlots := by
  cases call with
  | clock sample => exact ⟨_, slots, rfl, sound.represents.frame rfl rfl, sound.accounted⟩
  | submit index params =>
      rcases sound.accounted.submit index params with ⟨wheels, accounted, same⟩
      refine ⟨_, slots, congrArg some same, sound.represents.frame rfl rfl, accounted⟩
  | kill req =>
      rcases engine.submitKill_getD req with ⟨killRx, same⟩
      exact ⟨_, slots, congrArg some same, sound.represents.frame rfl rfl, sound.accounted⟩
  | block choice outputs blockSize =>
      rcases sound.block choice blockSize with ⟨ready, next, _, _, _, _, _, finished⟩
      rcases finished outputs with ⟨processed, done⟩
      exact ⟨_, _, congrArg (Option.map Prod.fst) processed, done⟩

/-- No run panics.  By induction on the calls, every state reached has slots that represent
it. -/
theorem Sound.run (sound : Sound engine slots) (calls : List (EngineCall R)) :
    ∃ final finalSlots, engine.run calls = some final ∧ Sound final finalSlots := by
  induction calls generalizing engine slots with
  | nil => exact ⟨engine, slots, rfl, sound⟩
  | cons call calls ih =>
      rcases sound.call call with ⟨next, nextSlots, called, nextSound⟩
      rw [RfofsEngine.run_cons called]
      exact ih nextSound

/-- What holds of old grains, of spawned ones and is kept by kills holds just before a
block. -/
theorem roused_forall {P : FofState R → Prop} {sampleRate : R} {incoming : List (FofParams R)}
    {kills : List (FofKillRequest R)} {voices : List (Voice R)}
    (old : ∀ voice ∈ voices, P voice.grain)
    (spawned : ∀ params ∈ incoming, P (FofState.spawn params sampleRate))
    (killed : ∀ grain fadeDur, P grain → P (grain.triggerFadeOut fadeDur)) :
    ∀ voice ∈ roused sampleRate incoming kills voices, P voice.grain := by
  have enlisted : ∀ voice ∈ incoming.foldl (enlist sampleRate) voices, P voice.grain := by
    induction incoming generalizing voices with
    | nil => exact old
    | cons params incoming ih =>
        apply ih _ (fun later member => spawned later (List.mem_cons_of_mem _ member))
        intro voice member
        rcases List.mem_append.mp member with kept | new
        · rcases List.mem_map.mp kept with ⟨before, listed, rfl⟩
          rw [Voice.unmark_grain]
          exact old before listed
        · rw [List.mem_singleton.mp new]
          exact spawned params List.mem_cons_self
  unfold roused
  generalize incoming.foldl (enlist sampleRate) voices = voices at enlisted ⊢
  induction kills generalizing voices with
  | nil => exact enlisted
  | cons req kills ih =>
      apply ih
      intro voice member
      rcases List.mem_map.mp member with ⟨before, listed, rfl⟩
      unfold Voice.kill
      split
      · exact killed _ _ (enlisted before listed)
      · exact enlisted before listed

end Calls

end Engine
end Rfofs
