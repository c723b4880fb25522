import Rfofs.Engine.Engine
import Rfofs.Queue.Ledger

namespace Rfofs
namespace Engine

open Foundation
open Grain
open Queue

/-!
# Sessions of one producer

An engine with one wheel, and what an observer writes down: the ledger of the queue,
and every spawned request with the start of the block that spawned it.  The calls of
a session are pushes, kill requests and blocks that follow one another.

`Live` ties the engine to the ledger, and `Later` says how a session moves on: the
clocks do not go back, and what is spawned next lies in slots that had not elapsed.
-/

variable {R : Type*}

/-- An engine with one wheel, and beside it what an observer has written down. -/
structure Session (R : Type*) where
  engine : RfofsEngine R
  ledger : Ledger R
  spawned : List (FofParams R × Nat)

inductive SessionCall (R : Type*) where
  | push (params : FofParams R)
  | kill (req : FofKillRequest R)
  | block (choice : KeyChoice) (outputs : List (List R))

/-- A wheel of a given geometry, with or without a sink for its statistics. -/
def freshWheel (ingressCapacity : Nat) (g : Geometry) (recorded : Bool) : TimeWheelConsumer R :=
  let wheel := timeWheel ingressCapacity g.slots g.duration g.capacity g.slots_pos g.duration_pos
  if recorded then wheel.attachStats QueueStats.default else wheel

namespace Session

/-- Nothing has been pushed, and the clock may have been set to any value. -/
def start (sampleRate : R) (panMode : PanMode) (wheel : TimeWheelConsumer R)
    (killCapacity clock : Nat) : Session R where
  engine := (RfofsEngine.new sampleRate panMode [wheel] (killQueue killCapacity)).setSampleClock clock
  ledger := Ledger.empty
  spawned := []

/-- Write a push down.  The engine is the one that the push has left. -/
def recordPush (state : Session R) (engine : RfofsEngine R) (params : FofParams R) : Session R where
  engine := engine
  ledger := { state.ledger with pushed := state.ledger.pushed ++ [params] }
  spawned := state.spawned

/-- Write a block down: its verdicts, and what it fired and spawned.  They are read from the
state before the block. -/
def recordBlock (state : Session R) (engine : RfofsEngine R) (blockSize : Nat) : Session R where
  engine := engine
  ledger := { state.ledger with
    log := state.ledger.log ++ state.engine.wheels.flatMap (·.blockVerdicts)
    fired := state.ledger.fired ++ state.engine.incoming blockSize }
  spawned := state.spawned ++
    (state.engine.incoming blockSize).map (fun params => (params, state.engine.sampleClock))

/-- The producer pushes; `none` when its ring is full. -/
def push (state : Session R) (params : FofParams R) : Option (Session R) :=
  (state.engine.submit 0 params).map (fun engine => state.recordPush engine params)

variable [Field R] [LinearOrder R] [FloorRing R] [RealOps R]

def block (choice : KeyChoice) (state : Session R) (outputs : List (List R)) (blockSize : Nat) :
    Option (Session R × List (List R)) :=
  (state.engine.processBlock choice outputs blockSize).map (fun processed =>
    (state.recordBlock processed.1 blockSize, processed.2))

/-- A refused push or kill request leaves the session as it is. -/
def call (blockSize : Nat) (state : Session R) : SessionCall R → Option (Session R)
  | .push params => some ((state.push params).getD state)
  | .kill req => some { state with engine := (state.engine.submitKill req).getD state.engine }
  | .block choice outputs => (state.block choice outputs blockSize).map Prod.fst

def run (blockSize : Nat) (state : Session R) (calls : List (SessionCall R)) :
    Option (Session R) :=
  calls.foldlM (call blockSize) state

end Session

/-! ## The engine and its ledger -/

/-- The engine holds what the ledger says, and its pool is in order. -/
structure Live (g : Geometry) (consumer : TimeWheelConsumer R) (state : Session R) : Prop where
  wheels : state.engine.wheels = [consumer]
  tracked : Tracked state.engine.active state.engine.idMap
  balanced : Balanced g consumer state.ledger
  fired : state.ledger.fired = state.spawned.map Prod.fst
  late : ∀ params ∈ rejectedFor .tooLate state.ledger.log,
    params.startSample < consumer.wheel.wheelTime

namespace Live

variable {g : Geometry} {consumer : TimeWheelConsumer R} {state : Session R}

theorem start (sampleRate : R) (panMode : PanMode) (ingressCapacity : Nat) (g : Geometry)
    (recorded : Bool) (killCapacity clock : Nat) :
    Live g (freshWheel ingressCapacity g recorded) (Session.start sampleRate panMode
      (freshWheel ingressCapacity g recorded) killCapacity clock) where
  wheels := rfl
  tracked := Tracked.empty
  balanced := by
    cases recorded with
    | false => exact timeWheel_balanced ingressCapacity g
    | true => exact attachStats_balanced ingressCapacity g
  fired := rfl
  late := nofun

/-- A push appends to the ring and to the ledger, or is refused at a full ring. -/
theorem push (live : Live g consumer state) (params : FofParams R) :
    (∃ rx engine, engine = { state.engine with wheels := [{ consumer with rx := rx }] } ∧
      state.push params = some (state.recordPush engine params) ∧
      rx.items = consumer.rx.items ++ [params] ∧ rx.capacity = consumer.rx.capacity ∧
      Live g { consumer with rx := rx } (state.recordPush engine params)) ∨
    (state.push params = none ∧ consumer.rx.items.length = consumer.rx.capacity) := by
  unfold Session.push RfofsEngine.submit
  rw [live.wheels, List.getElem?_cons_zero, Option.bind_some]
  rcases consumer.push_cases params with ⟨rx, equal, items, capacity⟩ | ⟨equal, full⟩
  · rw [equal]
    exact Or.inl ⟨rx, _, rfl, rfl, items, capacity,
      ⟨rfl, live.tracked, live.balanced.push equal, live.fired, live.late⟩⟩
  · rw [equal]
    exact Or.inr ⟨rfl, full⟩

theorem submitKill (live : Live g consumer state) (req : FofKillRequest R) :
    Live g consumer
      { state with engine := (state.engine.submitKill req).getD state.engine } ∧
    ((state.engine.submitKill req).getD state.engine).sampleClock = state.engine.sampleClock ∧
    ((state.engine.submitKill req).getD state.engine).sampleRate = state.engine.sampleRate := by
  unfold RfofsEngine.submitKill
  cases state.engine.killRx.push req with
  | ok next => exact ⟨⟨live.wheels, live.tracked, live.balanced, live.fired, live.late⟩, rfl, rfl⟩
  | error refused => exact ⟨live, rfl, rfl⟩

theorem incoming_eq (live : Live g consumer state) (blockSize : Nat) :
    state.engine.incoming blockSize =
      (consumer.drainBlockSafe state.engine.sampleClock blockSize []).2 := by
  rw [RfofsEngine.incoming, live.wheels]
  rfl

/-- What a block fires has not elapsed before it. -/
theorem mem_incoming (live : Live g consumer state) {blockSize : Nat} {params : FofParams R}
    (member : params ∈ state.engine.incoming blockSize) :
    consumer.wheel.slotIndex ≤ slotNumber g params := by
  rw [live.incoming_eq, TimeWheelConsumer.drainBlockSafe_fires live.balanced.wheel] at member
  exact (mem_orderedFrom.mp member).2.1

/-- The clock of the wheel after a block. -/
theorem drain_slotIndex (live : Live g consumer state) (blockStart blockSize : Nat) :
    (consumer.drainBlockSafe blockStart blockSize []).1.wheel.slotIndex =
      max consumer.wheel.slotIndex ((blockStart + blockSize) / g.duration) :=
  TimeWheelConsumer.drainBlockSafe_slotIndex live.balanced.wheel blockStart blockSize []

theorem recordBlock_log (live : Live g consumer state) (engine : RfofsEngine R)
    (blockSize : Nat) :
    (state.recordBlock engine blockSize).ledger.log =
      state.ledger.log ++ consumer.blockVerdicts := by
  rw [Session.recordBlock, live.wheels, List.flatMap_singleton]

variable [Field R] [LinearOrder R] [FloorRing R] [RealOps R]

/-- A block never panics. -/
theorem block (live : Live g consumer state) (choice : KeyChoice) (outputs : List (List R))
    (blockSize : Nat) :
    ∃ engine rendered,
      state.engine.processBlock choice outputs blockSize = some (engine, rendered) ∧
      state.block choice outputs blockSize = some (state.recordBlock engine blockSize, rendered) ∧
      state.engine.BlockDone engine blockSize ∧
      rendered.map List.length = outputs.map List.length ∧
      Live g (consumer.drainBlockSafe state.engine.sampleClock blockSize []).1
        (state.recordBlock engine blockSize) := by
  rcases RfofsEngine.processBlock_total choice live.tracked outputs blockSize with
    ⟨engine, rendered, processed, done, lengths⟩
  have log := live.recordBlock_log engine blockSize
  have drained := live.balanced.drain state.engine.sampleClock blockSize
  have late := live.balanced.drain_late state.engine.sampleClock blockSize live.late
  rw [TimeWheelConsumer.drainBlockSafe_out, ← live.incoming_eq, ← log] at drained
  rw [TimeWheelConsumer.drainBlockSafe_out, ← log] at late
  refine ⟨engine, rendered, processed, ?_, done, lengths, ?_, done.tracked, drained, ?_, late⟩
  · rw [Session.block, processed, Option.map_some]
  · change engine.wheels = _
    rw [done.wheels, live.wheels]
    rfl
  · change state.ledger.fired ++ _ = List.map Prod.fst (state.spawned ++ List.map _ _)
    rw [List.map_append, ← live.fired, List.map_map]
    exact congrArg (state.ledger.fired ++ ·) (List.map_id _).symm

end Live

/-! ## What comes later -/

/-- How a session moves on: the clocks go forward, and what is spawned comes from slots that
had not elapsed. -/
structure Later (g : Geometry) (consumer next : TimeWheelConsumer R)
    (state final : Session R) : Prop where
  slotIndex : consumer.wheel.slotIndex ≤ next.wheel.slotIndex
  clock : state.engine.sampleClock ≤ final.engine.sampleClock
  spawned : ∃ entries, final.spawned = state.spawned ++ entries ∧ ∀ entry ∈ entries,
    consumer.wheel.slotIndex ≤ slotNumber g entry.1 ∧ state.engine.sampleClock ≤ entry.2

theorem Later.refl (g : Geometry) (consumer : TimeWheelConsumer R) (state : Session R) :
    Later g consumer consumer state state :=
  ⟨Nat.le_refl _, Nat.le_refl _, [], (List.append_nil _).symm, nofun⟩

theorem Later.trans {g : Geometry} {consumer middle next : TimeWheelConsumer R}
    {state between final : Session R} (first : Later g consumer middle state between)
    (second : Later g middle next between final) : Later g consumer next state final := by
  rcases first.spawned with ⟨entries, spawned, ahead⟩
  rcases second.spawned with ⟨more, moreSpawned, moreAhead⟩
  refine ⟨first.slotIndex.trans second.slotIndex, first.clock.trans second.clock,
    entries ++ more, ?_, ?_⟩
  · rw [moreSpawned, spawned, List.append_assoc]
  · intro entry member
    rcases List.mem_append.mp member with old | new
    · exact ahead entry old
    · exact ⟨first.slotIndex.trans (moreAhead entry new).1, first.clock.trans (moreAhead entry new).2⟩

section Runs

variable [Field R] [LinearOrder R] [FloorRing R] [RealOps R]
variable {g : Geometry} {consumer : TimeWheelConsumer R} {state : Session R}

theorem Live.call (live : Live g consumer state) (blockSize : Nat) (call : SessionCall R) :
    ∃ next final, state.call blockSize call = some final ∧ Live g next final ∧
      Later g consumer next state final := by
  cases call with
  | push params =>
      simp only [Session.call]
      rcases live.push params with ⟨rx, engine, rfl, pushed, _, _, nextLive⟩ | ⟨refused, _⟩
      · rw [pushed]
        refine ⟨_, _, rfl, nextLive, ?_⟩
        exact ⟨Nat.le_refl _, Nat.le_refl _, [], (List.append_nil _).symm, nofun⟩
      · rw [refused]
        exact ⟨consumer, state, rfl, live, Later.refl g consumer state⟩
  | kill req =>
      rcases live.submitKill req with ⟨nextLive, clock, _⟩
      exact ⟨consumer, _, rfl, nextLive,
        ⟨Nat.le_refl _, le_of_eq clock.symm, [], (List.append_nil _).symm, nofun⟩⟩
  | block choice outputs =>
      rcases live.block choice outputs blockSize with
        ⟨engine, rendered, _, blocked, done, _, nextLive⟩
      simp only [Session.call]
      rw [blocked]
      refine ⟨_, _, rfl, nextLive, ?_, ?_, _, rfl, ?_⟩
      · rw [live.drain_slotIndex]
        exact Nat.le_max_left _ _
      · change state.engine.sampleClock ≤ engine.sampleClock
        rw [done.sampleClock]
        exact Nat.le_add_right _ _
      · intro entry member
        rcases List.mem_map.mp member with ⟨params, fired, rfl⟩
        exact ⟨live.mem_incoming fired, Nat.le_refl _⟩

/-- A session never panics.  It stays live, and every state is later than the ones before. -/
theorem Live.run (live : Live g consumer state) (blockSize : Nat) (calls : List (SessionCall R)) :
    ∃ next final, state.run blockSize calls = some final ∧ Live g next final ∧
      Later g consumer next state final := by
  induction calls generalizing consumer state with
  | nil => exact ⟨consumer, state, rfl, live, Later.refl g consumer state⟩
  | cons call calls ih =>
      rcases live.call blockSize call with ⟨middle, between, called, middleLive, first⟩
      rcases ih middleLive with ⟨next, final, ran, nextLive, second⟩
      refine ⟨next, final, ?_, nextLive, first.trans second⟩
      rw [Session.run, List.foldlM_cons, called]
      exact ran

end Runs

end Engine
end Rfofs
