import Rfofs.Engine.Session

namespace Rfofs
namespace Engine

open Foundation
open Grain
open Queue

/-!
# The process callback

Once in every cycle the audio server reads the selected time source, sets the clock
of the engine to it, renders one block into zeroed ports and publishes the clock
behind the block.  Clients read the published clock, choose their onsets relative to
it, and may switch the time source.

What the time sources report is an argument of the cycle: nothing here relates one
report to the next.  A query of the transport may fail, and then the clock of the
engine runs on.
-/

variable {R : Type*}

/-- Which time source supplies the clock of a block.  The numbers of the modes are those of
the shared control block. -/
inductive ClockMode where
  | jackFrameTime
  | jackTransport
  deriving DecidableEq, Repr

namespace ClockMode

def asU32 : ClockMode → Nat
  | .jackFrameTime => 1
  | .jackTransport => 2

def fromU32 : Nat → Option ClockMode
  | 1 => some .jackFrameTime
  | 2 => some .jackTransport
  | _ => none

theorem fromU32_asU32 (mode : ClockMode) : fromU32 mode.asU32 = some mode := by
  cases mode <;> rfl

end ClockMode

/-- The words of the shared control block that the callback reads and writes.  Other processes
read and write them as well. -/
structure ControlBlock where
  clockMode : Nat
  currentSample : Nat

/-- A value that names no mode is refused and changes nothing. -/
def ControlBlock.setClockMode (block : ControlBlock) (mode : Nat) : ControlBlock × Bool :=
  if (ClockMode.fromU32 mode).isNone then (block, false)
  else ({ block with clockMode := mode }, true)

/-- What one cycle is given.  The transport position is `none` when its query fails. -/
structure Cycle where
  nFrames : Nat
  frameTime : Nat
  transport : Option Nat

/-- The server: its engine with the ledger, the control block, and the mode that was
selected at startup. -/
structure Server (R : Type*) where
  session : Session R
  control : ControlBlock
  clockMode : ClockMode

namespace Server

def create (session : Session R) (clockMode : ClockMode) : Server R where
  session := session
  control := ⟨clockMode.asU32, 0⟩
  clockMode := clockMode

/-- A stored value that names no mode falls back to the mode of the startup.  The word is read
again in every cycle. -/
def activeClockMode (server : Server R) : ClockMode :=
  (ClockMode.fromU32 server.control.clockMode).getD server.clockMode

/-- A mode that a client sets is the mode of the next block. -/
theorem activeClockMode_setClockMode (server : Server R) (mode : ClockMode) :
    Server.activeClockMode { server with
      control := (server.control.setClockMode mode.asU32).1 } = mode := by
  have named := mode.fromU32_asU32
  rw [activeClockMode, ControlBlock.setClockMode, named]
  change (ClockMode.fromU32 mode.asU32).getD server.clockMode = mode
  rw [named]
  rfl

/-- The clock of the block: the free-running clock, the frame counter or the transport
position. -/
def blockStart (server : Server R) (cycle : Cycle) : Nat :=
  match server.activeClockMode with
  | .jackFrameTime => cycle.frameTime
  | .jackTransport => cycle.transport.getD server.session.engine.sampleClock

/-- The bridging thread forwards a request; a refused one is dropped. -/
def push (server : Server R) (params : FofParams R) : Server R :=
  { server with session := (server.session.push params).getD server.session }

/-- The bridging thread forwards a kill request; a refused one is dropped. -/
def pushKill (server : Server R) (req : FofKillRequest R) : Server R :=
  { server with
    session := { server.session with
      engine := (server.session.engine.submitKill req).getD server.session.engine } }

/-- The session with the clock of its engine set to the start of the block.  Nothing is
drained or rendered yet. -/
def resynced (server : Server R) (cycle : Cycle) : Session R :=
  { server.session with
    engine := server.session.engine.setSampleClock (server.blockStart cycle) }

/-- The server after a block.  The published clock is that of the end of the block. -/
def publish (server : Server R) (session : Session R) : Server R :=
  { server with
    session := session
    control := { server.control with currentSample := session.engine.sampleClock } }

section Process

variable [Field R] [LinearOrder R] [FloorRing R] [RealOps R]

/-- One cycle: the server after it, and the ports.  The ports are zeroed before the engine
adds to them. -/
def process (choice : KeyChoice) (server : Server R) (cycle : Cycle) :
    Option (Server R × List (List R)) :=
  let ports := List.replicate server.session.engine.panMode.channelCount
    (List.replicate cycle.nFrames 0)
  ((server.resynced cycle).block choice ports cycle.nFrames).map (fun processed =>
    (server.publish processed.1, processed.2))

end Process

end Server

/-! ## The server and its ledger -/

namespace Live

variable {g : Geometry} {consumer : TimeWheelConsumer R}

/-- Setting the clock leaves the queue and the pool alone. -/
theorem setSampleClock {state : Session R} (live : Live g consumer state) (sample : Nat) :
    Live g consumer { state with engine := state.engine.setSampleClock sample } :=
  ⟨live.wheels, live.tracked, live.balanced, live.fired, live.late⟩

/-- A forwarded request is behind everything that waits, or was dropped. -/
theorem serverPush {server : Server R} (live : Live g consumer server.session)
    (params : FofParams R) :
    ∃ next, Live g next (server.push params).session ∧ next.wheel = consumer.wheel ∧
      (∃ more, next.rx.items = consumer.rx.items ++ more ∧
        ((server.session.push params).isSome → more = [params])) ∧
      (server.push params).session.ledger.log = server.session.ledger.log ∧
      (server.push params).control = server.control := by
  unfold Server.push
  rcases live.push params with ⟨rx, engine, rfl, pushed, items, _, nextLive⟩ | ⟨refused, _⟩
  · rw [pushed]
    exact ⟨_, nextLive, rfl, ⟨_, items, fun _ => rfl⟩, rfl, rfl⟩
  · rw [refused]
    exact ⟨consumer, live, rfl, ⟨[], (List.append_nil _).symm, nofun⟩, rfl, rfl⟩

theorem serverKill {server : Server R} (live : Live g consumer server.session)
    (req : FofKillRequest R) : Live g consumer (server.pushKill req).session :=
  (live.submitKill req).1

variable [Field R] [LinearOrder R] [FloorRing R] [RealOps R]

/-- A cycle never panics.  It drains the queue for its block and publishes the end of
the block. -/
theorem process {server : Server R} (live : Live g consumer server.session)
    (choice : KeyChoice) (cycle : Cycle) :
    ∃ next ports, server.process choice cycle = some (next, ports) ∧
      Live g (consumer.drainBlockSafe (server.blockStart cycle) cycle.nFrames []).1 next.session ∧
      next.session.ledger.log = server.session.ledger.log ++ consumer.blockVerdicts ∧
      next.clockMode = server.clockMode ∧
      next.control = ⟨server.control.clockMode, server.blockStart cycle + cycle.nFrames⟩ := by
  have resynced := live.setSampleClock (server.blockStart cycle)
  rcases resynced.block choice (List.replicate server.session.engine.panMode.channelCount
    (List.replicate cycle.nFrames 0)) cycle.nFrames with
    ⟨engine, rendered, _, blocked, done, _, nextLive⟩
  refine ⟨server.publish ((server.resynced cycle).recordBlock engine cycle.nFrames), rendered,
    ?_, nextLive, resynced.recordBlock_log engine cycle.nFrames, rfl, ?_⟩
  · unfold Server.process
    exact Option.map_eq_some_iff.mpr ⟨_, blocked, rfl⟩
  · change ControlBlock.mk _ engine.sampleClock = _
    rw [done.sampleClock]
    rfl

end Live

end Engine
end Rfofs
