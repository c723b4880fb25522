import Rfofs.Control.Serial
import Rfofs.Engine.Ensemble
import Rfofs.Engine.Process

namespace Rfofs
namespace Control

open Foundation
open Grain
open Queue
open Engine

/-!
# The whole server

The control plane together with the engine that the audio thread owns.  The callback
reads the clock mode that a client may have switched, admits, advances and drains while the
client and the bridging thread go on, and ends by spawning, killing and rendering into
zeroed ports.

Every run is heard as a serial run of calls on one engine: a push or a kill request where
the bridging thread forwards it, and a whole block where the callback ends.  A grain that is
forwarded while the callback drains the kill queue finds the wheel drained already; in the
serial run it waits until the block is over.
-/

variable {R : Type*}

/-! ## The server -/

/-- The queues of the engine are those of the control plane.  `nFrames` belongs to the block
that was begun last.  The last three fields are the observer's: how many of the fired grains
have been spawned and of the drained requests applied, and what has been heard. -/
structure ServerProcess (R : Type*) where
  plane : ControlPlane R
  engine : RfofsEngine R
  control : ControlBlock
  clockMode : ClockMode
  nFrames : Nat
  spawned : Nat
  applied : Nat
  heard : List (Heard R)

/-- The steps of the client, of the bridging thread and of the audio callback; a block is made
up of several. -/
inductive ServerStep (R : Type*) where
  | addFof (params : FofParams R)
  | kill (req : FofKillRequest R)
  | setClockMode (mode : Nat)
  | bridge
  | beginBlock (cycle : Cycle)
  | admitNext
  | advance
  | drainKill
  | endBlock (choice : KeyChoice)

namespace ServerProcess

def start (sampleRate : R) (panMode : PanMode) (ingressCapacity : Nat) (g : Geometry)
    (clockMode : ClockMode) : ServerProcess R where
  plane := .start ingressCapacity g
  engine := RfofsEngine.new sampleRate panMode [] (killQueue 0)
  control := ⟨clockMode.asU32, 0⟩
  clockMode := clockMode
  nFrames := 0
  spawned := 0
  applied := 0
  heard := []

/-- What the choice of the clock depends on. -/
def server (s : ServerProcess R) : Server R := ⟨⟨s.engine, Ledger.empty, []⟩, s.control, s.clockMode⟩

/-- What has been drained from the wheel and not been spawned.  Spawning comes after all
draining. -/
def incoming (s : ServerProcess R) : List (FofParams R) := s.plane.fired.drop s.spawned

/-- What has been drained from the kill queue and not been applied. -/
def killRequests (s : ServerProcess R) : List (FofKillRequest R) :=
  s.plane.drainedKills.drop s.applied

/-- A step of the control plane that the engine takes no part in. -/
def planeStep (s : ServerProcess R) (label : ControlStep R) : Option (ServerProcess R) :=
  (s.plane.step label).map (fun plane => { s with plane := plane })

/-- Set the clock of the engine, and begin to drain for the block. -/
def beginBlock (s : ServerProcess R) (cycle : Cycle) : Option (ServerProcess R) :=
  (s.plane.step (.beginBlock (s.server.blockStart cycle) cycle.nFrames)).map (fun plane =>
    { s with
      plane := plane
      engine := s.engine.setSampleClock (s.server.blockStart cycle)
      nFrames := cycle.nFrames })

section Blocks

variable [Field R] [LinearOrder R] [FloorRing R] [RealOps R]

def ports (s : ServerProcess R) : List (List R) := silence s.engine.panMode.channelCount s.nFrames

/-- The engine just before it renders; `none` is a panic. -/
def ready (choice : KeyChoice) (s : ServerProcess R) : Option (RfofsEngine R) :=
  s.killRequests.foldlM RfofsEngine.kill (s.incoming.foldl (RfofsEngine.spawn choice) s.engine)

/-- Render the block, and publish the clock behind it. -/
def finishBlock (s : ServerProcess R) (plane : ControlPlane R) (ready : RfofsEngine R) :
    ServerProcess R :=
  let done := ready.finish s.nFrames s.ports
  { s with
    plane := plane
    engine := done.1
    control := { s.control with currentSample := done.1.sampleClock }
    spawned := plane.fired.length
    applied := plane.drainedKills.length
    heard := s.heard ++ [⟨done.2, done.1.activeCount⟩] }

def endBlock (choice : KeyChoice) (s : ServerProcess R) : Option (ServerProcess R) :=
  (s.plane.step .endBlock).bind (fun plane => (s.ready choice).map (s.finishBlock plane))

/-- One step of one agent, if the agent is ready for it. -/
def step (s : ServerProcess R) : ServerStep R → Option (ServerProcess R)
  | .addFof params => s.planeStep (.addFof params)
  | .kill req => s.planeStep (.kill req)
  | .setClockMode mode => some { s with control := (s.control.setClockMode mode).1 }
  | .bridge => s.planeStep .bridge
  | .beginBlock cycle => s.beginBlock cycle
  | .admitNext => s.planeStep .admitNext
  | .advance => s.planeStep .advance
  | .drainKill => s.planeStep .drainKill
  | .endBlock choice => s.endBlock choice

end Blocks

end ServerProcess

/-! ## The serial run -/

namespace ControlPlane

/-- The grain that the bridging thread is about to push with success.  There is at most one. -/
def forwardedFofs (s : ControlPlane R) : List (FofParams R) :=
  match s.bridge with
  | .pushFof params =>
      match s.wheelRx.push params with
      | .ok _ => [params]
      | .error _ => []
  | _ => []

/-- The kill request that the bridging thread is about to push with success. -/
def forwardedKills (s : ControlPlane R) : List (FofKillRequest R) :=
  match s.bridge with
  | .pushKill req =>
      match s.killRx.push req with
      | .ok _ => [req]
      | .error _ => []
  | _ => []

theorem serialCall_bridge (s : ControlPlane R) (block : Nat × Nat) :
    s.serialCall block .bridge = s.forwardedFofs.map .push := by
  unfold serialCall forwardedFofs
  cases s.bridge with
  | pushFof params =>
      dsimp only
      cases s.wheelRx.push params <;> rfl
  | popFof => rfl
  | popKill => rfl
  | pushKill req => rfl

/-- The bridging thread appends what it forwards to the queues of the engine. -/
theorem bridgeStep_queues (s : ControlPlane R) :
    s.bridgeStep.wheelRx.rx.items = s.wheelRx.rx.items ++ s.forwardedFofs ∧
      s.bridgeStep.killRx.rx.items = s.killRx.rx.items ++ s.forwardedKills := by
  unfold bridgeStep forwardedFofs forwardedKills
  cases s.bridge with
  | popFof =>
      dsimp only
      split <;> exact ⟨(List.append_nil _).symm, (List.append_nil _).symm⟩
  | popKill =>
      dsimp only
      split <;> exact ⟨(List.append_nil _).symm, (List.append_nil _).symm⟩
  | pushFof params =>
      dsimp only
      rcases s.wheelRx.push_cases params with ⟨rx, equal, items, _⟩ | ⟨equal, _⟩
      · rw [equal]
        exact ⟨items, (List.append_nil _).symm⟩
      · rw [equal]
        exact ⟨(List.append_nil _).symm, (List.append_nil _).symm⟩
  | pushKill req =>
      dsimp only
      rcases s.killRx.push_cases req with ⟨rx, equal, items, _⟩ | ⟨equal, _⟩
      · rw [equal]
        exact ⟨(List.append_nil _).symm, items⟩
      · rw [equal]
        exact ⟨(List.append_nil _).symm, (List.append_nil _).symm⟩

/-- The bridging thread leaves everything behind these queues alone. -/
theorem bridgeStep_frame (s : ControlPlane R) :
    s.bridgeStep.audio = s.audio ∧ s.bridgeStep.fired = s.fired ∧
      s.bridgeStep.drainedKills = s.drainedKills ∧ s.bridgeStep.log = s.log ∧
      s.bridgeStep.wheelRx.wheel = s.wheelRx.wheel := by
  unfold bridgeStep
  cases s.bridge with
  | popFof =>
      dsimp only
      split <;> exact ⟨rfl, rfl, rfl, rfl, rfl⟩
  | popKill =>
      dsimp only
      split <;> exact ⟨rfl, rfl, rfl, rfl, rfl⟩
  | pushFof params =>
      dsimp only
      rcases s.wheelRx.push_cases params with ⟨rx, equal, _⟩ | ⟨equal, _⟩
      · rw [equal]
        exact ⟨rfl, rfl, rfl, rfl, rfl⟩
      · rw [equal]
        exact ⟨rfl, rfl, rfl, rfl, rfl⟩
  | pushKill req =>
      dsimp only
      split <;> exact ⟨rfl, rfl, rfl, rfl, rfl⟩

end ControlPlane

namespace ServerProcess

variable [Field R] [LinearOrder R] [FloorRing R] [RealOps R]

/-- The calls that a step stands for, and the forwarded grains that wait for the end of the
block after it. -/
def serialize (s : ServerProcess R) (held : List (FofParams R)) :
    ServerStep R → List (EngineCall R) × List (FofParams R)
  | .bridge =>
      match s.plane.audio with
      | .drainingKills =>
          (s.plane.forwardedKills.map .kill, held ++ s.plane.forwardedFofs)
      | _ =>
          (s.plane.forwardedFofs.map (.submit 0) ++ s.plane.forwardedKills.map .kill, held)
  | .endBlock choice =>
      (.clock s.engine.sampleClock :: .block choice s.ports s.nFrames :: held.map (.submit 0), [])
  | _ => ([], held)

/-- The calls that a run stands for.  Steps that are not enabled are skipped, and a grain that
is forwarded behind the drain comes after the block. -/
def engineCalls (s : ServerProcess R) (held : List (FofParams R)) :
    List (ServerStep R) → List (EngineCall R)
  | [] => held.map (.submit 0)
  | label :: labels =>
      match s.step label with
      | none => engineCalls s held labels
      | some next =>
          (s.serialize held label).1 ++ engineCalls next (s.serialize held label).2 labels

end ServerProcess

end Control
end Rfofs
