import Rfofs.Control.ServerProcess

namespace Rfofs
namespace Control

open Foundation
open Grain
open Queue
open Engine

/-!
# The serial run beside the server

The serial run is a queue with its ledger and an engine that is called in turn.  `Mirrors`
relates them to the server: the queue is that of the control plane with a ring that is long
enough, and the engine is that of the server at other queues.  Each step of the server is
followed by the calls it stands for.
-/

variable {R : Type*}

/-! ## One engine on two sets of queues -/

/-- The wheel after a push; a refused grain is dropped. -/
def offer (wheel : TimeWheelConsumer R) (params : FofParams R) : TimeWheelConsumer R :=
  match wheel.push params with
  | .ok next => next
  | .error _ => wheel

theorem offer_eq_observe (q : TimeWheelConsumer R × Ledger R) (params : FofParams R) :
    (observe q (.push params)).1 = offer q.1 params := by
  unfold observe offer
  dsimp only
  cases q.1.push params <;> rfl

theorem pushTo_single (wheel : TimeWheelConsumer R) (params : FofParams R) :
    pushTo 0 params [wheel] = [offer wheel params] := by
  unfold pushTo offer
  rw [List.getElem?_cons_zero]
  dsimp only
  cases wheel.push params <;> rfl

/-- The engine at the receiving ends of other queues.  The pool, the map and the clock are its
own. -/
def onQueues (wheels : List (TimeWheelConsumer R)) (killRx : KillQueueConsumer R)
    (engine : RfofsEngine R) : RfofsEngine R :=
  { engine with wheels := wheels, killRx := killRx }

section Queues

variable [Field R] [LinearOrder R] [FloorRing R] [RealOps R]
  (wheels : List (TimeWheelConsumer R)) (killRx : KillQueueConsumer R)

/-- Spawning does not look at the queues. -/
theorem onQueues_spawn (choice : KeyChoice) (engine : RfofsEngine R)
    (requests : List (FofParams R)) :
    requests.foldl (RfofsEngine.spawn choice) (onQueues wheels killRx engine) =
      onQueues wheels killRx (requests.foldl (RfofsEngine.spawn choice) engine) := by
  induction requests generalizing engine with
  | nil => rfl
  | cons params requests ih => exact ih (engine.spawn choice params)

theorem onQueues_kill (engine : RfofsEngine R) (req : FofKillRequest R) :
    (onQueues wheels killRx engine).kill req = (engine.kill req).map (onQueues wheels killRx) := by
  have same : (onQueues wheels killRx engine).idMap = engine.idMap := rfl
  cases known : engine.idMap req.id with
  | none => simp only [RfofsEngine.kill, same, known, Option.map_some]
  | some idx =>
      simp only [RfofsEngine.kill, same, known]
      change (if idx ∈ engine.active.keys then _ else _) = _
      split <;> rfl

theorem onQueues_kills (engine : RfofsEngine R) (requests : List (FofKillRequest R)) :
    requests.foldlM RfofsEngine.kill (onQueues wheels killRx engine) =
      (requests.foldlM RfofsEngine.kill engine).map (onQueues wheels killRx) := by
  induction requests generalizing engine with
  | nil => rfl
  | cons req requests ih =>
      rw [List.foldlM_cons, List.foldlM_cons, onQueues_kill]
      cases engine.kill req with
      | none => rfl
      | some killed => exact ih killed

/-- Rendering does not look at the queues. -/
theorem onQueues_finish (engine : RfofsEngine R) (blockSize : Nat) (outputs : List (List R)) :
    (onQueues wheels killRx engine).finish blockSize outputs =
      (onQueues wheels killRx (engine.finish blockSize outputs).1,
        (engine.finish blockSize outputs).2) := rfl

end Queues

/-! ## Playing the calls -/

section Playing

variable [Field R] [LinearOrder R] [FloorRing R] [RealOps R] {engine middle final : RfofsEngine R}

theorem play_append {first rest : List (EngineCall R)} {early late : List (Heard R)}
    (firstPlayed : engine.play first = some (middle, early))
    (restPlayed : middle.play rest = some (final, late)) :
    engine.play (first ++ rest) = some (final, early ++ late) := by
  induction first generalizing engine early with
  | nil =>
      cases firstPlayed
      exact restPlayed
  | cons call first ih =>
      rw [RfofsEngine.play, Option.bind_eq_some_iff] at firstPlayed
      rcases firstPlayed with ⟨next, heard, played⟩
      rw [Option.map_eq_some_iff] at played
      rcases played with ⟨⟨last, tail⟩, tailPlayed, equal⟩
      cases equal
      rw [List.cons_append, RfofsEngine.play, heard, Option.bind_some, ih tailPlayed,
        Option.map_some, List.append_assoc]

/-- Submitted grains go to the wheel, one after the other. -/
theorem play_submits (engine : RfofsEngine R) {wheel : TimeWheelConsumer R}
    (single : engine.wheels = [wheel]) (requests : List (FofParams R)) :
    engine.play (requests.map (.submit 0)) =
      some ({ engine with wheels := [requests.foldl offer wheel] }, []) := by
  induction requests generalizing engine wheel with
  | nil =>
      rw [List.foldl_nil, ← single]
      rfl
  | cons params requests ih =>
      have pushed : engine.hear (.submit 0 params) =
          some ({ engine with wheels := [offer wheel params] }, []) := by
        change Option.map _ (some _) = _
        rw [engine.submit_getD, single, pushTo_single]
        rfl
      rw [List.map_cons, RfofsEngine.play, pushed, Option.bind_some,
        ih { engine with wheels := [offer wheel params] } rfl]
      rfl

theorem play_kills (engine : RfofsEngine R) (requests : List (FofKillRequest R)) :
    engine.play (requests.map .kill) =
      some ({ engine with
        killRx := requests.foldl (fun killRx req => pushKill req killRx) engine.killRx }, []) := by
  induction requests generalizing engine with
  | nil => rfl
  | cons req requests ih =>
      have pushed : engine.hear (.kill req) =
          some ({ engine with killRx := pushKill req engine.killRx }, []) :=
        congrArg (fun next => some (next, [])) (engine.submitKill_eq req)
      rw [List.map_cons, RfofsEngine.play, pushed, Option.bind_some, ih]
      rfl

end Playing

/-! ## The server and its serial run -/

/-- The serial run so far: the grains that wait for the end of the block, the arguments of
the block, the queue with its ledger, what it has still to admit, and the engine. -/
structure SerialRun (R : Type*) where
  held : List (FofParams R)
  block : Nat × Nat
  queue : TimeWheelConsumer R × Ledger R
  admitted : List (FofParams R)
  engine : RfofsEngine R

/-- There is room for a push and for a kill request in each of `n` steps. -/
def SerialRun.Room (run : SerialRun R) (n : Nat) : Prop :=
  run.queue.1.rx.items.length + n ≤ run.queue.1.rx.capacity ∧
    run.engine.killRx.rx.items.length + n ≤ run.engine.killRx.rx.capacity

/-- The engines differ in their clock and their queues only.  While the kill queue is
drained, the serial wheel is the one before its block, with the grains that wait. -/
structure Mirrors (s : ServerProcess R) (run : SerialRun R) : Prop where
  plane : Serialized s.plane run.block run.queue run.admitted
  engine : run.engine =
    (onQueues run.engine.wheels run.engine.killRx s.engine).setSampleClock run.engine.sampleClock
  tracked : Tracked s.engine.active s.engine.idMap
  kills : run.engine.killRx.rx.items = s.killRequests ++ s.plane.killRx.rx.items
  applied : s.applied ≤ s.plane.drainedKills.length
  block : s.plane.audio ≠ .idle → run.block = (s.engine.sampleClock, s.nFrames)
  resting : s.plane.audio ≠ .drainingKills →
    run.held = [] ∧ s.spawned = s.plane.fired.length ∧ run.engine.wheels = [run.queue.1]
  draining : s.plane.audio = .drainingKills → ∃ wheel, run.engine.wheels = [wheel] ∧
    (wheel.drainBlockSafe run.block.1 run.block.2 []).2 = s.incoming ∧
    run.held.foldl offer (wheel.drainBlockSafe run.block.1 run.block.2 []).1 = run.queue.1

namespace Mirrors

variable {s : ServerProcess R} {run : SerialRun R}

theorem start (sampleRate : R) (panMode : PanMode) (ingressCapacity capacity : Nat) (g : Geometry)
    (clockMode : ClockMode) :
    Mirrors (.start sampleRate panMode ingressCapacity g clockMode)
      ⟨[], (0, 0), (freshWheel capacity g true, Ledger.empty), [],
        RfofsEngine.new sampleRate panMode (freshWheels [(capacity, g, true)])
          (killQueue capacity)⟩ := by
  refine ⟨⟨rfl, rfl, rfl, fun _ => rfl, ?_, rfl, rfl, rfl⟩, rfl, Tracked.empty, rfl, Nat.le_refl _,
    fun busy => absurd rfl busy, fun _ => ⟨rfl, rfl, rfl⟩, ?_⟩
  · intro admitBefore blockEnd at_pc
    cases at_pc
  · intro at_pc
    cases at_pc

/-- There is always one wheel. -/
theorem wheels (mirrors : Mirrors s run) : ∃ wheel, run.engine.wheels = [wheel] := by
  by_cases draining : s.plane.audio = .drainingKills
  · rcases mirrors.draining draining with ⟨wheel, wheels, _, _⟩
    exact ⟨wheel, wheels⟩
  · exact ⟨_, (mirrors.resting draining).2.2⟩

/-- The control plane takes a step that the audio thread and the engines do not notice. -/
theorem quiet (mirrors : Mirrors s run) {plane : ControlPlane R} {later : List (FofParams R)}
    (serialized : Serialized plane run.block run.queue later) (audio : plane.audio = s.plane.audio)
    (fired : plane.fired = s.plane.fired)
    (kills : plane.drainedKills.drop s.applied ++ plane.killRx.rx.items =
      s.killRequests ++ s.plane.killRx.rx.items)
    (applied : s.applied ≤ plane.drainedKills.length) :
    Mirrors { s with plane := plane } { run with admitted := later } := by
  refine ⟨serialized, mirrors.engine, mirrors.tracked, mirrors.kills.trans kills.symm, applied,
    ?_, ?_, ?_⟩
  · intro busy
    exact mirrors.block (audio ▸ busy)
  · intro resting
    rcases mirrors.resting (audio ▸ resting) with ⟨held, spawned, wheels⟩
    exact ⟨held, spawned.trans (congrArg List.length fired.symm), wheels⟩
  · intro draining
    rcases mirrors.draining (audio ▸ draining) with ⟨wheel, wheels, incoming, queue⟩
    refine ⟨wheel, wheels, incoming.trans ?_, queue⟩
    exact congrArg (List.drop s.spawned) fired.symm

/-- The admissions end, and the wheel fires. -/
theorem advance (mirrors : Mirrors s run) {plane : ControlPlane R} {later : List (FofParams R)}
    (serialized : Serialized plane run.block
      (observe run.queue (.drain run.block.1 run.block.2)) later)
    (admitting : s.plane.audio ≠ .idle) (resting : s.plane.audio ≠ .drainingKills)
    (draining : plane.audio = .drainingKills) (killRx : plane.killRx = s.plane.killRx)
    (drained : plane.drainedKills = s.plane.drainedKills) :
    Mirrors { s with plane := plane } { run with
      queue := observe run.queue (.drain run.block.1 run.block.2), admitted := later } := by
  rcases mirrors.resting resting with ⟨held, spawned, wheels⟩
  have fired : plane.fired = s.plane.fired ++
      (run.queue.1.drainBlockSafe run.block.1 run.block.2 []).2 := by
    rw [← serialized.fired, ← mirrors.plane.fired]
    exact congrArg Prod.snd (run.queue.1.drainBlockSafe_out _ _ _)
  refine ⟨serialized, mirrors.engine, mirrors.tracked, ?_, ?_, fun _ => mirrors.block admitting,
    fun moved => absurd draining moved, fun _ => ⟨run.queue.1, wheels, ?_, ?_⟩⟩
  · rw [mirrors.kills, ServerProcess.killRequests, ServerProcess.killRequests, drained, killRx]
  · change _ ≤ plane.drainedKills.length
    rw [drained]
    exact mirrors.applied
  · change _ = plane.fired.drop s.spawned
    rw [fired, spawned, List.drop_left]
  · change run.held.foldl _ _ = _
    rw [held, List.foldl_nil]
    exact (congrArg Prod.fst (run.queue.1.drainBlockSafe_out _ _ _)).symm

/-- A grain that is forwarded is pushed at once, unless the wheel of its block has been
drained. -/
theorem forward (mirrors : Mirrors s run) {params : FofParams R} {plane : ControlPlane R}
    {later : List (FofParams R)}
    (serialized : Serialized plane run.block (observe run.queue (.push params)) later)
    (audio : plane.audio = s.plane.audio) (fired : plane.fired = s.plane.fired)
    (killItems : plane.killRx.rx.items = s.plane.killRx.rx.items)
    (drained : plane.drainedKills = s.plane.drainedKills) :
    (s.plane.audio = .drainingKills → Mirrors { s with plane := plane } { run with
      held := run.held ++ [params], queue := observe run.queue (.push params),
      admitted := later }) ∧
    (s.plane.audio ≠ .drainingKills → Mirrors { s with plane := plane } { run with
      queue := observe run.queue (.push params), admitted := later,
      engine := { run.engine with wheels := [offer run.queue.1 params] } }) := by
  have kills : run.engine.killRx.rx.items =
      plane.drainedKills.drop s.applied ++ plane.killRx.rx.items := by
    rw [mirrors.kills, ServerProcess.killRequests, drained, killItems]
  have applied : s.applied ≤ plane.drainedKills.length := by
    rw [drained]
    exact mirrors.applied
  have block : plane.audio ≠ .idle → run.block = (s.engine.sampleClock, s.nFrames) :=
    fun busy => mirrors.block (audio ▸ busy)
  refine ⟨fun draining => ?_, fun resting => ?_⟩
  · refine ⟨serialized, mirrors.engine, mirrors.tracked, kills, applied, block, ?_, fun _ => ?_⟩
    · intro moved
      exact absurd (audio.trans draining) moved
    · rcases mirrors.draining draining with ⟨wheel, wheels, incoming, queue⟩
      refine ⟨wheel, wheels, incoming.trans (congrArg (List.drop s.spawned) fired.symm), ?_⟩
      change (run.held ++ [params]).foldl _ _ = _
      rw [List.foldl_append, queue]
      exact (offer_eq_observe run.queue params).symm
  · rcases mirrors.resting resting with ⟨held, spawned, _⟩
    refine ⟨serialized, ?_, mirrors.tracked, kills, applied, block, fun _ => ?_, ?_⟩
    · exact congrArg (onQueues [offer run.queue.1 params] run.engine.killRx) mirrors.engine
    · refine ⟨held, spawned.trans (congrArg List.length fired.symm), ?_⟩
      exact congrArg (fun wheel => [wheel]) (offer_eq_observe run.queue params).symm
    · intro draining
      exact absurd (audio.symm.trans draining) resting

/-- A kill request that is forwarded is pushed at once.  It may wait for the next block, as in
the server. -/
theorem forwardKill (mirrors : Mirrors s run) {req : FofKillRequest R} {plane : ControlPlane R}
    {later : List (FofParams R)} {killRx : KillQueueConsumer R}
    (serialized : Serialized plane run.block run.queue later)
    (audio : plane.audio = s.plane.audio) (fired : plane.fired = s.plane.fired)
    (items : plane.killRx.rx.items = s.plane.killRx.rx.items ++ [req])
    (drained : plane.drainedKills = s.plane.drainedKills)
    (serialItems : killRx.rx.items = run.engine.killRx.rx.items ++ [req]) :
    Mirrors { s with plane := plane } { run with
      admitted := later, engine := { run.engine with killRx := killRx } } := by
  refine ⟨serialized, ?_, mirrors.tracked, ?_, ?_, fun busy => mirrors.block (audio ▸ busy), ?_, ?_⟩
  · exact congrArg (onQueues run.engine.wheels killRx) mirrors.engine
  · change killRx.rx.items = plane.drainedKills.drop s.applied ++ plane.killRx.rx.items
    rw [serialItems, mirrors.kills, ServerProcess.killRequests, drained, items, List.append_assoc]
  · change _ ≤ plane.drainedKills.length
    rw [drained]
    exact mirrors.applied
  · intro resting
    rcases mirrors.resting (audio ▸ resting) with ⟨held, spawned, wheels⟩
    exact ⟨held, spawned.trans (congrArg List.length fired.symm), wheels⟩
  · intro draining
    rcases mirrors.draining (audio ▸ draining) with ⟨wheel, wheels, incoming, queue⟩
    exact ⟨wheel, wheels, incoming.trans (congrArg (List.drop s.spawned) fired.symm), queue⟩

/-- A block is begun: the engine of the server is told the clock.  The serial engine is told
when the block ends. -/
theorem beginBlock (mirrors : Mirrors s run) (idle : s.plane.audio = .idle)
    {plane : ControlPlane R} {later : List (FofParams R)} {blockStart nFrames : Nat}
    (serialized : Serialized plane (blockStart, nFrames) run.queue later)
    (admitting : plane.audio ≠ .drainingKills) (fired : plane.fired = s.plane.fired)
    (killRx : plane.killRx = s.plane.killRx)
    (drained : plane.drainedKills = s.plane.drainedKills) :
    Mirrors { s with
      plane := plane
      engine := s.engine.setSampleClock blockStart
      nFrames := nFrames } { run with block := (blockStart, nFrames), admitted := later } := by
  rcases mirrors.resting (by rw [idle]; rintro ⟨⟩) with ⟨held, spawned, wheels⟩
  refine ⟨serialized, mirrors.engine, mirrors.tracked, ?_, ?_, fun _ => rfl, fun _ => ?_, ?_⟩
  · change _ = plane.drainedKills.drop s.applied ++ plane.killRx.rx.items
    rw [mirrors.kills, ServerProcess.killRequests, drained, killRx]
  · change _ ≤ plane.drainedKills.length
    rw [drained]
    exact mirrors.applied
  · exact ⟨held, spawned.trans (congrArg List.length fired.symm), wheels⟩
  · intro draining
    exact absurd draining admitting

section Blocks

variable [Field R] [LinearOrder R] [FloorRing R] [RealOps R]

/-- The server does not panic at the end of a block. -/
theorem ready (mirrors : Mirrors s run) (choice : KeyChoice) :
    ∃ ready, s.ready choice = some ready ∧ s.engine.Frame ready ∧
      Tracked ready.active ready.idMap := by
  rcases RfofsEngine.spawn_foldl choice s.engine mirrors.tracked s.incoming with
    ⟨frame, tracked, _⟩
  rcases RfofsEngine.kill_foldlM tracked s.killRequests with ⟨ready, killed, later, readyTracked⟩
  exact ⟨ready, killed, frame.trans later, readyTracked⟩

/-- The serial engine, which is drained where the server has been drained, plays the block. -/
theorem play_block (mirrors : Mirrors s run) (draining : s.plane.audio = .drainingKills)
    (empty : s.plane.killRx.rx.items = []) {choice : KeyChoice} {ready : RfofsEngine R}
    (prepared : s.ready choice = some ready) (frame : s.engine.Frame ready) :
    run.engine.play
        (.clock s.engine.sampleClock :: .block choice s.ports s.nFrames ::
          run.held.map (.submit 0)) =
      some (onQueues [run.queue.1] (run.engine.killRx.drainAll []).1
          (ready.finish s.nFrames s.ports).1,
        [⟨(ready.finish s.nFrames s.ports).2, (ready.finish s.nFrames s.ports).1.activeCount⟩]) := by
  rcases mirrors.draining draining with ⟨wheel, wheels, incoming, queue⟩
  rw [mirrors.block (by rw [draining]; rintro ⟨⟩)] at incoming queue
  have clocked : run.engine.setSampleClock s.engine.sampleClock =
      onQueues [wheel] run.engine.killRx s.engine := by
    rw [← wheels]
    exact congrArg (RfofsEngine.setSampleClock · s.engine.sampleClock) mirrors.engine
  have kills : run.engine.killRx.rx.items = s.killRequests := by
    rw [mirrors.kills, empty, List.append_nil]
  let rest := onQueues [(wheel.drainBlockSafe s.engine.sampleClock s.nFrames []).1]
    (run.engine.killRx.drainAll []).1
  have serialReady : (onQueues [wheel] run.engine.killRx s.engine).ready choice s.nFrames =
      some (rest ready) := by
    change run.engine.killRx.rx.items.foldlM RfofsEngine.kill
      ((wheel.drainBlockSafe s.engine.sampleClock s.nFrames []).2.foldl
        (RfofsEngine.spawn choice) (rest s.engine)) = _
    rw [incoming, kills, onQueues_spawn, onQueues_kills]
    exact congrArg (Option.map rest) prepared
  have heard : (onQueues [wheel] run.engine.killRx s.engine).hear
      (.block choice s.ports s.nFrames) =
        some (rest (ready.finish s.nFrames s.ports).1, [⟨(ready.finish s.nFrames s.ports).2,
          (ready.finish s.nFrames s.ports).1.activeCount⟩]) := by
    rw [RfofsEngine.hear, RfofsEngine.processBlock_eq serialReady frame.sampleClock,
      onQueues_finish]
    rfl
  have submitted := play_submits (rest (ready.finish s.nFrames s.ports).1) rfl run.held
  rw [RfofsEngine.play]
  change Option.bind (some (run.engine.setSampleClock s.engine.sampleClock, [])) _ = _
  rw [Option.bind_some, clocked, RfofsEngine.play, heard, Option.bind_some, submitted, queue]
  rfl

/-- A block ends: the serial run plays it, and then pushes what waits. -/
theorem finishBlock (empty : s.plane.killRx.rx.items = []) {plane : ControlPlane R}
    {later : List (FofParams R)}
    (serialized : Serialized plane run.block run.queue later) (idle : plane.audio = .idle)
    (killRx : plane.killRx = s.plane.killRx)
    {ready : RfofsEngine R} (tracked : Tracked ready.active ready.idMap) :
    Mirrors (s.finishBlock plane ready) { run with
      held := []
      admitted := later
      engine := onQueues [run.queue.1] (run.engine.killRx.drainAll []).1
        (ready.finish s.nFrames s.ports).1 } := by
  refine ⟨serialized, rfl, ?_, ?_, Nat.le_refl _, fun busy => absurd idle busy,
    fun _ => ⟨rfl, rfl, rfl⟩, ?_⟩
  · exact Tracked.removeDead
      (RfofsEngine.render_tracked tracked ready.sampleClock s.nFrames s.ports)
  · change [] = plane.drainedKills.drop plane.drainedKills.length ++ plane.killRx.rx.items
    rw [List.drop_length, killRx, empty]
    rfl
  · intro moved
    rw [show (s.finishBlock plane ready).plane.audio = plane.audio from rfl, idle] at moved
    cases moved

/-- The serial run follows a step: it plays the calls of the step, and has heard what the
server has heard. -/
def Follows (s next : ServerProcess R) (run : SerialRun R) (label : ServerStep R) (n : Nat) :
    Prop :=
  ∃ later heard, Mirrors next later ∧ later.Room n ∧
    later.held = (s.serialize run.held label).2 ∧
    run.engine.play (s.serialize run.held label).1 = some (later.engine, heard) ∧
    next.heard = s.heard ++ heard

/-- Nothing is played. -/
theorem follow_quiet {later : SerialRun R} {next : ServerProcess R} {label : ServerStep R} {n : Nat}
    (mirrors : Mirrors next later) (room : run.Room (n + 1))
    (shorter : later.queue.1.rx.items.length ≤ run.queue.1.rx.items.length + 1)
    (capacity : later.queue.1.rx.capacity = run.queue.1.rx.capacity)
    (engine : later.engine = run.engine) (held : later.held = run.held)
    (silent : s.serialize run.held label = ([], run.held)) (heard : next.heard = s.heard) :
    Follows s next run label n := by
  rcases room with ⟨room, killRoom⟩
  refine ⟨later, [], mirrors, ⟨by omega, ?_⟩, ?_, ?_, ?_⟩
  · rw [engine]
    omega
  · rw [silent, held]
  · rw [silent, engine]
    rfl
  · rw [heard, List.append_nil]

/-- A grain is forwarded. -/
theorem follow_fof (mirrors : Mirrors s run) {n : Nat} (room : run.Room (n + 1))
    {params : FofParams R} (pc : s.plane.bridge = .pushFof params)
    {rx : BoundedFifo (FofParams R)}
    (pushed : s.plane.wheelRx.push params = .ok { s.plane.wheelRx with rx := rx }) :
    Follows s { s with plane := s.plane.bridgeStep } run .bridge n := by
  rcases room with ⟨room, killRoom⟩
  have fofs : s.plane.forwardedFofs = [params] := by
    simp only [ControlPlane.forwardedFofs, pc, pushed]
  have kills : s.plane.forwardedKills = [] := by
    simp only [ControlPlane.forwardedKills, pc]
  rcases s.plane.bridgeStep_frame with ⟨audio, fired, drained, _, _⟩
  have killItems := s.plane.bridgeStep_queues.2
  rw [kills, List.append_nil] at killItems
  rcases mirrors.plane.bridge (by omega) with ⟨serialized, longer, capacity⟩
  rw [s.plane.serialCall_bridge, fofs] at serialized longer capacity
  change Serialized _ _ (observe run.queue (.push params)) _ at serialized
  change (observe run.queue (.push params)).1.rx.items.length ≤ _ at longer
  change (observe run.queue (.push params)).1.rx.capacity = _ at capacity
  rcases mirrors.forward serialized audio fired killItems drained with ⟨late, prompt⟩
  have left : (observe run.queue (.push params)).1.rx.items.length + n ≤
      (observe run.queue (.push params)).1.rx.capacity := by omega
  have killLeft : run.engine.killRx.rx.items.length + n ≤ run.engine.killRx.rx.capacity := by
    omega
  by_cases draining : s.plane.audio = .drainingKills
  · have serial : s.serialize run.held .bridge = ([], run.held ++ [params]) := by
      simp only [ServerProcess.serialize, draining, fofs, kills, List.map_nil]
    refine ⟨_, [], late draining, ⟨left, killLeft⟩, ?_, ?_, (List.append_nil _).symm⟩
    · rw [serial]
    · rw [serial]
      rfl
  · have serial : s.serialize run.held .bridge = ([.submit 0 params], run.held) := by
      unfold ServerProcess.serialize
      rw [fofs, kills]
      cases at_pc : s.plane.audio with
      | drainingKills => exact absurd at_pc draining
      | idle => rfl
      | admitting admitBefore blockEnd => rfl
    refine ⟨_, [], prompt draining, ⟨left, killLeft⟩, ?_, ?_, (List.append_nil _).symm⟩
    · rw [serial]
    · rw [serial]
      exact play_submits run.engine (mirrors.resting draining).2.2 [params]

/-- A kill request is forwarded. -/
theorem follow_kill (mirrors : Mirrors s run) {n : Nat} (room : run.Room (n + 1))
    {req : FofKillRequest R} (pc : s.plane.bridge = .pushKill req)
    {rx : BoundedFifo (FofKillRequest R)} (pushed : s.plane.killRx.push req = .ok ⟨rx⟩) :
    Follows s { s with plane := s.plane.bridgeStep } run .bridge n := by
  rcases room with ⟨room, killRoom⟩
  have fofs : s.plane.forwardedFofs = [] := by
    simp only [ControlPlane.forwardedFofs, pc]
  have kills : s.plane.forwardedKills = [req] := by
    simp only [ControlPlane.forwardedKills, pc, pushed]
  rcases s.plane.bridgeStep_frame with ⟨audio, fired, drained, _, _⟩
  have items := s.plane.bridgeStep_queues.2
  rw [kills] at items
  have serial : s.serialize run.held .bridge = ([.kill req], run.held) := by
    unfold ServerProcess.serialize
    rw [fofs, kills, List.append_nil]
    cases s.plane.audio <;> rfl
  rcases mirrors.plane.bridge (by omega) with ⟨serialized, _, _⟩
  rw [s.plane.serialCall_bridge, fofs] at serialized
  rcases run.engine.killRx.push_cases req with ⟨next, accepted, serialItems, capacity⟩ | ⟨_, full⟩
  · have same := mirrors.forwardKill serialized audio fired items drained
      (show (KillQueueConsumer.mk next).rx.items = _ from serialItems)
    refine ⟨_, [], same, ⟨?_, ?_⟩, ?_, ?_, (List.append_nil _).symm⟩
    · change run.queue.1.rx.items.length + n ≤ run.queue.1.rx.capacity
      omega
    · change next.items.length + n ≤ next.capacity
      rw [serialItems, List.length_append, List.length_singleton, capacity]
      omega
    · rw [serial]
    · rw [serial]
      refine (play_kills run.engine [req]).trans ?_
      rw [List.foldl_cons, List.foldl_nil, pushKill, accepted]
  · omega

/-- The steps of the bridging thread.  A push is the only one that the serial run takes part
in. -/
theorem bridge (mirrors : Mirrors s run) {n : Nat} (room : run.Room (n + 1)) :
    Follows s { s with plane := s.plane.bridgeStep } run .bridge n := by
  rcases s.plane.bridgeStep_frame with ⟨audio, fired, drained, _, _⟩
  have stay : s.plane.forwardedFofs = [] → s.plane.forwardedKills = [] →
      Follows s { s with plane := s.plane.bridgeStep } run .bridge n := by
    intro fofs kills
    rcases mirrors.plane.bridge (by have := room.1; omega) with ⟨serialized, _, _⟩
    rw [s.plane.serialCall_bridge, fofs] at serialized
    have killItems := s.plane.bridgeStep_queues.2
    rw [kills, List.append_nil] at killItems
    have same := mirrors.quiet serialized audio fired
      (by rw [killItems, drained]; rfl) (by rw [drained]; exact mirrors.applied)
    refine follow_quiet same room (Nat.le_succ _) rfl rfl rfl ?_ rfl
    unfold ServerProcess.serialize
    rw [fofs, kills, List.append_nil]
    cases s.plane.audio <;> rfl
  cases pc : s.plane.bridge with
  | popFof =>
      apply stay
      all_goals simp only [ControlPlane.forwardedFofs, ControlPlane.forwardedKills, pc]
  | popKill =>
      apply stay
      all_goals simp only [ControlPlane.forwardedFofs, ControlPlane.forwardedKills, pc]
  | pushFof params =>
      rcases s.plane.wheelRx.push_cases params with ⟨rx, pushed, _, _⟩ | ⟨refused, _⟩
      · exact mirrors.follow_fof room pc pushed
      · apply stay
        all_goals simp only [ControlPlane.forwardedFofs, ControlPlane.forwardedKills, pc, refused]
  | pushKill req =>
      rcases s.plane.killRx.push_cases req with ⟨rx, pushed, _, _⟩ | ⟨refused, _⟩
      · exact mirrors.follow_kill room pc pushed
      · apply stay
        all_goals simp only [ControlPlane.forwardedFofs, ControlPlane.forwardedKills, pc, refused]

/-- A step of the control plane that touches neither the audio thread nor what it has
drained. -/
theorem follow_client (mirrors : Mirrors s run) {n : Nat} (room : run.Room (n + 1))
    {label : ServerStep R} {control : ControlStep R} {plane : ControlPlane R}
    (taken : s.plane.step control = some plane) (block : control.block run.block = run.block)
    (calls : s.plane.serialCall run.block control = [])
    (audio : plane.audio = s.plane.audio) (fired : plane.fired = s.plane.fired)
    (kills : plane.drainedKills.drop s.applied ++ plane.killRx.rx.items =
      s.killRequests ++ s.plane.killRx.rx.items)
    (applied : s.applied ≤ plane.drainedKills.length)
    (silent : s.serialize run.held label = ([], run.held)) :
    Follows s { s with plane := plane } run label n := by
  rcases mirrors.plane.step taken (by have := room.1; omega) with ⟨later, serialized, _, _⟩
  rw [block, calls] at serialized
  exact follow_quiet (mirrors.quiet serialized audio fired kills applied) room (Nat.le_succ _)
    rfl rfl rfl silent rfl

theorem follow_addFof (mirrors : Mirrors s run) {n : Nat} (room : run.Room (n + 1))
    (params : FofParams R) :
    Follows s { s with plane := (s.plane.addFof params).1 } run (.addFof params) n := by
  have frame : (s.plane.addFof params).1.audio = s.plane.audio ∧
      (s.plane.addFof params).1.fired = s.plane.fired ∧
      (s.plane.addFof params).1.killRx = s.plane.killRx ∧
      (s.plane.addFof params).1.drainedKills = s.plane.drainedKills := by
    unfold ControlPlane.addFof
    split <;> exact ⟨rfl, rfl, rfl, rfl⟩
  rcases frame with ⟨audio, fired, killRx, drained⟩
  have taken : s.plane.step (.addFof params) = some (s.plane.addFof params).1 := rfl
  apply mirrors.follow_client room taken rfl rfl audio fired ?_ ?_ rfl
  · rw [killRx, drained]
    rfl
  · rw [drained]
    exact mirrors.applied

theorem follow_killRequest (mirrors : Mirrors s run) {n : Nat} (room : run.Room (n + 1))
    (req : FofKillRequest R) :
    Follows s { s with plane := (s.plane.kill req).1 } run (.kill req) n := by
  have frame : (s.plane.kill req).1.audio = s.plane.audio ∧
      (s.plane.kill req).1.fired = s.plane.fired ∧
      (s.plane.kill req).1.killRx = s.plane.killRx ∧
      (s.plane.kill req).1.drainedKills = s.plane.drainedKills := by
    unfold ControlPlane.kill
    split <;> exact ⟨rfl, rfl, rfl, rfl⟩
  rcases frame with ⟨audio, fired, killRx, drained⟩
  have taken : s.plane.step (.kill req) = some (s.plane.kill req).1 := rfl
  apply mirrors.follow_client room taken rfl rfl audio fired ?_ ?_ rfl
  · rw [killRx, drained]
    rfl
  · rw [drained]
    exact mirrors.applied

theorem follow_setClockMode (mirrors : Mirrors s run) {n : Nat} (room : run.Room (n + 1))
    (mode : Nat) :
    Follows s { s with control := (s.control.setClockMode mode).1 } run (.setClockMode mode) n := by
  have same : Mirrors { s with control := (s.control.setClockMode mode).1 } run :=
    ⟨mirrors.plane, mirrors.engine, mirrors.tracked, mirrors.kills, mirrors.applied,
      mirrors.block, mirrors.resting, mirrors.draining⟩
  exact follow_quiet same room (Nat.le_succ _) rfl rfl rfl rfl rfl

theorem follow_beginBlock (mirrors : Mirrors s run) {n : Nat} (room : run.Room (n + 1))
    (cycle : Cycle) {next : ServerProcess R} (taken : s.beginBlock cycle = some next) :
    Follows s next run (.beginBlock cycle) n := by
  rcases Option.map_eq_some_iff.mp taken with ⟨plane, begun, rfl⟩
  rcases mirrors.plane.step begun (by have := room.1; omega) with ⟨later, serialized, _, _⟩
  simp only [ControlPlane.step] at begun
  split at begun <;> cases begun
  rename_i idle
  have same := mirrors.beginBlock idle serialized (by rintro ⟨⟩) rfl rfl rfl
  exact follow_quiet same room (Nat.le_succ _) rfl rfl rfl rfl rfl

theorem follow_admitNext (mirrors : Mirrors s run) {n : Nat} (room : run.Room (n + 1))
    {plane : ControlPlane R} (taken : s.plane.step .admitNext = some plane) :
    Follows s { s with plane := plane } run .admitNext n := by
  have stepped := taken
  simp only [ControlPlane.step] at stepped
  split at stepped
  · split at stepped <;> cases stepped
    exact mirrors.follow_client room taken rfl rfl rfl rfl rfl mirrors.applied rfl
  · cases stepped

theorem follow_advance (mirrors : Mirrors s run) {n : Nat} (room : run.Room (n + 1))
    {plane : ControlPlane R} (taken : s.plane.step .advance = some plane) :
    Follows s { s with plane := plane } run .advance n := by
  rcases mirrors.plane.step taken (by have := room.1; omega) with
    ⟨later, serialized, longer, capacity⟩
  have advanced : ∀ admitBefore blockEnd, s.plane.audio = .admitting admitBefore blockEnd →
      plane = s.plane.advanceWheel blockEnd → Follows s { s with plane := plane } run .advance n := by
    rintro admitBefore blockEnd at_pc rfl
    have same := mirrors.advance serialized (by rw [at_pc]; rintro ⟨⟩)
      (by rw [at_pc]; rintro ⟨⟩) rfl rfl rfl
    exact follow_quiet same room longer capacity rfl rfl rfl rfl
  simp only [ControlPlane.step] at taken
  split at taken
  · rename_i at_pc _
    exact advanced _ _ at_pc (Option.some.inj taken).symm
  · rename_i at_pc _
    split at taken <;> cases taken
    exact advanced _ _ at_pc rfl
  · cases taken

theorem follow_drainKill (mirrors : Mirrors s run) {n : Nat} (room : run.Room (n + 1))
    {plane : ControlPlane R} (taken : s.plane.step .drainKill = some plane) :
    Follows s { s with plane := plane } run .drainKill n := by
  have stepped := taken
  simp only [ControlPlane.step] at stepped
  split at stepped <;> cases stepped
  rename_i req rx _ popped
  have applied := mirrors.applied
  apply mirrors.follow_client room taken rfl rfl rfl rfl ?_ ?_ rfl
  · change (s.plane.drainedKills ++ [req]).drop s.applied ++ rx.items = _
    rw [List.drop_append_of_le_length applied, (BoundedFifo.pop_eq_some popped).1,
      List.append_assoc]
    rfl
  · change s.applied ≤ (s.plane.drainedKills ++ [req]).length
    rw [List.length_append]
    omega

theorem follow_endBlock (mirrors : Mirrors s run) {n : Nat} (room : run.Room (n + 1))
    (choice : KeyChoice) {next : ServerProcess R} (taken : s.endBlock choice = some next) :
    Follows s next run (.endBlock choice) n := by
  rcases Option.bind_eq_some_iff.mp taken with ⟨plane, ended, finished⟩
  rcases Option.map_eq_some_iff.mp finished with ⟨ready, prepared, rfl⟩
  rcases mirrors.ready choice with ⟨same, found, frame, tracked⟩
  rw [prepared] at found
  cases found
  rcases mirrors.plane.step ended (by have := room.1; omega) with ⟨later, serialized, _, _⟩
  simp only [ControlPlane.step] at ended
  split at ended <;> cases ended
  rename_i draining none_left
  have empty := BoundedFifo.pop_eq_none.mp none_left
  have done : Mirrors (s.finishBlock { s.plane with audio := .idle } ready) _ :=
    finishBlock empty serialized rfl rfl tracked
  rcases room with ⟨room, killRoom⟩
  refine ⟨_, _, done, ⟨?_, ?_⟩, rfl, mirrors.play_block draining empty prepared frame, rfl⟩
  · change run.queue.1.rx.items.length + n ≤ run.queue.1.rx.capacity
    omega
  · change 0 + n ≤ run.engine.killRx.rx.capacity
    omega

/-- What one step of any agent preserves.  There is one case for each kind of step. -/
theorem step (mirrors : Mirrors s run) {n : Nat} (room : run.Room (n + 1)) {label : ServerStep R}
    {next : ServerProcess R} (taken : s.step label = some next) : Follows s next run label n := by
  cases label with
  | addFof params =>
      cases taken
      exact mirrors.follow_addFof room params
  | kill req =>
      cases taken
      exact mirrors.follow_killRequest room req
  | setClockMode mode =>
      cases taken
      exact mirrors.follow_setClockMode room mode
  | bridge =>
      cases taken
      exact mirrors.bridge room
  | beginBlock cycle => exact mirrors.follow_beginBlock room cycle taken
  | admitNext =>
      rcases Option.map_eq_some_iff.mp taken with ⟨plane, planeTaken, rfl⟩
      exact mirrors.follow_admitNext room planeTaken
  | advance =>
      rcases Option.map_eq_some_iff.mp taken with ⟨plane, planeTaken, rfl⟩
      exact mirrors.follow_advance room planeTaken
  | drainKill =>
      rcases Option.map_eq_some_iff.mp taken with ⟨plane, planeTaken, rfl⟩
      exact mirrors.follow_drainKill room planeTaken
  | endBlock choice => exact mirrors.follow_endBlock room choice taken

/-- What a run preserves, with room for a push in every step. -/
theorem follow_run (mirrors : Mirrors s run) {labels : List (ServerStep R)}
    (room : run.Room labels.length) :
    ∃ final heard, run.engine.play (s.engineCalls run.held labels) = some (final, heard) ∧
      (perform ServerProcess.step s labels).heard = s.heard ++ heard ∧
      Tracked (perform ServerProcess.step s labels).engine.active
        (perform ServerProcess.step s labels).engine.idMap := by
  induction labels generalizing s run with
  | nil =>
      rcases mirrors.wheels with ⟨wheel, single⟩
      exact ⟨_, [], play_submits run.engine single run.held, (List.append_nil _).symm,
        mirrors.tracked⟩
  | cons label labels ih =>
      unfold ServerProcess.engineCalls perform
      rw [List.foldl_cons]
      cases taken : s.step label with
      | none =>
          exact ih mirrors ⟨(Nat.le_succ _).trans room.1, (Nat.le_succ _).trans room.2⟩
      | some next =>
          rcases mirrors.step room taken with ⟨later, early, same, left, held, played, heard⟩
          rcases ih same left with ⟨final, late, rest, lateHeard, tracked⟩
          refine ⟨final, early ++ late, ?_, ?_, tracked⟩
          · rw [held] at rest
            exact play_append played rest
          · refine lateHeard.trans ?_
            rw [heard, List.append_assoc]

end Blocks

end Mirrors

end Control
end Rfofs
