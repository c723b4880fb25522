import Rfofs.Control.ServerMirror

namespace Rfofs
namespace Control

open Foundation
open Grain
open Queue
open Engine

/-!
# Every run of the server is a serial run

The serial run is given what reached the queues of the engine, in the order in which the
client had it accepted.  With the roster of the ensemble this says what is heard of a server.
-/

variable {R : Type*}

/-! ## What the serial run is given -/

/-- The grains that the calls submit. -/
def submitted (calls : List (EngineCall R)) : List (FofParams R) :=
  calls.flatMap (fun
    | .submit _ params => [params]
    | _ => [])

/-- The kill requests that the calls push. -/
def requested (calls : List (EngineCall R)) : List (FofKillRequest R) :=
  calls.flatMap (fun
    | .kill req => [req]
    | _ => [])

theorem submitted_append (first rest : List (EngineCall R)) :
    submitted (first ++ rest) = submitted first ++ submitted rest := List.flatMap_append

theorem requested_append (first rest : List (EngineCall R)) :
    requested (first ++ rest) = requested first ++ requested rest := List.flatMap_append

theorem submitted_submits (fofs : List (FofParams R)) : submitted (fofs.map (.submit 0)) = fofs := by
  unfold submitted
  rw [List.flatMap_map, List.flatMap_singleton']

theorem requested_submits (fofs : List (FofParams R)) :
    requested (fofs.map (.submit 0)) = [] := by
  unfold requested
  rw [List.flatMap_map, List.flatMap_eq_nil_iff]
  intro params _
  rfl

theorem submitted_kills (kills : List (FofKillRequest R)) : submitted (kills.map .kill) = [] := by
  unfold submitted
  rw [List.flatMap_map, List.flatMap_eq_nil_iff]
  intro req _
  rfl

theorem requested_kills (kills : List (FofKillRequest R)) :
    requested (kills.map .kill) = kills := by
  unfold requested
  rw [List.flatMap_map, List.flatMap_singleton']

/-- The calls so far have been given what has reached the queues of the engine, except for
the grains that wait. -/
structure Passed (s : ServerProcess R) (held : List (FofParams R)) (calls : List (EngineCall R)) :
    Prop where
  fofs : consumed s.plane.log ++ s.plane.wheelRx.rx.items = submitted calls ++ held
  kills : s.plane.drainedKills ++ s.plane.killRx.rx.items = requested calls
  resting : s.plane.audio ≠ .drainingKills → held = []

namespace Passed

variable {s : ServerProcess R} {held : List (FofParams R)} {calls : List (EngineCall R)}

/-- Nothing moves into the queues. -/
theorem frame (passed : Passed s held calls) {next : ServerProcess R}
    (fofs : consumed next.plane.log ++ next.plane.wheelRx.rx.items =
      consumed s.plane.log ++ s.plane.wheelRx.rx.items)
    (kills : next.plane.drainedKills ++ next.plane.killRx.rx.items =
      s.plane.drainedKills ++ s.plane.killRx.rx.items)
    (resting : next.plane.audio ≠ .drainingKills → held = []) :
    Passed next held (calls ++ []) := by
  rw [List.append_nil]
  exact ⟨fofs.trans passed.fofs, kills.trans passed.kills, resting⟩

variable [Field R] [LinearOrder R] [FloorRing R] [RealOps R]

omit [LinearOrder R] [FloorRing R] [RealOps R] in
/-- What is forwarded is submitted, at once or after the block. -/
theorem bridge (passed : Passed s held calls) :
    Passed { s with plane := s.plane.bridgeStep } (s.serialize held .bridge).2
      (calls ++ (s.serialize held .bridge).1) := by
  rcases s.plane.bridgeStep_queues with ⟨fofs, kills⟩
  rcases s.plane.bridgeStep_frame with ⟨audio, _, drained, log, _⟩
  have fofs : consumed s.plane.bridgeStep.log ++ s.plane.bridgeStep.wheelRx.rx.items =
      (consumed s.plane.log ++ s.plane.wheelRx.rx.items) ++ s.plane.forwardedFofs := by
    rw [fofs, log, List.append_assoc]
  have kills : s.plane.bridgeStep.drainedKills ++ s.plane.bridgeStep.killRx.rx.items =
      (s.plane.drainedKills ++ s.plane.killRx.rx.items) ++ s.plane.forwardedKills := by
    rw [kills, drained, List.append_assoc]
  rw [passed.fofs] at fofs
  rw [passed.kills] at kills
  by_cases draining : s.plane.audio = .drainingKills
  · have serial : s.serialize held .bridge =
        (s.plane.forwardedKills.map .kill, held ++ s.plane.forwardedFofs) := by
      simp only [ServerProcess.serialize, draining]
    rw [serial]
    refine ⟨fofs.trans ?_, kills.trans ?_, fun moved => absurd (audio.trans draining) moved⟩
    · rw [submitted_append, submitted_kills, List.append_nil, List.append_assoc]
    · rw [requested_append, requested_kills]
  · have none_held := passed.resting draining
    subst none_held
    have serial : s.serialize [] .bridge = (s.plane.forwardedFofs.map (.submit 0) ++
        s.plane.forwardedKills.map .kill, []) := by
      unfold ServerProcess.serialize
      cases at_pc : s.plane.audio with
      | drainingKills => exact absurd at_pc draining
      | idle => rfl
      | admitting admitBefore blockEnd => rfl
    rw [serial]
    refine ⟨fofs.trans ?_, kills.trans ?_, fun _ => rfl⟩
    · rw [submitted_append, submitted_append, submitted_submits, submitted_kills, List.append_nil,
        List.append_nil, List.append_nil]
    · rw [requested_append, requested_append, requested_submits, requested_kills, List.nil_append]

theorem endBlock (passed : Passed s held calls) (choice : KeyChoice) {next : ServerProcess R}
    (taken : s.endBlock choice = some next) :
    Passed next (s.serialize held (.endBlock choice)).2
      (calls ++ (s.serialize held (.endBlock choice)).1) := by
  rcases Option.bind_eq_some_iff.mp taken with ⟨plane, ended, finished⟩
  rcases Option.map_eq_some_iff.mp finished with ⟨ready, _, rfl⟩
  simp only [ControlPlane.step] at ended
  split at ended <;> cases ended
  refine ⟨passed.fofs.trans ?_, passed.kills.trans ?_, fun _ => rfl⟩
  · change _ = submitted (calls ++ ([.clock s.engine.sampleClock,
      .block choice s.ports s.nFrames] ++ held.map (.submit 0))) ++ []
    rw [submitted_append, submitted_append, submitted_submits, List.append_nil]
    rfl
  · change _ = requested (calls ++ ([.clock s.engine.sampleClock,
      .block choice s.ports s.nFrames] ++ held.map (.submit 0)))
    rw [requested_append, requested_append, requested_submits, List.append_nil]
    exact (List.append_nil _).symm

/-- What one step of any agent preserves. -/
theorem step (passed : Passed s held calls) {label : ServerStep R} {next : ServerProcess R}
    (taken : s.step label = some next) :
    Passed next (s.serialize held label).2 (calls ++ (s.serialize held label).1) := by
  cases label with
  | addFof params =>
      cases taken
      change Passed { s with plane := (s.plane.addFof params).1 } held (calls ++ [])
      unfold ControlPlane.addFof
      split <;> exact passed.frame rfl rfl passed.resting
  | kill req =>
      cases taken
      change Passed { s with plane := (s.plane.kill req).1 } held (calls ++ [])
      unfold ControlPlane.kill
      split <;> exact passed.frame rfl rfl passed.resting
  | setClockMode mode =>
      cases taken
      exact passed.frame rfl rfl passed.resting
  | bridge =>
      cases taken
      exact passed.bridge
  | beginBlock cycle =>
      rcases Option.map_eq_some_iff.mp taken with ⟨plane, begun, rfl⟩
      simp only [ControlPlane.step] at begun
      split at begun <;> cases begun
      rename_i idle
      exact passed.frame rfl rfl (fun _ => passed.resting (by rw [idle]; rintro ⟨⟩))
  | admitNext =>
      rcases Option.map_eq_some_iff.mp taken with ⟨plane, admitted, rfl⟩
      simp only [ControlPlane.step] at admitted
      split at admitted
      · rename_i params rest _ items
        split at admitted <;> cases admitted
        refine passed.frame ?_ rfl passed.resting
        change consumed (s.plane.log ++ [verdictOf s.plane.wheelRx.wheel params]) ++ rest = _
        rw [consumed_append, items, List.append_assoc]
        rfl
      · cases admitted
  | advance =>
      rcases Option.map_eq_some_iff.mp taken with ⟨plane, advanced, rfl⟩
      have admitting : s.plane.audio ≠ .drainingKills := by
        intro draining
        simp only [ControlPlane.step, draining] at advanced
        cases advanced
      have none_held := passed.resting admitting
      simp only [ControlPlane.step] at advanced
      split at advanced
      · cases advanced
        exact passed.frame rfl rfl (fun _ => none_held)
      · split at advanced <;> cases advanced
        exact passed.frame rfl rfl (fun _ => none_held)
      · cases advanced
  | drainKill =>
      rcases Option.map_eq_some_iff.mp taken with ⟨plane, drained, rfl⟩
      simp only [ControlPlane.step] at drained
      split at drained <;> cases drained
      rename_i req rx _ popped
      refine passed.frame rfl ?_ passed.resting
      change (s.plane.drainedKills ++ [req]) ++ rx.items = _
      rw [List.append_assoc, (BoundedFifo.pop_eq_some popped).1]
      rfl
  | endBlock choice => exact passed.endBlock choice taken

/-- What a run preserves: the calls submit what has come through the queues, in this order. -/
theorem run (passed : Passed s held calls) (labels : List (ServerStep R)) :
    let last := perform ServerProcess.step s labels
    consumed last.plane.log ++ last.plane.wheelRx.rx.items =
        submitted (calls ++ s.engineCalls held labels) ∧
      last.plane.drainedKills ++ last.plane.killRx.rx.items =
        requested (calls ++ s.engineCalls held labels) := by
  induction labels generalizing s held calls with
  | nil =>
      change _ = submitted (calls ++ held.map (.submit 0)) ∧
        _ = requested (calls ++ held.map (.submit 0))
      rw [submitted_append, submitted_submits, requested_append, requested_submits,
        List.append_nil]
      exact ⟨passed.fofs, passed.kills⟩
  | cons label labels ih =>
      unfold ServerProcess.engineCalls perform
      rw [List.foldl_cons]
      cases taken : s.step label with
      | none => exact ih passed
      | some next =>
          have rest := ih (passed.step taken)
          rwa [List.append_assoc] at rest

end Passed

/-! ## The serial run of the whole server -/

section Server

variable [Field R] [LinearOrder R] [FloorRing R] [RealOps R]

/-- The control plane of the server runs as it does on its own.  Its theorems therefore hold
of the server. -/
theorem ServerProcess.step_plane {s next : ServerProcess R} {label : ServerStep R}
    (taken : s.step label = some next) :
    next.plane = s.plane ∨ ∃ control, s.plane.step control = some next.plane := by
  have moved : ∀ control, s.planeStep control = some next →
      s.plane.step control = some next.plane := by
    intro control planeTaken
    rcases Option.map_eq_some_iff.mp planeTaken with ⟨plane, stepped, rfl⟩
    exact stepped
  cases label with
  | addFof params => exact Or.inr ⟨_, moved (.addFof params) taken⟩
  | kill req => exact Or.inr ⟨_, moved (.kill req) taken⟩
  | setClockMode mode =>
      cases taken
      exact Or.inl rfl
  | bridge => exact Or.inr ⟨_, moved .bridge taken⟩
  | beginBlock cycle =>
      rcases Option.map_eq_some_iff.mp taken with ⟨plane, begun, rfl⟩
      exact Or.inr ⟨_, begun⟩
  | admitNext => exact Or.inr ⟨_, moved .admitNext taken⟩
  | advance => exact Or.inr ⟨_, moved .advance taken⟩
  | drainKill => exact Or.inr ⟨_, moved .drainKill taken⟩
  | endBlock choice =>
      rcases Option.bind_eq_some_iff.mp taken with ⟨plane, ended, finished⟩
      rcases Option.map_eq_some_iff.mp finished with ⟨ready, _, rfl⟩
      exact Or.inr ⟨_, ended⟩

theorem ServerProcess.plane_ordered {s : ServerProcess R} (ordered : Ordered s.plane)
    (labels : List (ServerStep R)) : Ordered (perform ServerProcess.step s labels).plane := by
  induction labels generalizing s with
  | nil => exact ordered
  | cons label labels ih =>
      unfold perform
      rw [List.foldl_cons]
      apply ih
      cases taken : s.step label with
      | none => exact ordered
      | some next =>
          rcases ServerProcess.step_plane taken with same | ⟨control, stepped⟩
          · exact same ▸ ordered
          · exact ordered.step stepped

/-- A server is heard as one engine is that is called in turn: with the grains and the kill
requests that reach its queues, in the order in which the client had them accepted, and with
the blocks.  The queues of this engine are as long as the run, so that it refuses nothing that
the server has accepted.  No block meets an unknown key in the pool: where the drains are
over, no key stops the block.

In exact arithmetic, with the one sine of the `std-sin` build and an exponential that turns
sums into products, and where the fade-outs fit their counters, this is the ensemble. -/
theorem server_serializable [IsStrictOrderedRing R] (sampleRate : R) (panMode : PanMode)
    (ingressCapacity : Nat) (g : Geometry) (clockMode : ClockMode)
    (labels : List (ServerStep R)) :
    let start := ServerProcess.start sampleRate panMode ingressCapacity g clockMode
    let s := perform ServerProcess.step start labels
    let calls := start.engineCalls [] labels
    let wheels := freshWheels [(labels.length, g, true)]
    let kills := killQueue labels.length
    (∃ final, (RfofsEngine.new sampleRate panMode wheels kills).play calls =
      some (final, s.heard)) ∧
    submitted calls = consumed s.plane.log ++ s.plane.wheelRx.rx.items ∧
    requested calls = s.plane.drainedKills ++ s.plane.killRx.rx.items ∧
    (submitted calls).Sublist s.plane.acceptedFofs ∧
    (requested calls).Sublist s.plane.acceptedKills ∧
    (∀ choice, (s.plane.step .endBlock).isSome → (s.endBlock choice).isSome) ∧
    (ExpLaws R → (Ensemble.new sampleRate panMode wheels kills).Fits calls →
      s.heard = ((Ensemble.new sampleRate panMode wheels kills).play calls).2) := by
  intro start s calls wheels kills
  have room : (SerialRun.mk [] (0, 0) (freshWheel labels.length g true, Ledger.empty) []
      (RfofsEngine.new sampleRate panMode wheels kills)).Room labels.length :=
    ⟨(Nat.zero_add _).le, (Nat.zero_add _).le⟩
  rcases (Mirrors.start sampleRate panMode ingressCapacity labels.length g clockMode).follow_run
    room with ⟨final, heard, played, same, tracked⟩
  replace same : s.heard = heard := same
  subst same
  have passed : Passed start [] [] := ⟨rfl, rfl, fun _ => rfl⟩
  rcases passed.run labels with ⟨fofs, requests⟩
  have ordered : Ordered s.plane :=
    ServerProcess.plane_ordered (Ordered.start ingressCapacity g) labels
  refine ⟨⟨final, played⟩, fofs.symm, requests.symm, ?_, ?_, ?_, ?_⟩
  · change (submitted ([] ++ calls)).Sublist _
    rw [← fofs]
    have all := ordered.fofs
    rw [← List.append_assoc] at all
    exact (List.sublist_append_left _ _).trans all
  · change (requested ([] ++ calls)).Sublist _
    rw [← requests]
    have all := ordered.kills
    rw [← List.append_assoc] at all
    exact (List.sublist_append_left _ _).trans all
  · intro choice ends
    rcases Option.isSome_iff_exists.mp ends with ⟨plane, ended⟩
    rcases RfofsEngine.spawn_foldl choice s.engine tracked s.incoming with ⟨_, spawned, _⟩
    rcases RfofsEngine.kill_foldlM spawned s.killRequests with ⟨ready, killed, _, _⟩
    unfold ServerProcess.endBlock ServerProcess.ready
    rw [ended, Option.bind_some, killed]
    rfl
  · intro laws fits
    rcases (Plays.new sampleRate panMode [(labels.length, g, true)] labels.length).play laws fits
      with ⟨other, ensemblePlayed, _⟩
    rw [played] at ensemblePlayed
    exact congrArg Prod.snd (Option.some.inj ensemblePlayed)

/-- A grain that is forwarded behind the drain of the wheel comes after the block. -/
def lateForward : List (ServerStep ℝ) :=
  [.addFof (plainGrain 1 2), .bridge, .beginBlock ⟨4, 0, none⟩, .advance, .bridge,
    .endBlock KeyChoice.next]

theorem server_serializable_late :
    ∃ final, (RfofsEngine.new (1 : ℝ) .mono (freshWheels [(6, ⟨2, 4, 1, by decide, by decide⟩, true)])
      (killQueue 6)).play
        [.clock 0, .block KeyChoice.next (silence 1 4) 4, .submit 0 (plainGrain 1 2)] =
      some (final, (perform ServerProcess.step
        (.start 1 .mono 1 ⟨2, 4, 1, by decide, by decide⟩ .jackFrameTime) lateForward).heard) := by
  have serial := (server_serializable (1 : ℝ) .mono 1 ⟨2, 4, 1, by decide, by decide⟩
    .jackFrameTime lateForward).1
  have calls : (ServerProcess.start (1 : ℝ) .mono 1 ⟨2, 4, 1, by decide, by decide⟩
      .jackFrameTime).engineCalls [] lateForward =
        [.clock 0, .block KeyChoice.next (silence 1 4) 4, .submit 0 (plainGrain 1 2)] := rfl
  rw [calls] at serial
  exact serial

end Server

end Control
end Rfofs
