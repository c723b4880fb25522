import Rfofs.Control.Ring
import Rfofs.Queue.Accounts

namespace Rfofs
namespace Control

open Foundation
open Grain
open Queue

/-!
# From the client to the engine

Three agents hand requests on.  The client pushes into the shared rings, which are
bounded buffers by the linearization of `Ring`.  The bridging thread carries one
request at a time from a shared ring into the queue of the engine.  The audio
thread admits from the ingress ring, advances the wheel and drains the kill queue,
one entry a step.  The steps of the three interleave in any order.

The bridging thread ignores the result of its pushes: a request that meets a full
queue is dropped there, and nothing counts it.  The observer keeps a list of these
requests; with it the books balance.
-/

variable {R : Type*}

/-- Program counter of the bridging thread, with the request in its hand.  Between a pop and a
push the request is in neither queue. -/
inductive BridgePc (R : Type*) where
  | popFof
  | pushFof (params : FofParams R)
  | popKill
  | pushKill (req : FofKillRequest R)

/-- Program counter of the audio thread.  It keeps the admission bound, which was taken when
the block began. -/
inductive AudioPc where
  | idle
  | admitting (admitBefore blockEnd : Nat)
  | drainingKills

/-- The shared rings, the hands of the agents, and the queues of the engine.  The
last six fields are the observer's: what the client was told is accepted, what the
bridging thread has dropped, and what the engine has received. -/
structure ControlPlane (R : Type*) where
  fofRing : BoundedFifo (FofParams R)
  killRing : BoundedFifo (FofKillRequest R)
  bridge : BridgePc R
  wheelRx : TimeWheelConsumer R
  killRx : KillQueueConsumer R
  audio : AudioPc
  acceptedFofs : List (FofParams R)
  acceptedKills : List (FofKillRequest R)
  droppedFofs : List (FofParams R)
  droppedKills : List (FofKillRequest R)
  log : List (Verdict R)
  fired : List (FofParams R)
  drainedKills : List (FofKillRequest R)

/-- The steps of the client, of the bridging thread and of the audio thread; they may come in
any order. -/
inductive ControlStep (R : Type*) where
  | addFof (params : FofParams R)
  | kill (req : FofKillRequest R)
  | bridge
  | beginBlock (blockStart blockSize : Nat)
  | admitNext
  | advance
  | drainKill
  | endBlock

namespace ControlPlane

/-- The server at startup, with a sink attached.  All queues are empty. -/
def start (ingressCapacity : Nat) (g : Geometry) : ControlPlane R where
  fofRing := BoundedFifo.empty fofCap.cap
  killRing := BoundedFifo.empty killCap.cap
  bridge := .popFof
  wheelRx := (timeWheel ingressCapacity g.slots g.duration g.capacity g.slots_pos
    g.duration_pos).attachStats QueueStats.default
  killRx := killQueue 256
  audio := .idle
  acceptedFofs := []
  acceptedKills := []
  droppedFofs := []
  droppedKills := []
  log := []
  fired := []
  drainedKills := []

/-- `rfofs_add_fof` and its return code.  A request that finds the shared ring full is not
written anywhere. -/
def addFof (s : ControlPlane R) (params : FofParams R) : ControlPlane R × Int :=
  match s.fofRing.push params with
  | .ok ring => ({ s with fofRing := ring, acceptedFofs := s.acceptedFofs ++ [params] }, 0)
  | .error _ => (s, -2)

/-- `rfofs_kill` and its return code.  It differs from `addFof` by its ring alone. -/
def kill (s : ControlPlane R) (req : FofKillRequest R) : ControlPlane R × Int :=
  match s.killRing.push req with
  | .ok ring => ({ s with killRing := ring, acceptedKills := s.acceptedKills ++ [req] }, 0)
  | .error _ => (s, -2)

/-- One step of the bridging thread.  Its two pushes have the same outcome for it
whether they succeed or not. -/
def bridgeStep (s : ControlPlane R) : ControlPlane R :=
  match s.bridge with
  | .popFof =>
      match s.fofRing.pop with
      | some (params, ring) => { s with fofRing := ring, bridge := .pushFof params }
      | none => { s with bridge := .popKill }
  | .pushFof params =>
      match s.wheelRx.push params with
      | .ok wheelRx => { s with wheelRx := wheelRx, bridge := .popKill }
      | .error lost => { s with bridge := .popKill, droppedFofs := s.droppedFofs ++ [lost] }
  | .popKill =>
      match s.killRing.pop with
      | some (req, ring) => { s with killRing := ring, bridge := .pushKill req }
      | none => { s with bridge := .popFof }
  | .pushKill req =>
      match s.killRx.push req with
      | .ok killRx => { s with killRx := killRx, bridge := .popFof }
      | .error lost => { s with bridge := .popFof, droppedKills := s.droppedKills ++ [lost] }

/-- Consume the head of the ingress ring and schedule it.  The rejected request is written to
the log, which is all that the counters keep of it. -/
def admitHead (s : ControlPlane R) (params : FofParams R) (rest : List (FofParams R))
    (shorter : rest.length ≤ s.wheelRx.rx.items.length) : ControlPlane R :=
  let admitted := TimeWheelConsumer.admitEntry s.wheelRx.wheel s.wheelRx.stats params
  { s with
    wheelRx := ⟨s.wheelRx.rx.keep rest shorter, admitted.1, admitted.2⟩
    log := s.log ++ [verdictOf s.wheelRx.wheel params] }

/-- Advance the wheel, fire, and record the occupancy.  This is one step, for the wheel
belongs to the audio thread. -/
def advanceWheel (s : ControlPlane R) (blockEnd : Nat) : ControlPlane R :=
  let advanced := s.wheelRx.wheel.advance blockEnd s.fired
  { s with
    wheelRx := { s.wheelRx with
      wheel := advanced.1
      stats := s.wheelRx.stats.map (fun sink => { sink with queueSize := advanced.1.len }) }
    audio := .drainingKills
    fired := advanced.2 }

/-- One step of one agent, if the agent is ready for it.  The client and the bridging thread
are always ready. -/
def step (s : ControlPlane R) : ControlStep R → Option (ControlPlane R)
  | .addFof params => some (s.addFof params).1
  | .kill req => some (s.kill req).1
  | .bridge => some s.bridgeStep
  | .beginBlock blockStart blockSize =>
      match s.audio with
      | .idle =>
          let admitBefore := s.wheelRx.wheel.wheelTime + s.wheelRx.wheel.horizon
          some { s with audio := .admitting admitBefore (blockStart + blockSize) }
      | _ => none
  | .admitNext =>
      match s.audio, held : s.wheelRx.rx.items with
      | .admitting admitBefore _, params :: rest =>
          if params.startSample < admitBefore then
            some (s.admitHead params rest (by rw [held]; exact Nat.le_succ _))
          else
            none
      | _, _ => none
  | .advance =>
      match s.audio, s.wheelRx.rx.items with
      | .admitting _ blockEnd, [] => some (s.advanceWheel blockEnd)
      | .admitting admitBefore blockEnd, params :: _ =>
          if params.startSample < admitBefore then none else some (s.advanceWheel blockEnd)
      | _, _ => none
  | .drainKill =>
      match s.audio, s.killRx.rx.pop with
      | .drainingKills, some (req, rx) =>
          some { s with killRx := ⟨rx⟩, drainedKills := s.drainedKills ++ [req] }
      | _, _ => none
  | .endBlock =>
      match s.audio, s.killRx.rx.pop with
      | .drainingKills, none => some { s with audio := .idle }
      | _, _ => none

end ControlPlane

/-- What the bridging thread holds.  A request in its hand is accepted and not yet in the
ingress ring. -/
def BridgePc.fofs : BridgePc R → List (FofParams R)
  | .pushFof params => [params]
  | _ => []

def BridgePc.kills : BridgePc R → List (FofKillRequest R)
  | .pushKill req => [req]
  | _ => []

def controlSystem (ingressCapacity : Nat) (g : Geometry) :
    System (ControlPlane R) (ControlStep R) :=
  .ofStep (fun s => s = .start ingressCapacity g) ControlPlane.step

/-! ## Conservation -/

/-- The books of the control plane: where each accepted request is, and what the counters and
the rings hold of it. -/
structure Conserves (g : Geometry) (s : ControlPlane R) : Prop where
  wheel : WheelAccounts g s.wheelRx.wheel s.log s.fired
  counts : ∃ stats, s.wheelRx.stats = some stats ∧ Counts stats s.log
  fofs : (s.fofRing.items ++ (s.bridge.fofs ++ (s.wheelRx.rx.items ++
    (consumed s.log ++ s.droppedFofs)))).Perm s.acceptedFofs
  kills : (s.killRing.items ++ (s.bridge.kills ++ (s.killRx.rx.items ++
    (s.drainedKills ++ s.droppedKills)))).Perm s.acceptedKills

/-- An item moves to the end of the list behind it. -/
theorem perm_move_back {X : Type*} (x : X) (behind rest : List X) :
    ((behind ++ [x]) ++ rest).Perm (x :: (behind ++ rest)) := by
  rw [List.append_assoc]
  exact List.perm_middle

/-- An item moves to the end of everything. -/
theorem perm_move_last {X : Type*} (x : X) (first second third : List X) :
    (first ++ (second ++ (third ++ [x]))).Perm (x :: (first ++ (second ++ third))) := by
  rw [← List.append_assoc, ← List.append_assoc, ← List.append_assoc]
  exact List.perm_append_singleton x _

namespace Conserves

variable {g : Geometry} {s : ControlPlane R}

theorem start (ingressCapacity : Nat) (g : Geometry) :
    Conserves g (ControlPlane.start ingressCapacity g : ControlPlane R) where
  wheel := new_wheelAccounts g
  counts := ⟨QueueStats.default, rfl, default_counts⟩
  fofs := List.Perm.refl _
  kills := List.Perm.refl _

/-- What the client hands over joins the shared ring and the accepted requests. -/
theorem accept {X : Type*} {ring rest accepted : List X} (books : (ring ++ rest).Perm accepted)
    (x : X) : ((ring ++ [x]) ++ rest).Perm (accepted ++ [x]) :=
  (perm_move_back x ring rest).trans
    ((books.cons x).trans (List.perm_append_singleton x accepted).symm)

theorem addFof (books : Conserves g s) (params : FofParams R) :
    Conserves g (s.addFof params).1 := by
  unfold ControlPlane.addFof
  split
  · rename_i ring pushed
    refine ⟨books.wheel, books.counts, ?_, books.kills⟩
    change (ring.items ++ _).Perm (s.acceptedFofs ++ [params])
    rw [(BoundedFifo.push_ok pushed).1]
    exact accept books.fofs params
  · exact books

theorem kill (books : Conserves g s) (req : FofKillRequest R) :
    Conserves g (s.kill req).1 := by
  unfold ControlPlane.kill
  split
  · rename_i ring pushed
    refine ⟨books.wheel, books.counts, books.fofs, ?_⟩
    change (ring.items ++ _).Perm (s.acceptedKills ++ [req])
    rw [(BoundedFifo.push_ok pushed).1]
    exact accept books.kills req
  · exact books

theorem bridgeStep (books : Conserves g s) : Conserves g s.bridgeStep := by
  have fofs := books.fofs
  have kills := books.kills
  unfold ControlPlane.bridgeStep
  cases pc : s.bridge with
  | popFof =>
      simp only [pc] at fofs kills ⊢
      split
      · rename_i params ring popped
        refine ⟨books.wheel, books.counts, ?_, kills⟩
        rw [(BoundedFifo.pop_eq_some popped).1] at fofs
        exact List.perm_middle.trans fofs
      · exact ⟨books.wheel, books.counts, fofs, kills⟩
  | pushFof params =>
      simp only [pc] at fofs kills ⊢
      rcases s.wheelRx.push_cases params with ⟨rx, equal, items, _⟩ | ⟨equal, _⟩
      · rw [equal]
        refine ⟨books.wheel, books.counts, ?_, kills⟩
        change (s.fofRing.items ++ (rx.items ++ _)).Perm _
        rw [items]
        exact ((perm_move_back params _ _).append_left _).trans fofs
      · rw [equal]
        refine ⟨books.wheel, books.counts, ?_, kills⟩
        exact ((perm_move_last params _ _ _).append_left _).trans fofs
  | popKill =>
      simp only [pc] at fofs kills ⊢
      split
      · rename_i req ring popped
        refine ⟨books.wheel, books.counts, fofs, ?_⟩
        rw [(BoundedFifo.pop_eq_some popped).1] at kills
        exact List.perm_middle.trans kills
      · exact ⟨books.wheel, books.counts, fofs, kills⟩
  | pushKill req =>
      simp only [pc] at fofs kills ⊢
      rcases s.killRx.push_cases req with ⟨rx, equal, items, _⟩ | ⟨equal, _⟩
      · rw [equal]
        refine ⟨books.wheel, books.counts, fofs, ?_⟩
        change (s.killRing.items ++ (rx.items ++ _)).Perm _
        rw [items]
        exact ((perm_move_back req _ _).append_left _).trans kills
      · rw [equal]
        refine ⟨books.wheel, books.counts, fofs, ?_⟩
        exact ((perm_move_last req _ _ _).append_left _).trans kills

/-- An admission moves the head of the ring into the log. -/
theorem admitHead (books : Conserves g s) {params : FofParams R} {rest : List (FofParams R)}
    (held : s.wheelRx.rx.items = params :: rest)
    (shorter : rest.length ≤ s.wheelRx.rx.items.length) :
    Conserves g (s.admitHead params rest shorter) := by
  have fofs := books.fofs
  rw [held] at fofs
  rcases books.counts with ⟨stats, attached, counts⟩
  refine ⟨books.wheel.schedule params, ?_, ?_, books.kills⟩
  · refine ⟨stats.record (verdictOf s.wheelRx.wheel params).2, ?_, counts.record _⟩
    change (TimeWheelConsumer.admitEntry _ s.wheelRx.stats params).2 = _
    rw [attached]
    rfl
  · change (s.fofRing.items ++ (s.bridge.fofs ++ (rest ++
      (consumed (s.log ++ [verdictOf s.wheelRx.wheel params]) ++ s.droppedFofs)))).Perm _
    rw [consumed_append]
    refine List.Perm.trans ?_ fofs
    refine List.Perm.append_left _ (List.Perm.append_left _ ?_)
    refine List.Perm.trans (List.Perm.append_left _ (perm_move_back params _ _)) ?_
    exact List.perm_middle

theorem advanceWheel (books : Conserves g s) (blockEnd : Nat) :
    Conserves g (s.advanceWheel blockEnd) := by
  rcases books.counts with ⟨stats, attached, counts⟩
  let occupancy := (s.wheelRx.wheel.advance blockEnd s.fired).1.len
  refine ⟨books.wheel.advance blockEnd,
    ⟨{ stats with queueSize := occupancy }, ?_, counts.withQueueSize occupancy⟩,
    books.fofs, books.kills⟩
  change Option.map _ s.wheelRx.stats = _
  rw [attached]
  rfl

/-- What one step of any agent preserves.  There is one case for each kind of step. -/
theorem step (books : Conserves g s) {label : ControlStep R} {next : ControlPlane R}
    (taken : s.step label = some next) : Conserves g next := by
  cases label with
  | addFof params =>
      cases taken
      exact books.addFof params
  | kill req =>
      cases taken
      exact books.kill req
  | bridge =>
      cases taken
      exact books.bridgeStep
  | beginBlock blockStart blockSize =>
      simp only [ControlPlane.step] at taken
      split at taken <;> cases taken
      exact ⟨books.wheel, books.counts, books.fofs, books.kills⟩
  | admitNext =>
      simp only [ControlPlane.step] at taken
      split at taken
      · rename_i held
        split at taken <;> cases taken
        exact books.admitHead held _
      · cases taken
  | advance =>
      simp only [ControlPlane.step] at taken
      split at taken
      · cases taken
        exact books.advanceWheel _
      · split at taken <;> cases taken
        exact books.advanceWheel _
      · cases taken
  | drainKill =>
      simp only [ControlPlane.step] at taken
      split at taken <;> cases taken
      rename_i popped
      refine ⟨books.wheel, books.counts, books.fofs, ?_⟩
      have kills := books.kills
      rw [(BoundedFifo.pop_eq_some popped).1] at kills
      refine List.Perm.trans ?_ kills
      refine List.Perm.append_left _ (List.Perm.append_left _ ?_)
      exact (List.Perm.append_left _ (perm_move_back _ _ _)).trans List.perm_middle
  | endBlock =>
      simp only [ControlPlane.step] at taken
      split at taken <;> cases taken
      exact ⟨books.wheel, books.counts, books.fofs, books.kills⟩

/-- By induction on the steps, the books are kept in every reachable state. -/
theorem reachable {ingressCapacity : Nat}
    (reached : (controlSystem ingressCapacity g).Reachable s) : Conserves g s := by
  apply System.ReachableVia.invariant _ _ reached
  · rintro _ rfl
    exact start ingressCapacity g
  · intro s label next books _ taken
    exact books.step taken

/-- Where the accepted requests are, with the consumed ones spelled out.  Each of them is in
one place. -/
theorem fofs_places (books : Conserves g s) :
    (s.fofRing.items ++ (s.bridge.fofs ++ (s.wheelRx.rx.items ++
      (s.wheelRx.wheel.slots.flatten ++ (s.fired ++ (rejectedFor .tooLate s.log ++
        (rejectedFor .tooEarly s.log ++ (rejectedFor .slotFull s.log ++
          s.droppedFofs)))))))).Perm s.acceptedFofs := by
  have places : (s.wheelRx.wheel.slots.flatten ++ (s.fired ++ (rejectedFor .tooLate s.log ++
      (rejectedFor .tooEarly s.log ++ rejectedFor .slotFull s.log)))).Perm (consumed s.log) := by
    refine List.Perm.trans ?_ books.wheel.consumed_perm
    have order : (s.wheelRx.wheel.slots.flatten ++ s.fired).Perm
        (s.fired ++ s.wheelRx.wheel.slots.flatten) := List.perm_append_comm
    have swapped := order.append (rejected_perm s.log)
    simpa only [List.append_assoc] using swapped
  refine List.Perm.trans ?_ books.fofs
  refine List.Perm.append_left _ (List.Perm.append_left _ (List.Perm.append_left _ ?_))
  have whole := places.append_right s.droppedFofs
  simpa only [List.append_assoc] using whole

end Conserves

/-! ## Losses -/

/-- A client is told zero exactly when its request is accepted. -/
theorem addFof_code (s : ControlPlane R) (params : FofParams R) :
    (s.addFof params).2 = 0 ↔
      (s.addFof params).1.acceptedFofs = s.acceptedFofs ++ [params] := by
  unfold ControlPlane.addFof
  cases s.fofRing.push params <;> simp

theorem kill_code (s : ControlPlane R) (req : FofKillRequest R) :
    (s.kill req).2 = 0 ↔ (s.kill req).1.acceptedKills = s.acceptedKills ++ [req] := by
  unfold ControlPlane.kill
  cases s.killRing.push req <;> simp

/-- The ingress ring and the kill queue are the only places where a request is
dropped, and they drop only when full. -/
theorem dropped_only_when_full {s next : ControlPlane R} {label : ControlStep R}
    (taken : s.step label = some next) :
    (next.droppedFofs = s.droppedFofs ∨
      s.wheelRx.rx.items.length = s.wheelRx.rx.capacity) ∧
    (next.droppedKills = s.droppedKills ∨ s.killRx.rx.items.length = s.killRx.rx.capacity) := by
  cases label with
  | addFof params =>
      cases taken
      unfold ControlPlane.addFof
      split <;> exact ⟨Or.inl rfl, Or.inl rfl⟩
  | kill req =>
      cases taken
      unfold ControlPlane.kill
      split <;> exact ⟨Or.inl rfl, Or.inl rfl⟩
  | bridge =>
      cases taken
      unfold ControlPlane.bridgeStep
      split
      · split <;> exact ⟨Or.inl rfl, Or.inl rfl⟩
      · rename_i params _
        rcases s.wheelRx.push_cases params with ⟨rx, equal, _⟩ | ⟨equal, full⟩ <;> rw [equal]
        · exact ⟨Or.inl rfl, Or.inl rfl⟩
        · exact ⟨Or.inr full, Or.inl rfl⟩
      · split <;> exact ⟨Or.inl rfl, Or.inl rfl⟩
      · rename_i req _
        rcases s.killRx.push_cases req with ⟨rx, equal, _⟩ | ⟨equal, full⟩ <;> rw [equal]
        · exact ⟨Or.inl rfl, Or.inl rfl⟩
        · exact ⟨Or.inl rfl, Or.inr full⟩
  | _ =>
      simp only [ControlPlane.step] at taken
      split at taken <;> (try split at taken) <;> cases taken <;>
        exact ⟨Or.inl rfl, Or.inl rfl⟩

/-- At every moment of every run each accepted request is in exactly one place: in
the shared ring, in the hand of the bridging thread, in the ingress ring, in the
wheel, fired, counted as rejected for one reason, or dropped by the bridging thread
at a full queue. -/
theorem accepted_requests_conserved (ingressCapacity : Nat) (g : Geometry) (s : ControlPlane R)
    (reached : (controlSystem ingressCapacity g).Reachable s) :
    (s.fofRing.items ++ (s.bridge.fofs ++ (s.wheelRx.rx.items ++
      (s.wheelRx.wheel.slots.flatten ++ (s.fired ++ (rejectedFor .tooLate s.log ++
        (rejectedFor .tooEarly s.log ++ (rejectedFor .slotFull s.log ++
          s.droppedFofs)))))))).Perm s.acceptedFofs ∧
    (∃ stats, s.wheelRx.stats = some stats ∧
      stats.tooLate = (rejectedFor .tooLate s.log).length ∧
      stats.tooEarly = (rejectedFor .tooEarly s.log).length ∧
      stats.slotFull = (rejectedFor .slotFull s.log).length) ∧
    (s.killRing.items ++ (s.bridge.kills ++ (s.killRx.rx.items ++
      (s.drainedKills ++ s.droppedKills)))).Perm s.acceptedKills ∧
    ∀ label next, s.step label = some next →
      (next.droppedFofs = s.droppedFofs ∨
        s.wheelRx.rx.items.length = s.wheelRx.rx.capacity) ∧
      (next.droppedKills = s.droppedKills ∨
        s.killRx.rx.items.length = s.killRx.rx.capacity) := by
  have books := Conserves.reachable reached
  rcases books.counts with ⟨stats, attached, counts⟩
  exact ⟨books.fofs_places, ⟨stats, attached, counts.tooLate, counts.tooEarly, counts.slotFull⟩,
    books.kills, fun _ _ taken => dropped_only_when_full taken⟩

/-- A client submits twice; the bridging thread carries both requests to an ingress
ring of one entry while the audio thread waits. -/
def overrun : ControlPlane Nat :=
  perform ControlPlane.step (.start 1 ⟨1, 1, 1, by decide, by decide⟩)
    [.addFof (.onset 5), .addFof (.onset 6), .bridge, .bridge, .bridge, .bridge, .bridge]

theorem overrun_reachable :
    (controlSystem 1 ⟨1, 1, 1, by decide, by decide⟩).Reachable overrun := by
  have started : (controlSystem 1 ⟨1, 1, 1, by decide, by decide⟩).Reachable
      (ControlPlane.start 1 ⟨1, 1, 1, by decide, by decide⟩ : ControlPlane Nat) := .init rfl
  exact started.perform _

theorem accepted_requests_conserved_overrun :
    (overrun.fofRing.items ++ (overrun.bridge.fofs ++ (overrun.wheelRx.rx.items ++
      (overrun.wheelRx.wheel.slots.flatten ++ (overrun.fired ++
        (rejectedFor .tooLate overrun.log ++ (rejectedFor .tooEarly overrun.log ++
          (rejectedFor .slotFull overrun.log ++ overrun.droppedFofs)))))))).Perm
            overrun.acceptedFofs ∧ overrun.droppedFofs = [.onset 6] :=
  ⟨(accepted_requests_conserved 1 ⟨1, 1, 1, by decide, by decide⟩ overrun
    overrun_reachable).1, by decide⟩

/-- Without the dropped requests the books of that run do not balance: a request
that was accepted with code zero is nowhere. -/
theorem accepted_request_vanishes :
    ¬ ∀ s : ControlPlane Nat,
      (controlSystem 1 ⟨1, 1, 1, by decide, by decide⟩).Reachable s →
        (s.fofRing.items ++ (s.bridge.fofs ++ (s.wheelRx.rx.items ++
          (s.wheelRx.wheel.slots.flatten ++ (s.fired ++ (rejectedFor .tooLate s.log ++
            (rejectedFor .tooEarly s.log ++ rejectedFor .slotFull s.log))))))).Perm
              s.acceptedFofs := by
  intro conserved
  have lengths := (conserved overrun overrun_reachable).length_eq
  revert lengths
  decide

/-! ## An undisturbed block -/

theorem step_admit {s : ControlPlane R} {admitBefore blockEnd : Nat}
    (admitting : s.audio = .admitting admitBefore blockEnd) {params : FofParams R}
    {rest : List (FofParams R)} (held : s.wheelRx.rx.items = params :: rest)
    (ready : params.startSample < admitBefore) :
    ∃ shorter, s.step .admitNext = some (s.admitHead params rest shorter) := by
  refine ⟨by rw [held]; exact Nat.le_succ _, ?_⟩
  simp only [ControlPlane.step]
  split
  · rename_i params' rest' pc held'
    rw [admitting] at pc
    cases pc
    rw [held] at held'
    cases held'
    rw [if_pos ready]
  · rename_i impossible
    exact absurd held (impossible _ _ _ _ admitting)

/-- While the audio thread runs alone, its admissions are the admission loop.  The steps of
the loop are those of the source. -/
theorem admits_eq_admitReady {s : ControlPlane R} {admitBefore blockEnd : Nat}
    (admitting : s.audio = .admitting admitBefore blockEnd) :
    let log := verdicts admitBefore s.wheelRx.rx.items s.wheelRx.wheel
    let left := TimeWheelConsumer.admitReady admitBefore s.wheelRx.rx.items s.wheelRx.wheel
      s.wheelRx.stats
    let after := perform ControlPlane.step s (List.replicate log.length .admitNext)
    after.wheelRx.rx.items = left.1 ∧ after.wheelRx.wheel = left.2.1 ∧
      after.wheelRx.stats = left.2.2 ∧ after.audio = s.audio ∧ after.fired = s.fired ∧
      after.log = s.log ++ log := by
  induction held : s.wheelRx.rx.items generalizing s with
  | nil => exact ⟨held, rfl, rfl, rfl, rfl, (List.append_nil _).symm⟩
  | cons params rest ih =>
      by_cases ready : params.startSample < admitBefore
      · rcases step_admit admitting held ready with ⟨shorter, taken⟩
        have later := ih (s := s.admitHead params rest shorter) admitting rfl
        simp only [TimeWheelConsumer.admitReady, verdicts, if_pos ready, List.length_cons,
          List.replicate_succ, perform, List.foldl_cons, taken, Option.getD_some]
        rcases later with ⟨items, wheel, stats, audio, fired, log⟩
        refine ⟨items, wheel, stats, audio, fired, log.trans ?_⟩
        exact List.append_assoc _ _ _
      · simp only [TimeWheelConsumer.admitReady, verdicts, if_neg ready, List.length_nil,
          List.replicate_zero, perform, List.foldl_nil]
        exact ⟨held, trivial, trivial, trivial, trivial, (List.append_nil _).symm⟩

/-- The loop has stopped, so the wheel may advance. -/
theorem step_advance {s : ControlPlane R} {admitBefore blockEnd : Nat}
    (admitting : s.audio = .admitting admitBefore blockEnd)
    (stopped : ∀ params rest, s.wheelRx.rx.items = params :: rest →
      admitBefore ≤ params.startSample) :
    s.step .advance = some (s.advanceWheel blockEnd) := by
  simp only [ControlPlane.step, admitting]
  cases held : s.wheelRx.rx.items with
  | nil => rfl
  | cons params rest => exact if_neg (Nat.not_lt_of_le (stopped params rest held))

/-- The steps of one block with nothing in between are `drainBlockSafe`.  This connects the
interleaved model with the one of a single thread. -/
theorem undisturbed_block (s : ControlPlane R) (waiting : s.audio = .idle)
    (blockStart blockSize : Nat) :
    let drained := s.wheelRx.drainBlockSafe blockStart blockSize s.fired
    let after := perform ControlPlane.step s ([.beginBlock blockStart blockSize] ++
      List.replicate s.wheelRx.blockVerdicts.length .admitNext ++ [.advance])
    after.wheelRx.rx.items = drained.1.rx.items ∧ after.wheelRx.wheel = drained.1.wheel ∧
      after.wheelRx.stats = drained.1.stats ∧ after.fired = drained.2 ∧
      after.log = s.log ++ s.wheelRx.blockVerdicts := by
  intro drained after
  let admitBefore := s.wheelRx.wheel.wheelTime + s.wheelRx.wheel.horizon
  let begun := { s with audio := .admitting admitBefore (blockStart + blockSize) }
  have taken : s.step (.beginBlock blockStart blockSize) = some begun := by
    simp only [ControlPlane.step, waiting]
    rfl
  let admitted := perform ControlPlane.step begun
    (List.replicate s.wheelRx.blockVerdicts.length .admitNext)
  obtain ⟨items, wheel, stats, audio, fired, log⟩ :
      admitted.wheelRx.rx.items = _ ∧ admitted.wheelRx.wheel = _ ∧
        admitted.wheelRx.stats = _ ∧ admitted.audio = _ ∧ admitted.fired = _ ∧
        admitted.log = _ := admits_eq_admitReady (s := begun) rfl
  have last : admitted.step .advance =
      some (admitted.advanceWheel (blockStart + blockSize)) :=
    step_advance audio (fun params rest left => admitReady_head (items.symm.trans left))
  have result : after = admitted.advanceWheel (blockStart + blockSize) := by
    change perform ControlPlane.step s _ = _
    rw [perform, List.foldl_append, List.foldl_append, List.foldl_cons, List.foldl_nil,
      List.foldl_cons, List.foldl_nil, taken, Option.getD_some]
    change (admitted.step .advance).getD admitted = _
    rw [last, Option.getD_some]
  rw [result]
  refine ⟨items, ?_, ?_, ?_, log⟩
  · change (admitted.wheelRx.wheel.advance (blockStart + blockSize) admitted.fired).1 = _
    rw [wheel, fired]
    rfl
  · change admitted.wheelRx.stats.map _ = _
    rw [stats, wheel, fired]
    rfl
  · change (admitted.wheelRx.wheel.advance (blockStart + blockSize) admitted.fired).2 = _
    rw [wheel, fired]
    rfl

end Control
end Rfofs
