import Rfofs.Control.Bridge
import Rfofs.Queue.Resync

namespace Rfofs
namespace Control

open Foundation
open Grain
open Queue

/-!
# Order and atomicity on the way to the engine

What the client was told is accepted keeps its order on its way through the shared ring,
the hand of the bridging thread and the ingress ring, whichever requests are dropped and
however the three agents interleave.

While the audio thread admits, the bridging thread goes on pushing, so the blocks of
the control plane are not calls of `drainBlockSafe`.  They are as good as calls: a push
that comes in between might as well have come before the block.  Every run of the
control plane leaves the queue, its counters and its ledger as a serial run does, in which
each block is one call.  In the serial run the ring has to be long enough, because there
the entries of a block make room only at its end.
-/

variable {R : Type*}

/-! ## Order -/

/-- The requests of the client in order: consumed, in the ingress ring, in the hand of
the bridging thread, in the shared ring. -/
structure Ordered (s : ControlPlane R) : Prop where
  fofs : (consumed s.log ++ (s.wheelRx.rx.items ++ (s.bridge.fofs ++ s.fofRing.items))).Sublist
    s.acceptedFofs
  kills : (s.drainedKills ++ (s.killRx.rx.items ++ (s.bridge.kills ++ s.killRing.items))).Sublist
    s.acceptedKills

namespace Ordered

variable {s : ControlPlane R}

theorem start (ingressCapacity : Nat) (g : Geometry) :
    Ordered (ControlPlane.start ingressCapacity g : ControlPlane R) :=
  ⟨List.Sublist.refl _, List.Sublist.refl _⟩

theorem addFof (ordered : Ordered s) (params : FofParams R) : Ordered (s.addFof params).1 := by
  unfold ControlPlane.addFof
  split
  · rename_i ring pushed
    refine ⟨?_, ordered.kills⟩
    have fofs := ordered.fofs
    change (_ ++ (_ ++ (_ ++ ring.items))).Sublist (s.acceptedFofs ++ [params])
    rw [(BoundedFifo.push_ok pushed).1]
    simp only [← List.append_assoc] at fofs ⊢
    exact fofs.append (List.Sublist.refl _)
  · exact ordered

theorem kill (ordered : Ordered s) (req : FofKillRequest R) : Ordered (s.kill req).1 := by
  unfold ControlPlane.kill
  split
  · rename_i ring pushed
    refine ⟨ordered.fofs, ?_⟩
    have kills := ordered.kills
    change (_ ++ (_ ++ (_ ++ ring.items))).Sublist (s.acceptedKills ++ [req])
    rw [(BoundedFifo.push_ok pushed).1]
    simp only [← List.append_assoc] at kills ⊢
    exact kills.append (List.Sublist.refl _)
  · exact ordered

/-- The hand of the bridging thread is emptied into a queue, or dropped.  Either way the order
of the others stays. -/
theorem sublist_drop {X : Type*} {ahead behind accepted : List X} {x : X}
    (ordered : (ahead ++ ([x] ++ behind)).Sublist accepted) :
    (ahead ++ ([] ++ behind)).Sublist accepted :=
  ((List.Sublist.refl ahead).append (List.sublist_append_right [x] behind)).trans ordered

theorem bridgeStep (ordered : Ordered s) : Ordered s.bridgeStep := by
  have fofs := ordered.fofs
  have kills := ordered.kills
  unfold ControlPlane.bridgeStep
  cases pc : s.bridge with
  | popFof =>
      simp only [pc] at fofs kills ⊢
      split
      · rename_i params ring popped
        rw [(BoundedFifo.pop_eq_some popped).1] at fofs
        exact ⟨fofs, kills⟩
      · exact ⟨fofs, kills⟩
  | pushFof params =>
      simp only [pc] at fofs kills ⊢
      rcases s.wheelRx.push_cases params with ⟨rx, equal, items, _⟩ | ⟨equal, _⟩
      · rw [equal]
        refine ⟨?_, kills⟩
        change (_ ++ (rx.items ++ ([] ++ _))).Sublist _
        rw [items, List.append_assoc]
        exact fofs
      · rw [equal]
        refine ⟨?_, kills⟩
        change (consumed s.log ++ (s.wheelRx.rx.items ++ ([params] ++ _))).Sublist _ at fofs
        rw [← List.append_assoc] at fofs
        change (consumed s.log ++ (s.wheelRx.rx.items ++ ([] ++ _))).Sublist _
        rw [← List.append_assoc]
        exact sublist_drop fofs
  | popKill =>
      simp only [pc] at fofs kills ⊢
      split
      · rename_i req ring popped
        rw [(BoundedFifo.pop_eq_some popped).1] at kills
        exact ⟨fofs, kills⟩
      · exact ⟨fofs, kills⟩
  | pushKill req =>
      simp only [pc] at fofs kills ⊢
      rcases s.killRx.push_cases req with ⟨rx, equal, items, _⟩ | ⟨equal, _⟩
      · rw [equal]
        refine ⟨fofs, ?_⟩
        change (_ ++ (rx.items ++ ([] ++ _))).Sublist _
        rw [items, List.append_assoc]
        exact kills
      · rw [equal]
        refine ⟨fofs, ?_⟩
        change (s.drainedKills ++ (s.killRx.rx.items ++ ([req] ++ _))).Sublist _ at kills
        rw [← List.append_assoc] at kills
        change (s.drainedKills ++ (s.killRx.rx.items ++ ([] ++ _))).Sublist _
        rw [← List.append_assoc]
        exact sublist_drop kills

/-- What one step of any agent preserves.  Only the bridging thread and the audio thread move
requests that have been accepted. -/
theorem step (ordered : Ordered s) {label : ControlStep R} {next : ControlPlane R}
    (taken : s.step label = some next) : Ordered next := by
  cases label with
  | addFof params =>
      cases taken
      exact ordered.addFof params
  | kill req =>
      cases taken
      exact ordered.kill req
  | bridge =>
      cases taken
      exact ordered.bridgeStep
  | beginBlock blockStart blockSize =>
      simp only [ControlPlane.step] at taken
      split at taken <;> cases taken
      exact ⟨ordered.fofs, ordered.kills⟩
  | admitNext =>
      simp only [ControlPlane.step] at taken
      split at taken
      · rename_i params rest _ held
        split at taken <;> cases taken
        refine ⟨?_, ordered.kills⟩
        have fofs := ordered.fofs
        rw [held] at fofs
        change (consumed (s.log ++ [verdictOf s.wheelRx.wheel params]) ++ (rest ++ _)).Sublist _
        rw [consumed_append, List.append_assoc]
        exact fofs
      · cases taken
  | advance =>
      simp only [ControlPlane.step] at taken
      split at taken
      · cases taken
        exact ⟨ordered.fofs, ordered.kills⟩
      · split at taken <;> cases taken
        exact ⟨ordered.fofs, ordered.kills⟩
      · cases taken
  | drainKill =>
      simp only [ControlPlane.step] at taken
      split at taken <;> cases taken
      rename_i popped
      refine ⟨ordered.fofs, ?_⟩
      have kills := ordered.kills
      rw [(BoundedFifo.pop_eq_some popped).1] at kills
      change ((s.drainedKills ++ [_]) ++ _).Sublist _
      rw [List.append_assoc]
      exact kills
  | endBlock =>
      simp only [ControlPlane.step] at taken
      split at taken <;> cases taken
      exact ⟨ordered.fofs, ordered.kills⟩

/-- By induction on the steps, the order is kept in every reachable state. -/
theorem reachable {ingressCapacity : Nat} {g : Geometry}
    (reached : (controlSystem ingressCapacity g).Reachable s) : Ordered s := by
  apply System.ReachableVia.invariant _ _ reached
  · rintro _ rfl
    exact start ingressCapacity g
  · intro s label next ordered _ taken
    exact ordered.step taken

end Ordered

/-- Grains are fired by slot, and inside a slot in the order in which the client submitted
them; of a client that submits in order, they are fired in this order.  Kill requests
are drained in the order in which they were submitted. -/
structure KeepsOrder (g : Geometry) (s : ControlPlane R) : Prop where
  slots : s.fired.Pairwise (fun x y => slotNumber g x ≤ slotNumber g y)
  inside : ∀ k, (keyClass (slotNumber g) k s.fired).Sublist
    (keyClass (slotNumber g) k s.acceptedFofs)
  monotone : InOrder s.acceptedFofs → s.fired.Sublist s.acceptedFofs
  kills : s.drainedKills.Sublist s.acceptedKills

theorem requests_keep_order (ingressCapacity : Nat) (g : Geometry) (s : ControlPlane R)
    (reached : (controlSystem ingressCapacity g).Reachable s) : KeepsOrder g s := by
  have accounts := (Conserves.reachable reached).wheel
  have ordered := Ordered.reachable reached
  have consumed_first : (consumed s.log).Sublist s.acceptedFofs :=
    (List.sublist_append_left _ _).trans ordered.fofs
  refine ⟨accounts.fired_pairwise, fun k => ?_, fun sorted => ?_,
    (List.sublist_append_left _ _).trans ordered.kills⟩
  · exact (accounts.keyClass_fired_sublist k).trans (consumed_first.filter _)
  · refine (accounts.fired_sublist ?_).trans consumed_first
    exact (sorted.sublist consumed_first).imp (fun earlier => Nat.div_le_div_right earlier)

/-- Two slots are filled out of order, and two grains are killed, before a block fires. -/
def disordered (g : Geometry) : ControlPlane Nat :=
  perform ControlPlane.step (.start 4 g)
    [[.addFof (.onset 12), .addFof (.onset 5), .addFof (.onset 3), .kill ⟨1, 4⟩, .kill ⟨2, 4⟩],
      List.replicate 10 .bridge,
      [.beginBlock 0 20, .admitNext, .admitNext, .admitNext, .advance, .drainKill, .drainKill,
        .endBlock]].flatten

/-- Of two slots of ten samples the first is fired first, and its grains in the order of their
submission. -/
theorem requests_keep_order_disordered :
    KeepsOrder ⟨4, 10, 8, by decide, by decide⟩
        (disordered ⟨4, 10, 8, by decide, by decide⟩) ∧
      (disordered ⟨4, 10, 8, by decide, by decide⟩).fired = [.onset 5, .onset 3, .onset 12] ∧
      (disordered ⟨4, 10, 8, by decide, by decide⟩).drainedKills = [⟨1, 4⟩, ⟨2, 4⟩] := by
  have started : (controlSystem 4 ⟨4, 10, 8, by decide, by decide⟩).Reachable
      (ControlPlane.start 4 ⟨4, 10, 8, by decide, by decide⟩ : ControlPlane Nat) := .init rfl
  exact ⟨requests_keep_order 4 ⟨4, 10, 8, by decide, by decide⟩ _ (started.perform _),
    by decide +kernel, by decide +kernel⟩

/-! ## Admissions and the entries behind them -/

section Admission

variable {admitBefore : Nat} {ready rest : List (FofParams R)} {wheel : Wheel (FofParams R)}
  {stats : Option QueueStats}

/-- Entries that are all ready are admitted before what stands behind them. -/
theorem admitReady_append (early : ∀ params ∈ ready, params.startSample < admitBefore) :
    TimeWheelConsumer.admitReady admitBefore (ready ++ rest) wheel stats =
      TimeWheelConsumer.admitReady admitBefore rest
        (TimeWheelConsumer.admitReady admitBefore ready wheel stats).2.1
        (TimeWheelConsumer.admitReady admitBefore ready wheel stats).2.2 := by
  induction ready generalizing wheel stats with
  | nil => rfl
  | cons params ready ih =>
      have first := early params List.mem_cons_self
      rw [List.cons_append, TimeWheelConsumer.admitReady, if_pos first,
        TimeWheelConsumer.admitReady, if_pos first]
      exact ih (fun later member => early later (List.mem_cons_of_mem _ member))

theorem verdicts_append (early : ∀ params ∈ ready, params.startSample < admitBefore)
    (stats : Option QueueStats) :
    verdicts admitBefore (ready ++ rest) wheel = verdicts admitBefore ready wheel ++
      verdicts admitBefore rest
        (TimeWheelConsumer.admitReady admitBefore ready wheel stats).2.1 := by
  induction ready generalizing wheel stats with
  | nil => rfl
  | cons params ready ih =>
      have first := early params List.mem_cons_self
      rw [List.cons_append, verdicts, if_pos first, verdicts, if_pos first, List.cons_append,
        TimeWheelConsumer.admitReady, if_pos first,
        ih (fun later member => early later (List.mem_cons_of_mem _ member))
          (TimeWheelConsumer.admitEntry wheel stats params).2]
      rfl

/-- The loop stops at once. -/
theorem admitReady_stopped
    (stopped : ∀ params more, rest = params :: more → admitBefore ≤ params.startSample) :
    TimeWheelConsumer.admitReady admitBefore rest wheel stats = (rest, wheel, stats) ∧
      verdicts admitBefore rest wheel = [] := by
  cases rest with
  | nil => exact ⟨rfl, rfl⟩
  | cons params more =>
      have late := Nat.not_lt_of_le (stopped params more rfl)
      rw [TimeWheelConsumer.admitReady, if_neg late, verdicts, if_neg late]
      exact ⟨rfl, rfl⟩

end Admission

/-! ## Serial runs -/

/-- The call that a step stands for: a push that succeeds, or a whole block where its
admissions end. -/
def ControlPlane.serialCall (s : ControlPlane R) (block : Nat × Nat) :
    ControlStep R → List (QueueCall R)
  | .bridge =>
      match s.bridge with
      | .pushFof params =>
          match s.wheelRx.push params with
          | .ok _ => [.push params]
          | .error _ => []
      | _ => []
  | .advance => [.drain block.1 block.2]
  | _ => []

/-- The arguments of the block that was begun last. -/
def ControlStep.block (block : Nat × Nat) : ControlStep R → Nat × Nat
  | .beginBlock blockStart blockSize => (blockStart, blockSize)
  | _ => block

/-- The calls that a run stands for.  Steps that are not enabled are skipped, and so are the
steps that a serial run has no call for. -/
def serialCalls (s : ControlPlane R) (block : Nat × Nat) :
    List (ControlStep R) → List (QueueCall R)
  | [] => []
  | label :: labels =>
      match s.step label with
      | none => serialCalls s block labels
      | some next => s.serialCall block label ++ serialCalls next (label.block block) labels

/-- The queue of the control plane and the queue of the serial run.  Within a block the
serial queue still holds what has been admitted. -/
structure Serialized (s : ControlPlane R) (block : Nat × Nat) (q : TimeWheelConsumer R × Ledger R)
    (admitted : List (FofParams R)) : Prop where
  ring : q.1.rx.items = admitted ++ s.wheelRx.rx.items
  fired : q.2.fired = s.fired
  pushed : q.2.pushed = consumed s.log ++ s.wheelRx.rx.items
  resting : (∀ admitBefore blockEnd, s.audio ≠ .admitting admitBefore blockEnd) → admitted = []
  blocked : ∀ admitBefore blockEnd, s.audio = .admitting admitBefore blockEnd →
    admitBefore = q.1.wheel.wheelTime + q.1.wheel.horizon ∧ blockEnd = block.1 + block.2 ∧
      ∀ params ∈ admitted, params.startSample < admitBefore
  wheel : s.wheelRx.wheel = (TimeWheelConsumer.admitReady
    (q.1.wheel.wheelTime + q.1.wheel.horizon) admitted q.1.wheel q.1.stats).2.1
  stats : s.wheelRx.stats = (TimeWheelConsumer.admitReady
    (q.1.wheel.wheelTime + q.1.wheel.horizon) admitted q.1.wheel q.1.stats).2.2
  log : s.log = q.2.log ++
    verdicts (q.1.wheel.wheelTime + q.1.wheel.horizon) admitted q.1.wheel

namespace Serialized

variable {s : ControlPlane R} {block : Nat × Nat} {q : TimeWheelConsumer R × Ledger R}
  {admitted : List (FofParams R)}

/-- A step that leaves the queue and the audio thread alone. -/
theorem frame (same : Serialized s block q admitted) {next : ControlPlane R}
    (wheelRx : next.wheelRx = s.wheelRx) (audio : next.audio = s.audio) (log : next.log = s.log)
    (fired : next.fired = s.fired) : Serialized next block q admitted := by
  refine ⟨?_, ?_, ?_, ?_, ?_, ?_, ?_, ?_⟩
  · rw [wheelRx]
    exact same.ring
  · rw [fired]
    exact same.fired
  · rw [log, wheelRx]
    exact same.pushed
  · rw [audio]
    exact same.resting
  · rw [audio]
    exact same.blocked
  · rw [wheelRx]
    exact same.wheel
  · rw [wheelRx]
    exact same.stats
  · rw [log]
    exact same.log

/-- The audio thread moves on outside of its admissions. -/
theorem move (same : Serialized s block q []) {next : ControlPlane R}
    (wheelRx : next.wheelRx = s.wheelRx) (log : next.log = s.log) (fired : next.fired = s.fired)
    (resting : ∀ admitBefore blockEnd, next.audio ≠ .admitting admitBefore blockEnd)
    (later : Nat × Nat) : Serialized next later q [] := by
  refine ⟨?_, ?_, ?_, fun _ => rfl, fun admitBefore blockEnd at_pc =>
    absurd at_pc (resting admitBefore blockEnd), ?_, ?_, ?_⟩
  · rw [wheelRx]
    exact same.ring
  · rw [fired]
    exact same.fired
  · rw [log, wheelRx]
    exact same.pushed
  · rw [wheelRx]
    exact same.wheel
  · rw [wheelRx]
    exact same.stats
  · rw [log]
    exact same.log

/-- A push comes before the block in the serial run.  The admission loop may or may not reach
it in this block. -/
theorem push (same : Serialized s block q admitted) {params : FofParams R}
    {rx : BoundedFifo (FofParams R)} (items : rx.items = s.wheelRx.rx.items ++ [params])
    (room : q.1.rx.items.length < q.1.rx.capacity) {next : ControlPlane R}
    (wheelRx : next.wheelRx = { s.wheelRx with rx := rx }) (audio : next.audio = s.audio)
    (log : next.log = s.log) (fired : next.fired = s.fired) :
    Serialized next block (observe q (.push params)) admitted ∧
      (observe q (.push params)).1.rx.items.length = q.1.rx.items.length + 1 ∧
      (observe q (.push params)).1.rx.capacity = q.1.rx.capacity := by
  rcases q.1.push_cases params with ⟨serial, pushed, serialItems, capacity⟩ | ⟨_, full⟩
  · have called : observe q (.push params) =
        ({ q.1 with rx := serial }, { q.2 with pushed := q.2.pushed ++ [params] }) := by
      simp only [observe, pushed]
    rw [called]
    refine ⟨⟨?_, ?_, ?_, ?_, ?_, ?_, ?_, ?_⟩, ?_, capacity⟩
    · dsimp only
      rw [wheelRx, serialItems, items, same.ring, List.append_assoc]
    · rw [fired]
      exact same.fired
    · dsimp only
      rw [log, wheelRx, items, same.pushed, List.append_assoc]
    · rw [audio]
      exact same.resting
    · rw [audio]
      exact same.blocked
    · rw [wheelRx]
      exact same.wheel
    · rw [wheelRx]
      exact same.stats
    · rw [log]
      exact same.log
    · dsimp only
      rw [serialItems, List.length_append, List.length_singleton]
  · omega

/-- A block is begun: nothing has been admitted yet. -/
theorem begin (same : Serialized s block q []) (blockStart blockSize : Nat) :
    Serialized { s with
      audio := .admitting (s.wheelRx.wheel.wheelTime + s.wheelRx.wheel.horizon)
        (blockStart + blockSize) } (blockStart, blockSize) q [] := by
  refine ⟨same.ring, same.fired, same.pushed, fun _ => rfl, ?_, same.wheel, same.stats, same.log⟩
  intro admitBefore blockEnd at_pc
  cases at_pc
  have wheel : s.wheelRx.wheel = q.1.wheel := same.wheel
  rw [wheel]
  exact ⟨rfl, rfl, fun params member => absurd member List.not_mem_nil⟩

/-- One more admission.  The serial run makes it later, when it calls the whole block. -/
theorem admitted_step (same : Serialized s block q admitted) {admitBefore blockEnd : Nat}
    (at_pc : s.audio = .admitting admitBefore blockEnd) {params : FofParams R}
    {rest : List (FofParams R)} (held : s.wheelRx.rx.items = params :: rest)
    (ready : params.startSample < admitBefore)
    (shorter : rest.length ≤ s.wheelRx.rx.items.length) :
    Serialized (s.admitHead params rest shorter) block q (admitted ++ [params]) := by
  rcases same.blocked admitBefore blockEnd at_pc with ⟨bound, ends, early⟩
  subst bound
  have wheel := same.wheel
  have stats := same.stats
  have stopped := @admitReady_append R _ admitted [params] q.1.wheel q.1.stats early
  rw [TimeWheelConsumer.admitReady, if_pos ready, TimeWheelConsumer.admitReady, ← wheel, ← stats]
    at stopped
  refine ⟨?_, same.fired, ?_, ?_, ?_, ?_, ?_, ?_⟩
  · rw [same.ring, held]
    exact List.append_cons _ _ _
  · change _ = consumed (s.log ++ [verdictOf s.wheelRx.wheel params]) ++ rest
    rw [consumed_append, same.pushed, held]
    exact List.append_cons _ _ _
  · intro moved
    exact absurd at_pc (moved _ _)
  · intro otherBefore otherEnd same_pc
    rw [show (s.admitHead params rest shorter).audio = s.audio from rfl, at_pc] at same_pc
    cases same_pc
    refine ⟨rfl, ends, fun other member => ?_⟩
    rcases List.mem_append.mp member with old | new
    · exact early other old
    · rw [List.mem_singleton.mp new]
      exact ready
  · rw [stopped]
    rfl
  · rw [stopped]
    rfl
  · change s.log ++ [verdictOf s.wheelRx.wheel params] = _
    rw [verdicts_append early q.1.stats, ← wheel, same.log, List.append_assoc, verdicts,
      if_pos ready]
    rfl

/-- The admissions end: now the serial run makes its call.  Its loop admits what has been
admitted one by one, and stops at the same entry. -/
theorem advance (same : Serialized s block q admitted) {admitBefore blockEnd : Nat}
    (at_pc : s.audio = .admitting admitBefore blockEnd)
    (stopped : ∀ params more, s.wheelRx.rx.items = params :: more →
      admitBefore ≤ params.startSample) :
    Serialized (s.advanceWheel blockEnd) block (observe q (.drain block.1 block.2)) [] ∧
      (observe q (.drain block.1 block.2)).1.rx.items.length ≤ q.1.rx.items.length ∧
      (observe q (.drain block.1 block.2)).1.rx.capacity = q.1.rx.capacity := by
  rcases same.blocked admitBefore blockEnd at_pc with ⟨rfl, rfl, early⟩
  have behind := @admitReady_stopped R _ s.wheelRx.rx.items s.wheelRx.wheel s.wheelRx.stats stopped
  have loop : TimeWheelConsumer.admitReady (q.1.wheel.wheelTime + q.1.wheel.horizon) q.1.rx.items
      q.1.wheel q.1.stats = (s.wheelRx.rx.items, s.wheelRx.wheel, s.wheelRx.stats) := by
    rw [same.ring, admitReady_append early, ← same.wheel, ← same.stats]
    exact behind.1
  have written : q.1.blockVerdicts =
      verdicts (q.1.wheel.wheelTime + q.1.wheel.horizon) admitted q.1.wheel := by
    change verdicts _ q.1.rx.items q.1.wheel = _
    rw [same.ring, verdicts_append early q.1.stats, ← same.wheel, behind.2, List.append_nil]
  have drained : q.1.drainBlockSafe block.1 block.2 q.2.fired =
      ({ rx := q.1.rx.keep s.wheelRx.rx.items (by
            rw [same.ring, List.length_append]
            exact Nat.le_add_left _ _)
         wheel := (s.wheelRx.wheel.advance (block.1 + block.2) s.fired).1
         stats := s.wheelRx.stats.map (fun sink => { sink with
           queueSize := (s.wheelRx.wheel.advance (block.1 + block.2) s.fired).1.len }) },
        (s.wheelRx.wheel.advance (block.1 + block.2) s.fired).2) := by
    unfold TimeWheelConsumer.drainBlockSafe
    simp only [loop, same.fired]
  have called : observe q (.drain block.1 block.2) =
      ((q.1.drainBlockSafe block.1 block.2 q.2.fired).1,
        { q.2 with
          log := q.2.log ++ q.1.blockVerdicts
          fired := (q.1.drainBlockSafe block.1 block.2 q.2.fired).2 }) := rfl
  rw [called, drained]
  refine ⟨⟨rfl, rfl, same.pushed, fun _ => rfl, ?_, rfl, rfl, ?_⟩, ?_, rfl⟩
  · intro otherBefore otherEnd moved
    cases moved
  · change s.log = (q.2.log ++ q.1.blockVerdicts) ++ []
    rw [List.append_nil, written]
    exact same.log
  · change s.wheelRx.rx.items.length ≤ _
    rw [same.ring, List.length_append]
    exact Nat.le_add_left _ _

/-- A step of the bridging thread. -/
theorem bridge (same : Serialized s block q admitted)
    (room : q.1.rx.items.length < q.1.rx.capacity) :
    Serialized s.bridgeStep block (runCalls q (s.serialCall block .bridge)) admitted ∧
      (runCalls q (s.serialCall block .bridge)).1.rx.items.length ≤ q.1.rx.items.length + 1 ∧
      (runCalls q (s.serialCall block .bridge)).1.rx.capacity = q.1.rx.capacity := by
  have idle : ∀ {next : ControlPlane R}, next.wheelRx = s.wheelRx → next.audio = s.audio →
      next.log = s.log → next.fired = s.fired →
      Serialized next block (runCalls q []) admitted ∧
        (runCalls q []).1.rx.items.length ≤ q.1.rx.items.length + 1 ∧
        (runCalls q []).1.rx.capacity = q.1.rx.capacity :=
    fun wheelRx audio log fired => ⟨same.frame wheelRx audio log fired, Nat.le_succ _, rfl⟩
  cases pc : s.bridge with
  | popFof =>
      have silent : s.serialCall block .bridge = [] := by
        simp only [ControlPlane.serialCall, pc]
      rw [silent]
      unfold ControlPlane.bridgeStep
      simp only [pc]
      split <;> exact idle rfl rfl rfl rfl
  | pushFof params =>
      rcases s.wheelRx.push_cases params with ⟨rx, equal, items, _⟩ | ⟨equal, _⟩
      · have called : s.serialCall block .bridge = [.push params] := by
          simp only [ControlPlane.serialCall, pc, equal]
        have stepped : s.bridgeStep =
            { s with wheelRx := { s.wheelRx with rx := rx }, bridge := .popKill } := by
          simp only [ControlPlane.bridgeStep, pc, equal]
        rw [called, stepped]
        have pushed : Serialized
            { s with wheelRx := { s.wheelRx with rx := rx }, bridge := .popKill } block
              (observe q (.push params)) admitted ∧ _ :=
          same.push items room rfl rfl rfl rfl
        exact ⟨pushed.1, pushed.2.1.le, pushed.2.2⟩
      · have silent : s.serialCall block .bridge = [] := by
          simp only [ControlPlane.serialCall, pc, equal]
        have stepped : s.bridgeStep =
            { s with bridge := .popKill, droppedFofs := s.droppedFofs ++ [params] } := by
          simp only [ControlPlane.bridgeStep, pc, equal]
        rw [silent, stepped]
        exact idle rfl rfl rfl rfl
  | popKill =>
      have silent : s.serialCall block .bridge = [] := by
        simp only [ControlPlane.serialCall, pc]
      rw [silent]
      unfold ControlPlane.bridgeStep
      simp only [pc]
      split <;> exact idle rfl rfl rfl rfl
  | pushKill req =>
      have silent : s.serialCall block .bridge = [] := by
        simp only [ControlPlane.serialCall, pc]
      rw [silent]
      unfold ControlPlane.bridgeStep
      simp only [pc]
      split <;> exact idle rfl rfl rfl rfl

/-- What one step of any agent preserves. -/
theorem step (same : Serialized s block q admitted) {label : ControlStep R} {next : ControlPlane R}
    (taken : s.step label = some next) (room : q.1.rx.items.length < q.1.rx.capacity) :
    ∃ later, Serialized next (label.block block) (runCalls q (s.serialCall block label)) later ∧
      (runCalls q (s.serialCall block label)).1.rx.items.length ≤ q.1.rx.items.length + 1 ∧
      (runCalls q (s.serialCall block label)).1.rx.capacity = q.1.rx.capacity := by
  have longer := Nat.le_succ q.1.rx.items.length
  cases label with
  | addFof params =>
      cases taken
      refine ⟨admitted, ?_, longer, rfl⟩
      change Serialized (s.addFof params).1 block q admitted
      unfold ControlPlane.addFof
      split
      · exact same.frame rfl rfl rfl rfl
      · exact same
  | kill req =>
      cases taken
      refine ⟨admitted, ?_, longer, rfl⟩
      change Serialized (s.kill req).1 block q admitted
      unfold ControlPlane.kill
      split
      · exact same.frame rfl rfl rfl rfl
      · exact same
  | bridge =>
      cases taken
      exact ⟨admitted, same.bridge room⟩
  | beginBlock blockStart blockSize =>
      simp only [ControlPlane.step] at taken
      split at taken <;> cases taken
      rename_i at_pc
      have none_yet : admitted = [] := by
        apply same.resting
        intro admitBefore blockEnd moved
        rw [at_pc] at moved
        cases moved
      subst none_yet
      exact ⟨[], same.begin blockStart blockSize, longer, rfl⟩
  | admitNext =>
      simp only [ControlPlane.step] at taken
      split at taken
      · rename_i admitBefore blockEnd params rest at_pc held
        split at taken <;> cases taken
        rename_i ready
        exact ⟨_, same.admitted_step at_pc held ready _, longer, rfl⟩
      · cases taken
  | advance =>
      simp only [ControlPlane.step] at taken
      split at taken
      · rename_i admitBefore blockEnd at_pc empty
        cases taken
        rcases same.advance at_pc (fun params more held => by
          rw [empty] at held
          cases held) with ⟨later, shorter, capacity⟩
        exact ⟨[], later, shorter.trans longer, capacity⟩
      · rename_i admitBefore blockEnd params rest at_pc held
        split at taken <;> cases taken
        rename_i late
        rcases same.advance at_pc (fun other more same_head => by
          rw [held] at same_head
          cases same_head
          exact Nat.le_of_not_lt late) with ⟨later, shorter, capacity⟩
        exact ⟨[], later, shorter.trans longer, capacity⟩
      · cases taken
  | drainKill =>
      simp only [ControlPlane.step] at taken
      split at taken <;> cases taken
      exact ⟨admitted, same.frame rfl rfl rfl rfl, longer, rfl⟩
  | endBlock =>
      simp only [ControlPlane.step] at taken
      split at taken <;> cases taken
      rename_i at_pc _
      have none_yet : admitted = [] := by
        apply same.resting
        intro admitBefore blockEnd moved
        rw [at_pc] at moved
        cases moved
      subst none_yet
      have unchanged : ({ s with audio := .idle } : ControlPlane R).wheelRx = s.wheelRx := rfl
      refine ⟨[], same.move unchanged rfl rfl ?_ block, longer, rfl⟩
      intro admitBefore blockEnd moved
      cases moved

/-- What a run preserves, with room for a push in every step.  The room is asked of the serial
ring, which is drained later than the ring of the run. -/
theorem run (same : Serialized s block q admitted) {labels : List (ControlStep R)}
    (room : q.1.rx.items.length + labels.length ≤ q.1.rx.capacity) :
    ∃ lastBlock later, Serialized (perform ControlPlane.step s labels) lastBlock
      (runCalls q (serialCalls s block labels)) later := by
  induction labels generalizing s block q admitted with
  | nil => exact ⟨block, admitted, same⟩
  | cons label labels ih =>
      rw [List.length_cons] at room
      unfold serialCalls perform
      rw [List.foldl_cons]
      cases taken : s.step label with
      | none => exact ih same (by omega)
      | some next =>
          rcases same.step taken (by omega) with ⟨later, nextSame, longer, capacity⟩
          have left : (runCalls q (s.serialCall block label)).1.rx.items.length + labels.length ≤
              (runCalls q (s.serialCall block label)).1.rx.capacity := by omega
          dsimp only [Option.getD_some]
          rw [runCalls, List.foldl_append]
          exact ih nextSame left

end Serialized

/-- The serial run that belongs to a run of the control plane, with a ring that is as long as
the run. -/
def serialRun (ingressCapacity : Nat) (g : Geometry) (labels : List (ControlStep R)) :
    TimeWheelConsumer R × Ledger R :=
  runCalls ((timeWheel labels.length g.slots g.duration g.capacity g.slots_pos
    g.duration_pos).attachStats QueueStats.default, Ledger.empty)
    (serialCalls (.start ingressCapacity g) (0, 0) labels)

/-- Whenever the audio thread is not admitting, the ring, the wheel, the counters, the
verdicts and the fired grains of a run are those of the serial run, in which every block is
one call of `drainBlockSafe`.  The ring of the serial run is as long as the run, so that no
push is refused there which the control plane has accepted. -/
theorem blocks_serializable (ingressCapacity : Nat) (g : Geometry)
    (labels : List (ControlStep R)) :
    let s := perform ControlPlane.step (.start ingressCapacity g) labels
    let q := serialRun ingressCapacity g labels
    q.2.pushed = consumed s.log ++ s.wheelRx.rx.items ∧ q.2.pushed.Sublist s.acceptedFofs ∧
      ((∀ admitBefore blockEnd, s.audio ≠ .admitting admitBefore blockEnd) →
        q.1.rx.items = s.wheelRx.rx.items ∧ q.1.wheel = s.wheelRx.wheel ∧
        q.1.stats = s.wheelRx.stats ∧ q.2.log = s.log ∧ q.2.fired = s.fired) := by
  intro s q
  have begun : Serialized (ControlPlane.start ingressCapacity g : ControlPlane R) (0, 0)
      ((timeWheel labels.length g.slots g.duration g.capacity g.slots_pos
        g.duration_pos).attachStats QueueStats.default, Ledger.empty) [] := by
    refine ⟨rfl, rfl, rfl, fun _ => rfl, ?_, rfl, rfl, rfl⟩
    intro admitBefore blockEnd at_pc
    cases at_pc
  have started : (controlSystem ingressCapacity g).Reachable
      (ControlPlane.start ingressCapacity g : ControlPlane R) := .init rfl
  have room : ([] : List (FofParams R)).length + labels.length ≤ labels.length :=
    (Nat.zero_add _).le
  rcases begun.run room with ⟨lastBlock, admitted, same⟩
  refine ⟨same.pushed, ?_, fun resting => ?_⟩
  · have ordered := (Ordered.reachable (started.perform labels)).fofs
    rw [← List.append_assoc] at ordered
    change (runCalls _ _).2.pushed.Sublist _
    rw [same.pushed]
    exact (List.sublist_append_left _ _).trans ordered
  · have none_left := same.resting resting
    subst none_left
    exact ⟨same.ring, same.wheel.symm, same.stats.symm,
      (same.log.trans (List.append_nil _)).symm, same.fired⟩

/-- A request that reaches the ingress ring while a block is admitting is fired in this
block. -/
def interrupted : List (ControlStep Nat) :=
  [.addFof (.onset 2), .bridge, .beginBlock 0 4, .bridge, .admitNext, .advance]

theorem blocks_serializable_interrupted :
    (serialRun 1 ⟨2, 4, 1, by decide, by decide⟩ interrupted).2.fired = [.onset 2] ∧
      serialCalls (.start 1 ⟨2, 4, 1, by decide, by decide⟩) (0, 0) interrupted =
        [.push (.onset 2), .drain 0 4] := by
  have drained : ∀ admitBefore blockEnd, (perform ControlPlane.step
      (.start 1 ⟨2, 4, 1, by decide, by decide⟩) interrupted).audio ≠
        .admitting admitBefore blockEnd := by
    intro admitBefore blockEnd at_pc
    cases at_pc
  have fired := ((blocks_serializable 1 ⟨2, 4, 1, by decide, by decide⟩ interrupted).2.2
    drained).2.2.2.2
  exact ⟨fired.trans (by decide), rfl⟩

end Control
end Rfofs
