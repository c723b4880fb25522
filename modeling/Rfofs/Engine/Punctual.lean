import Rfofs.Engine.Submission
import Rfofs.Queue.Deferral

namespace Rfofs
namespace Engine

open Foundation
open Grain
open Queue

/-!
# The renderer is in time

`addFof` pushes a request before it renders up to it.  The request may lie beyond the
horizon and wait in the ring while the clock moves, in blocks that need not begin or
end with a slot of the wheel.

Seen from the queue the renderer is a producer that keeps the discipline of
`Deferral`.  It submits in order, it never submits behind the clock of the wheel,
because its own clock stays behind the last onset, and its blocks follow one another
and are no longer than the horizon.  So what holds of every disciplined run holds of
the renderer, and no request is rejected because of its onset.
-/

variable {R : Type*}

namespace OfflineRenderer

/-- The clock is not past the last onset, and not more than one block behind it.  This is what
the loop of a submission leaves. -/
def InStep (r : OfflineRenderer R) : Prop :=
  r.clock ≤ r.lastStartSample ∧ r.lastStartSample ≤ r.clock + r.blockSize

/-- A push would not be refused. -/
def HasRoom (r : OfflineRenderer R) : Prop :=
  ∀ consumer ∈ r.session.engine.wheels, consumer.rx.items.length < consumer.rx.capacity

/-- No request has been rejected as late, and none as early.  It is told by the log of the
session. -/
def OnTime (r : OfflineRenderer R) : Prop :=
  rejectedFor .tooLate r.session.ledger.log = [] ∧
    rejectedFor .tooEarly r.session.ledger.log = []

/-- What the queue sees of the renderer.  Every block begins where the last one ended, as the
queue expects. -/
def blockClock (r : OfflineRenderer R) (consumer : TimeWheelConsumer R) : BlockClock R :=
  ⟨consumer, r.session.ledger, r.clock⟩

end OfflineRenderer

/-- The renderer as a disciplined producer, with a bound on what it has submitted.  The
discipline of the queue follows from the order of the submissions. -/
structure Punctual (latest : Nat) (consumer : TimeWheelConsumer R) (r : OfflineRenderer R) :
    Prop where
  live : Live offlineGeometry consumer r.session
  disciplined : (blockSystem 4096 offlineGeometry).ReachableVia
    (BlockClock.Disciplined offlineGeometry) (r.blockClock consumer)
  short : r.blockSize ≤ offlineGeometry.slots * offlineGeometry.duration
  submitted : ∀ params ∈ r.session.ledger.pushed, params.startSample ≤ latest

namespace Punctual

variable {latest : Nat} {consumer : TimeWheelConsumer R} {r : OfflineRenderer R}

theorem openFile (sampleRate : R) (panMode : PanMode) {blockSize : Nat}
    (blockSize_pos : 0 < blockSize)
    (short : blockSize ≤ offlineGeometry.slots * offlineGeometry.duration) :
    Punctual 0 (freshWheel 4096 offlineGeometry false)
      (OfflineRenderer.openFile sampleRate panMode blockSize blockSize_pos) where
  live := Live.start sampleRate panMode 4096 offlineGeometry false 256 0
  disciplined := .init (Or.inl rfl)
  short := short
  submitted := nofun

theorem onTime (punctual : Punctual latest consumer r) : r.OnTime := by
  have deferred := Deferred.reachable punctual.disciplined
  exact ⟨deferred.notLate, deferred.balanced.notEarly⟩

/-- The clock of the wheel lies in the slot of the clock of the renderer. -/
theorem wheelTime_le_clock (punctual : Punctual latest consumer r) :
    consumer.wheel.wheelTime ≤ r.clock := by
  have deferred := Deferred.reachable punctual.disciplined
  have slot : consumer.wheel.slotIndex = r.clock / offlineGeometry.duration := deferred.clock
  rw [punctual.live.balanced.wheel.wheelTime_eq, slot]
  exact Nat.div_mul_le_self _ _

/-- A submission in order is a disciplined one.  Its onset is not behind the clock of the
wheel. -/
theorem push (punctual : Punctual latest consumer r) {params : FofParams R}
    (ordered : latest ≤ params.startSample) (ahead : r.clock ≤ params.startSample)
    (room : r.HasRoom) :
    ∃ session nextConsumer, r.session.push params = some session ∧
      session.engine.sampleClock = r.clock ∧
      Punctual params.startSample nextConsumer { r with session := session } := by
  have listed : consumer ∈ r.session.engine.wheels := by
    rw [punctual.live.wheels]
    exact List.mem_singleton_self consumer
  have spare := room consumer listed
  rcases punctual.live.push params with ⟨rx, engine, rfl, pushed, items, capacity, nextLive⟩ |
    ⟨_, full⟩
  · have taken : consumer.push params = .ok { consumer with rx := rx } := by
      unfold TimeWheelConsumer.push
      rw [BoundedFifo.push_eq_ok spare capacity items]
    have allowed : BlockClock.Disciplined offlineGeometry (r.blockClock consumer) (.push params) :=
      ⟨fun earlier member => (punctual.submitted earlier member).trans ordered,
        punctual.wheelTime_le_clock.trans ahead⟩
    refine ⟨_, _, pushed, rfl, nextLive, .step punctual.disciplined allowed ?_, punctual.short, ?_⟩
    · change _ = (r.blockClock consumer).call (.push params)
      simp only [OfflineRenderer.blockClock, BlockClock.call, observe, taken]
      rfl
    · intro earlier member
      rcases List.mem_append.mp member with old | new
      · exact (punctual.submitted earlier old).trans ordered
      · exact le_of_eq (congrArg FofParams.startSample (List.mem_singleton.mp new))
  · exact absurd full (Nat.ne_of_lt spare)

section Blocks

variable [Field R] [LinearOrder R] [FloorRing R] [RealOps R]

/-- A block of the renderer is a block of the queue. -/
theorem block (punctual : Punctual latest consumer r) (choice : KeyChoice) :
    ∃ next nextConsumer, r.processOneBlock choice = .ok next ∧
      next.blockClock nextConsumer = (r.blockClock consumer).call (.drain r.blockSize) ∧
      Punctual latest nextConsumer next := by
  rcases punctual.live.block choice (List.replicate r.nChannels (List.replicate r.blockSize 0))
    r.blockSize with ⟨engine, rendered, _, blocked, done, _, nextLive⟩
  have log := punctual.live.recordBlock_log engine r.blockSize
  have next : BlockClock.mk (consumer.drainBlockSafe r.clock r.blockSize []).1
      (r.session.recordBlock engine r.blockSize).ledger engine.sampleClock =
        (r.blockClock consumer).call (.drain r.blockSize) := by
    have recorded : (r.session.recordBlock engine r.blockSize).ledger =
        { r.session.ledger with
          log := r.session.ledger.log ++ consumer.blockVerdicts
          fired := r.session.ledger.fired ++
            (consumer.drainBlockSafe r.clock r.blockSize []).2 } := by
      rw [← log]
      exact congrArg (fun incoming => Ledger.mk r.session.ledger.pushed
        (r.session.recordBlock engine r.blockSize).ledger.log
        (r.session.ledger.fired ++ incoming)) (punctual.live.incoming_eq r.blockSize)
    rw [BlockClock.call_drain, done.sampleClock, recorded]
    rfl
  refine ⟨{ r with
      session := r.session.recordBlock engine r.blockSize
      written := r.written ++ OfflineRenderer.interleave r.blockSize rendered },
    _, ?_, next, nextLive, ?_, punctual.short, punctual.submitted⟩
  · simp only [OfflineRenderer.processOneBlock]
    rw [blocked]
  · have allowed : BlockClock.Disciplined offlineGeometry (r.blockClock consumer)
        (.drain r.blockSize) := ⟨r.blockSize_pos, punctual.short⟩
    exact .step punctual.disciplined allowed next

/-- Every block finds a punctual renderer and leaves one. -/
theorem block_kept (choice : KeyChoice) (latest : Nat) (r : OfflineRenderer R)
    (punctual : ∃ consumer, Punctual latest consumer r) :
    ∃ next, r.processOneBlock choice = .ok next ∧ ∃ consumer, Punctual latest consumer next := by
  rcases punctual with ⟨consumer, punctual⟩
  rcases punctual.block choice with ⟨next, nextConsumer, processed, _, nextPunctual⟩
  exact ⟨next, processed, nextConsumer, nextPunctual⟩

end Blocks

end Punctual

/-! ## Calls and their runs -/

/-- The renderer between two calls. -/
structure Ready (r : OfflineRenderer R) : Prop where
  inStep : r.InStep
  punctual : ∃ consumer, Punctual r.lastStartSample consumer r

section Calls

variable [Field R] [LinearOrder R] [FloorRing R] [RealOps R]

namespace Ready

variable {r : OfflineRenderer R}

omit [Field R] [LinearOrder R] [FloorRing R] [RealOps R] in
theorem openFile (sampleRate : R) (panMode : PanMode) {blockSize : Nat}
    (blockSize_pos : 0 < blockSize)
    (short : blockSize ≤ offlineGeometry.slots * offlineGeometry.duration) :
    Ready (OfflineRenderer.openFile sampleRate panMode blockSize blockSize_pos) where
  inStep := ⟨Nat.le_refl 0, Nat.zero_le _⟩
  punctual := ⟨_, Punctual.openFile sampleRate panMode blockSize_pos short⟩

omit [Field R] [LinearOrder R] [FloorRing R] [RealOps R] in
theorem onTime (ready : Ready r) : r.OnTime := by
  rcases ready.punctual with ⟨_, punctual⟩
  exact punctual.onTime

/-- A submission in order, with room for it, comes to its end, and the clock follows the
onset. -/
theorem addFof (ready : Ready r) (choice : KeyChoice) {params : FofParams R}
    (ordered : r.lastStartSample ≤ params.startSample) (room : r.HasRoom) :
    ∃ next, r.addFof choice params = .ok next ∧ Ready next ∧
      next.lastStartSample = params.startSample ∧ next.toOfflineConfig = r.toOfflineConfig := by
  rcases ready.punctual with ⟨consumer, punctual⟩
  have ahead : r.clock ≤ params.startSample := ready.inStep.1.trans ordered
  rcases punctual.push ordered ahead room with ⟨session, middle, pushed, still, submitted⟩
  rcases OfflineRenderer.advanceTo_invariant (Punctual.block_kept choice params.startSample)
    params.startSample ⟨middle, submitted⟩ with
      ⟨next, ran, ⟨nextConsumer, nextPunctual⟩, config, _, reached, within⟩
  refine ⟨{ next with lastStartSample := params.startSample }, ?_, ⟨⟨?_, ?_⟩, nextConsumer, ?_⟩,
    rfl, config⟩
  · unfold OfflineRenderer.addFof
    rw [if_pos ordered, pushed]
    simp only
    rw [ran]
    rfl
  · change next.clock ≤ params.startSample
    rcases within with rfl | before
    · exact still.trans_le ahead
    · exact le_of_lt before
  · change params.startSample ≤ next.clock + next.blockSize
    rw [config]
    exact reached
  · exact ⟨nextPunctual.live, nextPunctual.disciplined, nextPunctual.short,
      nextPunctual.submitted⟩

theorem close (ready : Ready r) (choice : KeyChoice) :
    ∃ closed, r.close choice = .ok closed ∧ closed.OnTime := by
  have block := Punctual.block_kept (R := R) choice r.lastStartSample
  rcases OfflineRenderer.advanceTo_invariant block (r.lastStartSample + 1) ready.punctual with
    ⟨covered, ran, coveredPunctual, _⟩
  rcases block covered coveredPunctual with ⟨drained, processed, drainedPunctual⟩
  rcases OfflineRenderer.renderTail_invariant block
    (OfflineRenderer.maxExtra drained.toOfflineConfig) drainedPunctual with
      ⟨closed, tail, consumer, closedPunctual⟩
  refine ⟨closed, ?_, closedPunctual.onTime⟩
  unfold OfflineRenderer.close
  rw [ran]
  change (covered.processOneBlock choice).bind _ = _
  rw [processed]
  exact tail

end Ready

/-- Each submission of a list finds room in the ring.  A full ring is a panic, which is not a
late request. -/
def NeverFull (choice : KeyChoice) (opened : OfflineRenderer R) (fofs : List (FofParams R)) :
    Prop :=
  ∀ before params after r, fofs = before ++ params :: after →
    before.foldlM (OfflineRenderer.addFof choice) opened = .ok r → r.HasRoom

/-- Submissions in order that find room leave the renderer ready for the next one. -/
theorem addFofs_ready (choice : KeyChoice) {opened : OfflineRenderer R} (ready : Ready opened)
    (fresh : opened.lastStartSample = 0) {fofs : List (FofParams R)}
    (sorted : fofs.Pairwise (fun x y => x.startSample ≤ y.startSample))
    (room : NeverFull choice opened fofs) (before after : List (FofParams R))
    (split : fofs = before ++ after) :
    ∃ r, before.foldlM (OfflineRenderer.addFof choice) opened = .ok r ∧ Ready r ∧
      r.lastStartSample = lastStart before ∧ r.toOfflineConfig = opened.toOfflineConfig := by
  induction before using List.reverseRecOn generalizing after with
  | nil => exact ⟨opened, rfl, ready, fresh, rfl⟩
  | append_singleton before params ih =>
      have regrouped : fofs = before ++ params :: after := by
        rw [split, List.append_assoc]
        rfl
      rcases ih (params :: after) regrouped with ⟨r, added, readyBefore, last, config⟩
      have ordered : r.lastStartSample ≤ params.startSample := by
        rw [last]
        apply lastStart_le
        intro earlier member
        rw [regrouped] at sorted
        exact (List.pairwise_append.mp sorted).2.2 earlier member params List.mem_cons_self
      rcases readyBefore.addFof choice ordered (room before params after r regrouped added) with
        ⟨next, taken, nextReady, nextLast, nextConfig⟩
      refine ⟨next, ?_, nextReady, ?_, nextConfig.trans config⟩
      · rw [List.foldlM_append, added]
        change List.foldlM (OfflineRenderer.addFof choice) r [params] = _
        rw [List.foldlM_cons, taken]
        rfl
      · rw [nextLast, lastStart_append]

/-- Submissions in order that find room all come to their end.  After each of them the
clock is not past its onset and at most one block behind, and no request is ever rejected
as late or as early, up to the end of the closed renderer. -/
theorem renderer_never_late (choice : KeyChoice) (sampleRate : R) (panMode : PanMode)
    (blockSize : Nat) (blockSize_pos : 0 < blockSize) (short : blockSize ≤ 65536)
    (fofs : List (FofParams R))
    (sorted : fofs.Pairwise (fun x y => x.startSample ≤ y.startSample))
    (small : ∀ params ∈ fofs, params.startSample < 2 ^ 63)
    (room : NeverFull choice
      (OfflineRenderer.openFile sampleRate panMode blockSize blockSize_pos) fofs) :
    (∀ before after, fofs = before ++ after → ∃ r,
      before.foldlM (OfflineRenderer.addFof choice)
        (OfflineRenderer.openFile sampleRate panMode blockSize blockSize_pos) = .ok r ∧
      r.lastStartSample = lastStart before ∧
      r.clock ≤ r.lastStartSample ∧ r.lastStartSample ≤ r.clock + blockSize ∧
      r.clock + blockSize < 2 ^ 64 ∧ r.OnTime) ∧
    ∃ closed,
      OfflineRenderer.renderAll choice sampleRate panMode blockSize blockSize_pos fofs =
        .ok closed ∧ closed.OnTime := by
  have opened := Ready.openFile sampleRate panMode blockSize_pos short
  have submitted := addFofs_ready choice opened rfl sorted room
  constructor
  · intro before after split
    rcases submitted before after split with ⟨r, added, ready, last, config⟩
    have size : r.blockSize = blockSize := congrArg OfflineConfig.blockSize config
    have within : r.lastStartSample ≤ r.clock + blockSize := by
      rw [← size]
      exact ready.inStep.2
    have bounded : lastStart before ≤ 2 ^ 63 - 1 := by
      apply lastStart_le
      intro params member
      have below := small params (by rw [split]; exact List.mem_append_left after member)
      omega
    have behind := ready.inStep.1
    exact ⟨r, added, last, behind, within, by omega, ready.onTime⟩
  · rcases submitted fofs [] (List.append_nil fofs).symm with ⟨r, added, ready, _⟩
    rcases ready.close choice with ⟨closed, closing, onTime⟩
    refine ⟨closed, ?_, onTime⟩
    unfold OfflineRenderer.renderAll
    rw [added]
    exact closing

/-- An onset far beyond the horizon, in blocks that are not made up of slots. -/
theorem renderer_never_late_far_onset :
    let params : FofParams ℝ := ⟨0, 1000000, 440, 0, 0, 1, 10, 0, 0, 1, 0, 0, 1⟩
    (∀ before after, [params] = before ++ after → ∃ r,
      before.foldlM (OfflineRenderer.addFof KeyChoice.next)
        (OfflineRenderer.openFile 48000 .mono 100 (by decide)) = .ok r ∧
      r.lastStartSample = lastStart before ∧
      r.clock ≤ r.lastStartSample ∧ r.lastStartSample ≤ r.clock + 100 ∧
      r.clock + 100 < 2 ^ 64 ∧ r.OnTime) ∧
    ∃ closed,
      OfflineRenderer.renderAll KeyChoice.next 48000 .mono 100 (by decide) [params] =
        .ok closed ∧ closed.OnTime := by
  intro params
  apply renderer_never_late KeyChoice.next 48000 .mono 100 (by decide) (by decide) [params]
  · exact List.pairwise_singleton _ params
  · intro other member
    rw [List.mem_singleton.mp member]
    change 1000000 < 2 ^ 63
    decide
  · intro before other after r split reached
    rcases List.cons_eq_append_iff.mp split with ⟨rfl, _⟩ | ⟨rest, rfl, none⟩
    · cases reached
      intro consumer member
      rw [List.mem_singleton.mp member]
      change 0 < 4096
      decide
    · cases rest <;> cases none

end Calls

end Engine
end Rfofs
