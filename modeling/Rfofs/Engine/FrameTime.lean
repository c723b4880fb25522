import Rfofs.Engine.Process
import Rfofs.Grain.SampleMachine

namespace Rfofs
namespace Engine

open Foundation
open Grain
open Queue

/-!
# The frame clock over any uptime

In frame-time mode the clock of a block is a 32-bit count of frames, widened to 64
bits.  The count goes on from cycle to cycle modulo `2 ^ 32`, while the clock of the
wheel only moves forward.  Where the count wraps the wheel stays behind at the old,
large clock: clients go on reading the small published clock, and their requests are
late until the count has caught up.

The end of each block is a matter of the calls alone, so the slots that have elapsed
after a run can be read off its calls.
-/

variable {R : Type*}

/-- The server, and what the frame counter will report in the next cycle.  The counter has 32
bits and wraps; the clock of the engine has 64. -/
structure FrameTime (R : Type*) where
  server : Server R
  frameTime : Nat

/-- What happens to a server in frame-time mode: requests, kills, and cycles of some number of
frames. -/
inductive FrameCall (R : Type*) where
  | push (params : FofParams R)
  | kill (req : FofKillRequest R)
  | cycle (choice : KeyChoice) (nFrames : Nat) (transport : Option Nat)

/-- The ends of the blocks of a run that begins at a count.  Each cycle begins where the last
one ended. -/
def blockEnds : Nat → List (FrameCall R) → List Nat
  | _, [] => []
  | frameTime, .push _ :: calls => blockEnds frameTime calls
  | frameTime, .kill _ :: calls => blockEnds frameTime calls
  | frameTime, .cycle _ nFrames _ :: calls =>
      (frameTime + nFrames) :: blockEnds (wrappingAdd 32 frameTime nFrames) calls

/-- The frames that the cycles of a run cover.  Requests and kills take no time. -/
def frames : List (FrameCall R) → Nat
  | [] => 0
  | .push _ :: calls => frames calls
  | .kill _ :: calls => frames calls
  | .cycle _ nFrames _ :: calls => nFrames + frames calls

/-- No block of the run reaches the end of the 32-bit range.  From zero this takes more than a
day at 48000 frames a second. -/
def Unwrapped (frameTime : Nat) (calls : List (FrameCall R)) : Prop :=
  ∀ blockEnd ∈ blockEnds frameTime calls, blockEnd < 2 ^ 32

namespace FrameTime

/-- A server in frame-time mode, some time after the start of the audio server.  Its first
cycle moves the clock to the counter. -/
def boot (session : Session R) (uptime : Nat) : FrameTime R where
  server := Server.create session .jackFrameTime
  frameTime := uptime % 2 ^ 32

def currentSample (state : FrameTime R) : Nat := state.server.control.currentSample

def push (state : FrameTime R) (params : FofParams R) : FrameTime R :=
  { state with server := state.server.push params }

variable [Field R] [LinearOrder R] [FloorRing R] [RealOps R]

def call (state : FrameTime R) : FrameCall R → Option (FrameTime R)
  | .push params => some (state.push params)
  | .kill req => some { state with server := state.server.pushKill req }
  | .cycle choice nFrames transport =>
      (state.server.process choice ⟨nFrames, state.frameTime, transport⟩).map (fun processed =>
        ⟨processed.1, wrappingAdd 32 state.frameTime nFrames⟩)

def run (state : FrameTime R) (calls : List (FrameCall R)) : Option (FrameTime R) :=
  calls.foldlM call state

theorem run_cons {state next : FrameTime R} {call : FrameCall R}
    (called : state.call call = some next) (calls : List (FrameCall R)) :
    state.run (call :: calls) = next.run calls := by
  rw [run, List.foldlM_cons, called]
  rfl

end FrameTime

/-! ## The clock of the wheel in a run -/

/-- The ledger is kept in frame-time mode, and the wheel is not behind the published
clock. -/
structure Ticking (g : Geometry) (consumer : TimeWheelConsumer R) (state : FrameTime R) :
    Prop where
  live : Live g consumer state.server.session
  mode : state.server.activeClockMode = .jackFrameTime
  published : state.currentSample / g.duration ≤ consumer.wheel.slotIndex

/-- The counter, the published clock and the wheel agree.  This is the state after every cycle
without a wrap. -/
structure Synced (g : Geometry) (consumer : TimeWheelConsumer R) (state : FrameTime R) :
    Prop where
  frameTime : state.frameTime = state.currentSample
  slotIndex : consumer.wheel.slotIndex = state.currentSample / g.duration

namespace Ticking

variable {g : Geometry} {consumer : TimeWheelConsumer R} {state : FrameTime R}

theorem boot (sampleRate : R) (panMode : PanMode) (ingressCapacity : Nat) (g : Geometry)
    (recorded : Bool) (killCapacity uptime : Nat) :
    Ticking g (freshWheel ingressCapacity g recorded) (FrameTime.boot (Session.start sampleRate
      panMode (freshWheel ingressCapacity g recorded) killCapacity 0) uptime) where
  live := Live.start sampleRate panMode ingressCapacity g recorded killCapacity 0
  mode := rfl
  published := by
    change 0 / g.duration ≤ _
    rw [Nat.zero_div]
    exact Nat.zero_le _

theorem push (ticking : Ticking g consumer state) (params : FofParams R) :
    ∃ next, Ticking g next (state.push params) ∧ next.wheel = consumer.wheel ∧
      (∃ more, next.rx.items = consumer.rx.items ++ more ∧
        ((state.server.session.push params).isSome → more = [params])) ∧
      (state.push params).server.session.ledger.log = state.server.session.ledger.log ∧
      (state.push params).currentSample = state.currentSample := by
  rcases ticking.live.serverPush params with ⟨next, live, wheel, items, log, control⟩
  have sample : (state.push params).currentSample = state.currentSample :=
    congrArg ControlBlock.currentSample control
  refine ⟨next, ⟨live, ?_, ?_⟩, wheel, items, log, sample⟩
  · have mode := ticking.mode
    unfold Server.activeClockMode at mode ⊢
    change (ClockMode.fromU32 (state.server.push params).control.clockMode).getD _ = _
    rw [control]
    exact mode
  · rw [sample, wheel]
    exact ticking.published

theorem kill (ticking : Ticking g consumer state) (req : FofKillRequest R) :
    Ticking g consumer { state with server := state.server.pushKill req } :=
  ⟨ticking.live.serverKill req, ticking.mode, ticking.published⟩

variable [Field R] [LinearOrder R] [FloorRing R] [RealOps R]

/-- A cycle judges the front of the ring and moves the clock of the wheel to the end
of its block, unless the wheel is ahead of it. -/
theorem cycle (ticking : Ticking g consumer state) (choice : KeyChoice) (nFrames : Nat)
    (transport : Option Nat) :
    let next := (consumer.drainBlockSafe state.frameTime nFrames []).1
    ∃ final, state.call (.cycle choice nFrames transport) = some final ∧
      Ticking g next final ∧
      final.server.session.ledger.log =
        state.server.session.ledger.log ++ consumer.blockVerdicts ∧
      final.frameTime = wrappingAdd 32 state.frameTime nFrames ∧
      final.currentSample = state.frameTime + nFrames ∧
      next.wheel.slotIndex =
        max consumer.wheel.slotIndex ((state.frameTime + nFrames) / g.duration) := by
  rcases ticking.live.process choice ⟨nFrames, state.frameTime, transport⟩ with
    ⟨server, ports, processed, live, log, startup, control⟩
  have blockStart : state.server.blockStart ⟨nFrames, state.frameTime, transport⟩ =
      state.frameTime := by
    unfold Server.blockStart
    rw [ticking.mode]
  rw [blockStart] at live control
  have slotIndex := ticking.live.drain_slotIndex state.frameTime nFrames
  refine ⟨⟨server, wrappingAdd 32 state.frameTime nFrames⟩, ?_, ⟨live, ?_, ?_⟩, log, rfl, ?_,
    slotIndex⟩
  · simp only [FrameTime.call]
    rw [processed]
    rfl
  · have mode := ticking.mode
    unfold Server.activeClockMode at mode ⊢
    change (ClockMode.fromU32 server.control.clockMode).getD server.clockMode = _
    rw [control, startup]
    exact mode
  · rw [slotIndex]
    change server.control.currentSample / g.duration ≤ _
    rw [control]
    exact Nat.le_max_right _ _
  · exact congrArg ControlBlock.currentSample control

/-- A run never panics, keeps what was written down, and passes the slots that end
before one of its blocks does. -/
theorem run (ticking : Ticking g consumer state) (calls : List (FrameCall R)) :
    ∃ next final, state.run calls = some final ∧ Ticking g next final ∧
      state.server.session.ledger.log <+: final.server.session.ledger.log ∧
      ∀ k, k < next.wheel.slotIndex ↔ k < consumer.wheel.slotIndex ∨
        ∃ blockEnd ∈ blockEnds state.frameTime calls, k < blockEnd / g.duration := by
  induction calls generalizing consumer state with
  | nil =>
      refine ⟨consumer, state, rfl, ticking, List.prefix_rfl, fun k => ?_⟩
      simp only [blockEnds, List.not_mem_nil, false_and, exists_false, or_false]
  | cons call calls ih =>
      cases call with
      | push params =>
          rcases ticking.push params with ⟨middle, between, wheel, _, log, _⟩
          rcases ih between with ⟨next, final, ran, done, kept, elapsed⟩
          rw [log] at kept
          rw [wheel] at elapsed
          exact ⟨next, final, ran, done, kept, elapsed⟩
      | kill req =>
          exact ih (ticking.kill req)
      | cycle choice nFrames transport =>
          rcases ticking.cycle choice nFrames transport with
            ⟨between, called, betweenTicking, log, count, _, slotIndex⟩
          rcases ih betweenTicking with ⟨next, final, ran, done, kept, elapsed⟩
          refine ⟨next, final, ?_, done, ?_, fun k => ?_⟩
          · rw [FrameTime.run_cons called]
            exact ran
          · rw [log] at kept
            exact (List.prefix_append _ _).trans kept
          · rw [elapsed k, slotIndex, count, lt_max_iff, blockEnds, or_assoc]
            simp only [List.mem_cons, exists_eq_or_imp]

/-- While the counter does not wrap, the counter, the published clock and the wheel
agree behind every cycle. -/
theorem run_synced (ticking : Ticking g consumer state) {calls : List (FrameCall R)}
    (unwrapped : Unwrapped state.frameTime calls)
    (clocks : Synced g consumer state ∨
      consumer.wheel.slotIndex = 0 ∧ blockEnds state.frameTime calls ≠ [])
    {next : TimeWheelConsumer R} {final : FrameTime R} (ran : state.run calls = some final)
    (done : Ticking g next final) : Synced g next final := by
  induction calls generalizing consumer state with
  | nil =>
      cases ran
      cases ticking.live.wheels.symm.trans done.live.wheels
      rcases clocks with synced | ⟨_, nonempty⟩
      · exact synced
      · exact absurd rfl nonempty
  | cons call calls ih =>
      cases call with
      | push params =>
          rcases ticking.push params with ⟨middle, between, wheel, _, _, sample⟩
          apply ih between unwrapped _ ran
          rw [wheel]
          exact clocks.imp (fun synced => ⟨synced.frameTime.trans sample.symm,
            by rw [sample, wheel]; exact synced.slotIndex⟩) id
      | kill req =>
          exact ih (ticking.kill req) unwrapped
            (clocks.imp (fun synced => ⟨synced.frameTime, synced.slotIndex⟩) id) ran
      | cycle choice nFrames transport =>
          rcases ticking.cycle choice nFrames transport with
            ⟨between, called, betweenTicking, _, count, sample, slotIndex⟩
          rw [FrameTime.run_cons called] at ran
          have here := unwrapped _ List.mem_cons_self
          apply ih betweenTicking _ (Or.inl _) ran
          · rw [count]
            exact fun blockEnd member => unwrapped blockEnd (List.mem_cons_of_mem _ member)
          · refine ⟨by rw [count, sample, wrappingAdd_eq here], ?_⟩
            rw [slotIndex, sample]
            apply Nat.max_eq_right
            rcases clocks with synced | ⟨zero, _⟩
            · rw [synced.slotIndex, ← synced.frameTime]
              exact Nat.div_le_div_right (Nat.le_add_right _ _)
            · rw [zero]
              exact Nat.zero_le _

/-- The first cycle judges the front of the ring, and no later call touches its
verdict. -/
theorem run_front (ticking : Ticking g consumer state) {params : FofParams R}
    {rest : List (FofParams R)} (front : consumer.rx.items = params :: rest)
    (inside : params.startSample < consumer.wheel.wheelTime + consumer.wheel.horizon)
    {calls : List (FrameCall R)} (cycles : blockEnds state.frameTime calls ≠ [])
    {final : FrameTime R} (ran : state.run calls = some final) :
    final.server.session.ledger.log[state.server.session.ledger.log.length]? =
      some (verdictOf consumer.wheel params) := by
  induction calls generalizing consumer state rest with
  | nil => exact absurd rfl cycles
  | cons call calls ih =>
      cases call with
      | push later =>
          rcases ticking.push later with ⟨middle, between, wheel, ⟨more, items, _⟩, log, _⟩
          rw [front] at items
          rw [← wheel] at inside ⊢
          rw [← log]
          exact ih between items inside cycles ran
      | kill req =>
          have judged := ih (ticking.kill req) front inside cycles ran
          exact judged
      | cycle choice nFrames transport =>
          rcases ticking.cycle choice nFrames transport with
            ⟨between, called, betweenTicking, log, _⟩
          rcases betweenTicking.run calls with ⟨_, last, ranLater, _, kept, _⟩
          rw [FrameTime.run_cons called] at ran
          cases ranLater.symm.trans ran
          rcases kept with ⟨tail, kept⟩
          have first : consumer.blockVerdicts =
              verdictOf consumer.wheel params ::
                verdicts (consumer.wheel.wheelTime + consumer.wheel.horizon) rest
                  (consumer.wheel.schedule params params.startSample).1 := by
            rw [TimeWheelConsumer.blockVerdicts, front, verdicts, if_pos inside]
          rw [← kept, log, first, List.append_assoc, List.getElem?_append_right (Nat.le_refl _),
            Nat.sub_self]
          rfl

end Ticking

/-- Without a wrap the last block ends behind all frames of the run. -/
theorem mem_blockEnds {frameTime : Nat} {calls : List (FrameCall R)}
    (unwrapped : Unwrapped frameTime calls) (covered : 0 < frames calls) :
    frameTime + frames calls ∈ blockEnds frameTime calls := by
  induction calls generalizing frameTime with
  | nil => exact absurd covered (Nat.lt_irrefl 0)
  | cons call calls ih =>
      cases call with
      | push params => exact ih unwrapped covered
      | kill req => exact ih unwrapped covered
      | cycle choice nFrames transport =>
          have here := unwrapped _ List.mem_cons_self
          have later : Unwrapped (frameTime + nFrames) calls := by
            rw [← wrappingAdd_eq here]
            exact fun blockEnd member => unwrapped blockEnd (List.mem_cons_of_mem _ member)
          rw [frames, ← Nat.add_assoc, blockEnds, wrappingAdd_eq here]
          rcases Nat.eq_zero_or_pos (frames calls) with none | some
          · rw [none]
            exact List.mem_cons_self
          · exact List.mem_cons_of_mem _ (ih later some)

/-! ## Requests with headroom -/

/-- The ring is empty and takes the request.  Its onset is at least one block and at
most half the horizon ahead of the published clock, and its slot has room.  The wheel
is created with slots of one block. -/
structure Headroom (g : Geometry) (now : FrameTime R) (params : FofParams R) : Prop where
  empty : ∀ wheel ∈ now.server.session.engine.wheels, wheel.rx.items = []
  taken : (now.server.session.push params).isSome
  ahead : now.currentSample + g.duration ≤ params.startSample
  near : 2 * (params.startSample - now.currentSample) ≤ g.slots * g.duration
  room : ∀ wheel ∈ now.server.session.engine.wheels,
    (wheel.wheel.slot (slotNumber g params % g.slots)).length < g.capacity

/-- The request was accepted and has been fired: no copy of it is left in the wheel.  It is
told by the log and the fired list of the run. -/
structure Admitted (now final : FrameTime R) (params : FofParams R) : Prop where
  accepted : ∃ slotDelta,
    final.server.session.ledger.log[now.server.session.ledger.log.length]? =
      some (params, .ok slotDelta)
  fired : params ∈ final.server.session.ledger.fired
  released : ∀ wheel ∈ final.server.session.engine.wheels, params ∉ wheel.wheel.slots.flatten

/-- The wheel has not been left ahead of the onset, and a later block ends behind the
slot of the onset. -/
structure InTime (g : Geometry) (now : FrameTime R) (after : List (FrameCall R))
    (params : FofParams R) : Prop where
  reached : ∀ wheel ∈ now.server.session.engine.wheels,
    wheel.wheel.wheelTime ≤ params.startSample
  passed : ∃ blockEnd ∈ blockEnds now.frameTime after,
    slotNumber g params < blockEnd / g.duration

section Headroom

variable {g : Geometry} {consumer : TimeWheelConsumer R} {now : FrameTime R}
  {params : FofParams R}

/-- With headroom the onset lies inside the admission window, whatever the clock of the
wheel. -/
theorem Headroom.inside (headroom : Headroom g now params)
    (published : now.currentSample / g.duration ≤ consumer.wheel.slotIndex) :
    params.startSample < consumer.wheel.slotIndex * g.duration + g.slots * g.duration := by
  have behind := Nat.mul_le_mul_right g.duration published
  have split := Nat.div_add_mod' now.currentSample g.duration
  have phase := Nat.mod_lt now.currentSample g.duration_pos
  have ahead := headroom.ahead
  have near := headroom.near
  omega

/-- The verdict on a request with headroom depends on the clock of the wheel alone. -/
theorem Headroom.verdict (headroom : Headroom g now params) (ticking : Ticking g consumer now) :
    ((∃ slotDelta, verdictOf consumer.wheel params = (params, .ok slotDelta)) ↔
      consumer.wheel.wheelTime ≤ params.startSample) := by
  have listed : consumer ∈ now.server.session.engine.wheels := by
    rw [ticking.live.wheels]
    exact List.mem_singleton_self consumer
  have room := headroom.room consumer listed
  have inside := headroom.inside ticking.published
  have duration : consumer.wheel.slotDuration = g.duration :=
    congrArg Geometry.duration ticking.live.balanced.wheel.geometry
  have slots : consumer.wheel.nSlots = g.slots :=
    congrArg Geometry.slots ticking.live.balanced.wheel.geometry
  have capacity : consumer.wheel.slotCapacity = g.capacity :=
    congrArg Geometry.capacity ticking.live.balanced.wheel.geometry
  have time := ticking.live.balanced.wheel.wheelTime_eq
  have horizon := ticking.live.balanced.wheel.horizon_eq
  unfold verdictOf
  constructor
  · rintro ⟨slotDelta, accepted⟩
    by_contra late
    rw [Wheel.schedule_of_late (Nat.lt_of_not_le late)] at accepted
    cases accepted
  · intro reached
    have located : consumer.wheel.slotIndex +
        (params.startSample - consumer.wheel.wheelTime) / consumer.wheel.slotDuration =
          slotNumber g params := by
      rw [time] at reached ⊢
      rw [duration, Nat.mul_comm, Nat.sub_mul_div]
      exact Nat.add_sub_of_le ((Nat.le_div_iff_mul_le g.duration_pos).mpr reached)
    have offset : params.startSample - consumer.wheel.wheelTime < consumer.wheel.horizon := by
      omega
    refine ⟨(params.startSample - consumer.wheel.wheelTime) / consumer.wheel.slotDuration, ?_⟩
    rw [Wheel.schedule_of_window reached offset located, slots, capacity,
      if_neg (Nat.not_le_of_lt room)]

theorem Ticking.forall_wheels (ticking : Ticking g consumer now)
    {property : TimeWheelConsumer R → Prop} :
    (∀ wheel ∈ now.server.session.engine.wheels, property wheel) ↔ property consumer := by
  rw [ticking.live.wheels]
  exact List.forall_mem_singleton

theorem Ticking.slotIndex_le (ticking : Ticking g consumer now)
    (reached : consumer.wheel.wheelTime ≤ params.startSample) :
    consumer.wheel.slotIndex ≤ slotNumber g params := by
  rw [ticking.live.balanced.wheel.wheelTime_eq] at reached
  exact (Nat.le_div_iff_mul_le g.duration_pos).mpr reached

/-- The request is alone in the ring.  Nothing in front of it can delay it or hide it from the
admission loop. -/
theorem Headroom.pushed (headroom : Headroom g now params) (ticking : Ticking g consumer now) :
    ∃ waiting, Ticking g waiting (now.push params) ∧ waiting.wheel = consumer.wheel ∧
      waiting.rx.items = [params] ∧
      (now.push params).server.session.ledger.log = now.server.session.ledger.log := by
  rcases ticking.push params with ⟨waiting, pushed, wheel, ⟨more, items, taken⟩, log, _⟩
  refine ⟨waiting, pushed, wheel, ?_, log⟩
  rw [items, ticking.forall_wheels.mp headroom.empty, taken headroom.taken]
  rfl

/-- Without a wrap the wheel is not ahead of the onset, and the last block of the
horizon ends behind its slot. -/
theorem Headroom.inTime (headroom : Headroom g now params) (ticking : Ticking g consumer now)
    (synced : Synced g consumer now) {after : List (FrameCall R)}
    (unwrapped : Unwrapped now.frameTime after)
    (covered : g.slots * g.duration ≤ frames after) : InTime g now after params := by
  have ahead := headroom.ahead
  have inside := headroom.inside ticking.published
  have positive : 0 < frames after := (Nat.mul_pos g.slots_pos g.duration_pos).trans_le covered
  refine ⟨ticking.forall_wheels.mpr ?_, now.frameTime + frames after,
    mem_blockEnds unwrapped positive, ?_⟩
  · rw [ticking.live.balanced.wheel.wheelTime_eq, synced.slotIndex]
    have split := Nat.div_mul_le_self now.currentSample g.duration
    omega
  · rw [synced.slotIndex, ← Nat.add_mul] at inside
    calc slotNumber g params
        < now.currentSample / g.duration + g.slots :=
          (Nat.div_lt_iff_lt_mul g.duration_pos).mpr inside
      _ = (now.frameTime + g.slots * g.duration) / g.duration := by
          rw [synced.frameTime, Nat.add_mul_div_right _ _ g.duration_pos]
      _ ≤ (now.frameTime + frames after) / g.duration :=
          Nat.div_le_div_right (Nat.add_le_add_left covered _)

end Headroom

theorem blockEnds_ne_nil {frameTime : Nat} {calls : List (FrameCall R)}
    (covered : 0 < frames calls) : blockEnds frameTime calls ≠ [] := by
  induction calls generalizing frameTime with
  | nil => exact absurd covered (Nat.lt_irrefl 0)
  | cons call calls ih =>
      cases call with
      | push params => exact ih covered
      | kill req => exact ih covered
      | cycle choice nFrames transport => exact List.cons_ne_nil _ _

variable [Field R] [LinearOrder R] [FloorRing R] [RealOps R]

/-- In every run of the server in frame-time mode a request with headroom is admitted
and fired within one horizon exactly when the wheel is not ahead of its onset and a
block of that horizon ends behind its slot.  Without a wrap of the frame counter both
hold. -/
theorem frame_time_admission_iff (sampleRate : R) (panMode : PanMode) (ingressCapacity : Nat)
    (g : Geometry) (recorded : Bool) (killCapacity uptime : Nat) (before after : List (FrameCall R)) :
    let start := FrameTime.boot (Session.start sampleRate panMode
      (freshWheel ingressCapacity g recorded) killCapacity 0) uptime
    ∃ now, start.run before = some now ∧
      ∀ params, Headroom g now params → g.slots * g.duration ≤ frames after →
        ∃ final, (now.push params).run after = some final ∧
          (Admitted now final params ↔ InTime g now after params) ∧
          (blockEnds start.frameTime before ≠ [] → Unwrapped start.frameTime before →
            Unwrapped now.frameTime after → Admitted now final params) := by
  intro start
  have initial := Ticking.boot sampleRate panMode ingressCapacity g recorded killCapacity uptime
  rcases initial.run before with ⟨consumer, now, ranBefore, ticking, _, _⟩
  refine ⟨now, ranBefore, ?_⟩
  intro params headroom covered
  have positive : 0 < frames after := (Nat.mul_pos g.slots_pos g.duration_pos).trans_le covered
  rcases headroom.pushed ticking with ⟨waiting, pushed, wheel, front, log⟩
  rcases pushed.run after with ⟨next, final, ranAfter, done, _, elapsed⟩
  have judged := pushed.run_front front (by
    rw [pushed.live.balanced.wheel.wheelTime_eq, pushed.live.balanced.wheel.horizon_eq, wheel]
    exact headroom.inside ticking.published) (blockEnds_ne_nil positive) ranAfter
  rw [log, wheel] at judged
  have settled : Admitted now final params ↔ InTime g now after params := by
    rw [wheel] at elapsed
    constructor
    · rintro ⟨⟨slotDelta, accepted⟩, fired, _⟩
      rw [judged] at accepted
      have reached := (headroom.verdict ticking).mp ⟨slotDelta, Option.some.inj accepted⟩
      refine ⟨ticking.forall_wheels.mpr reached, ?_⟩
      rw [done.live.balanced.wheel.fired_eq] at fired
      have passed := (elapsed _).mp (mem_orderedBelow.mp fired).2
      exact passed.resolve_left (Nat.not_lt_of_le (ticking.slotIndex_le reached))
    · rintro ⟨reached, passed⟩
      rcases (headroom.verdict ticking).mpr (ticking.forall_wheels.mp reached) with
        ⟨slotDelta, accepted⟩
      rw [accepted] at judged
      have behind := (elapsed _).mpr (Or.inr passed)
      refine ⟨⟨slotDelta, judged⟩, ?_, done.forall_wheels.mpr ?_⟩
      · rw [done.live.balanced.wheel.fired_eq]
        exact mem_orderedBelow.mpr ⟨mem_accepted (List.mem_of_getElem? judged), behind⟩
      · intro held
        have kept := (List.mem_filter.mp
          (done.live.balanced.wheel.held_perm.mem_iff.mp held)).2
        exact absurd behind (Nat.not_lt_of_le (of_decide_eq_true kept))
  refine ⟨final, ranAfter, settled, ?_⟩
  intro cycles unwrappedBefore unwrappedAfter
  have fresh : (freshWheel ingressCapacity g recorded : TimeWheelConsumer R).wheel.slotIndex = 0 := by
    cases recorded <;> rfl
  have synced := initial.run_synced unwrappedBefore (Or.inr ⟨fresh, cycles⟩) ranBefore ticking
  exact settled.mpr (headroom.inTime ticking synced unwrappedAfter covered)

/-! ## Two servers over four slots of ten samples -/

/-- A hundred frames after the start of the audio server. -/
theorem frame_time_admission_iff_early :
    let g : Geometry := ⟨4, 10, 64, by decide, by decide⟩
    let params : FofParams ℝ := ⟨0, 125, 440, 0, 0, 1, 10, 0, 0, 1, 0, 0, 1⟩
    let cycle : FrameCall ℝ := .cycle KeyChoice.next 10 none
    ∃ now final, (FrameTime.boot (Session.start 48000 .mono (freshWheel 16 g false) 16 0) 100).run
        [cycle] = some now ∧ Headroom g now params ∧
      (now.push params).run [cycle, cycle, cycle, cycle] = some final ∧
      Admitted now final params := by
  intro g params cycle
  rcases frame_time_admission_iff (48000 : ℝ) .mono 16 g false 16 100 [cycle]
    [cycle, cycle, cycle, cycle] with ⟨now, ranBefore, settled⟩
  rcases (Ticking.boot (48000 : ℝ) .mono 16 g false 16 100).cycle KeyChoice.next 10 none with
    ⟨reached, called, ticking, _, count, sample, _⟩
  have same : reached = now := by
    rw [FrameTime.run_cons called] at ranBefore
    exact Option.some.inj ranBefore
  subst same
  have headroom : Headroom g reached params := by
    refine ⟨ticking.forall_wheels.mpr rfl, ?_, ?_, ?_, ticking.forall_wheels.mpr ?_⟩
    · rcases ticking.live.push params with ⟨_, _, _, pushed, _⟩ | ⟨_, full⟩
      · rw [pushed]
        rfl
      · exact absurd full (by decide : (0 : Nat) ≠ 16)
    · rw [sample]
      decide
    · rw [sample]
      decide
    · decide
  rcases settled params headroom (by decide) with ⟨final, ranAfter, _, admitted⟩
  refine ⟨reached, final, ranBefore, headroom, ranAfter, admitted (by decide) ?_ ?_⟩
  · unfold Unwrapped
    decide
  · rw [count]
    unfold Unwrapped
    decide

/-- The last block before the wrap leaves the wheel at the old clock: behind it a request
with headroom is rejected as late. -/
theorem wrapped_counter_rejects_headroom :
    let g : Geometry := ⟨4, 10, 64, by decide, by decide⟩
    let params : FofParams ℝ := ⟨0, 25, 440, 0, 0, 1, 10, 0, 0, 1, 0, 0, 1⟩
    let cycle : FrameCall ℝ := .cycle KeyChoice.next 10 none
    let after := [cycle, cycle, cycle, cycle]
    ∃ now final, (FrameTime.boot (Session.start 48000 .mono (freshWheel 16 g false) 16 0)
        (2 ^ 32 - 10)).run [cycle, cycle] = some now ∧ Headroom g now params ∧
      g.slots * g.duration ≤ frames after ∧ (now.push params).run after = some final ∧
      final.server.session.ledger.log[now.server.session.ledger.log.length]? =
        some (params, .error (params, .tooLate)) := by
  intro g params cycle after
  rcases (Ticking.boot (48000 : ℝ) .mono 16 g false 16 (2 ^ 32 - 10)).cycle KeyChoice.next 10
    none with ⟨wrapped, first, wrappedTicking, _, wrappedCount, _, wrappedIndex⟩
  rcases wrappedTicking.cycle KeyChoice.next 10 none with
    ⟨now, second, ticking, _, _, sample, slotIndex⟩
  have headroom : Headroom g now params := by
    refine ⟨ticking.forall_wheels.mpr rfl, ?_, ?_, ?_, ticking.forall_wheels.mpr ?_⟩
    · rcases ticking.live.push params with ⟨_, _, _, pushed, _⟩ | ⟨_, full⟩
      · rw [pushed]
        rfl
      · exact absurd full (by decide : (0 : Nat) ≠ 16)
    · rw [sample, wrappedCount]
      decide
    · rw [sample, wrappedCount]
      decide
    · rw [wrappedCount]
      decide
  rcases headroom.pushed ticking with ⟨waiting, pushed, wheel, front, log⟩
  rcases pushed.run after with ⟨_, final, ranAfter, _⟩
  have judged := pushed.run_front front (by
    rw [pushed.live.balanced.wheel.wheelTime_eq, pushed.live.balanced.wheel.horizon_eq, wheel]
    exact headroom.inside ticking.published) (blockEnds_ne_nil (by decide)) ranAfter
  rw [log, wheel, verdictOf, Wheel.schedule_of_late] at judged
  · refine ⟨now, final, ?_, headroom, by decide, ranAfter, judged⟩
    rw [FrameTime.run_cons first, FrameTime.run_cons second]
    rfl
  · rw [ticking.live.balanced.wheel.wheelTime_eq, slotIndex, wrappedIndex, wrappedCount]
    decide

end Engine
end Rfofs
