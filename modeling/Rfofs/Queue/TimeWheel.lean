import Rfofs.Foundation.BoundedFifo
import Rfofs.Grain.Params
import Rfofs.Queue.Wheel

namespace Rfofs
namespace Queue

open Foundation
open Grain

/-!
# The queue between a producer and the audio thread

A producer pushes requests into a bounded ring.  The audio thread owns the
consumer: each block it admits what the wheel can already take and then advances
the wheel to the end of the block, collecting everything that fired.

The loop stops at the first entry beyond the admission window and leaves it, with
everything behind it, in the ring.  It relies on the producer to submit in
non-decreasing order of `startSample`; nothing checks this.

Statistics are recorded only when a sink is attached, and never read back.
-/

variable {R : Type*}

/-- Width of the histogram of slot offsets; its last bucket is an overflow. -/
def slotOffsetHistogramBuckets : Nat := 64

/-- Counters of the admission outcomes, and the current occupancy.  The program keeps one
atomic word for each of them; the histogram counts an accepted event under the distance of its
slot from the read head. -/
structure QueueStats where
  tooLate : Nat
  tooEarly : Nat
  slotFull : Nat
  queueSize : Nat
  slotOffsetHistogram : Fin slotOffsetHistogramBuckets → Nat

namespace QueueStats

/-- All counters start at zero. -/
def default : QueueStats := ⟨0, 0, 0, 0, fun _ => 0⟩

/-- The bucket of a slot offset, clamped into the overflow bucket.  The last bucket therefore
counts every offset from it on. -/
def bucket (slotDelta : Nat) : Fin slotOffsetHistogramBuckets :=
  ⟨min slotDelta (slotOffsetHistogramBuckets - 1), by
    have := Nat.min_le_right slotDelta (slotOffsetHistogramBuckets - 1)
    unfold slotOffsetHistogramBuckets at *
    omega⟩

/-- Count one result of `schedule`.  Exactly one counter goes up, so the counters together
count the consumed events. -/
def record {T : Type*} (self : QueueStats) : Except (T × RejectReason) Nat → QueueStats
  | .ok slotDelta =>
      { self with
        slotOffsetHistogram :=
          Function.update self.slotOffsetHistogram (bucket slotDelta)
            (self.slotOffsetHistogram (bucket slotDelta) + 1) }
  | .error (_, .tooLate) => { self with tooLate := self.tooLate + 1 }
  | .error (_, .tooEarly) => { self with tooEarly := self.tooEarly + 1 }
  | .error (_, .slotFull) => { self with slotFull := self.slotFull + 1 }

/-- Events admitted so far, over all offsets. -/
def admitted (self : QueueStats) : Nat := ∑ i, self.slotOffsetHistogram i

end QueueStats

/-- The consumer half.  `rx` is the ring it shares with its producer; the producer keeps
nothing beside the ring, so that its `push` is a function of this state as well. -/
structure TimeWheelConsumer (R : Type*) where
  rx : BoundedFifo (FofParams R)
  wheel : Wheel (FofParams R)
  stats : Option QueueStats

/-- A matched producer and consumer; no statistics are attached yet. -/
def timeWheel (ingressCapacity nSlots slotDuration slotCapacity : Nat) (slots_pos : 0 < nSlots)
    (slotDuration_pos : 0 < slotDuration) : TimeWheelConsumer R where
  rx := BoundedFifo.empty ingressCapacity
  wheel := Wheel.new nSlots slotDuration slotCapacity slots_pos slotDuration_pos
  stats := none

namespace TimeWheelConsumer

/-- The statistics are optional, and the drain updates them only when they have been attached. -/
def attachStats (self : TimeWheelConsumer R) (stats : QueueStats) : TimeWheelConsumer R :=
  { self with stats := some stats }

/-- The producer's `push`: enqueue a request, or return it when the ring is full.  Neither the
wheel nor the statistics change. -/
def push (self : TimeWheelConsumer R) (params : FofParams R) :
    Except (FofParams R) (TimeWheelConsumer R) :=
  match self.rx.push params with
  | .ok rx => .ok { self with rx := rx }
  | .error refused => .error refused

/-- A push changes the ring only, or is refused at a full ring. -/
theorem push_cases (self : TimeWheelConsumer R) (params : FofParams R) :
    (∃ rx, self.push params = .ok { self with rx := rx } ∧
      rx.items = self.rx.items ++ [params] ∧ rx.capacity = self.rx.capacity) ∨
    (self.push params = .error params ∧ self.rx.items.length = self.rx.capacity) := by
  unfold push
  rcases self.rx.push_cases params with ⟨rx, equal, items, capacity, _⟩ | ⟨equal, full⟩
  · rw [equal]
    exact Or.inl ⟨rx, rfl, items, capacity⟩
  · rw [equal]
    exact Or.inr ⟨rfl, full⟩

/-- One turn of the admission loop after its entry was consumed: schedule the
entry and count the result. -/
def admitEntry (wheel : Wheel (FofParams R)) (stats : Option QueueStats) (params : FofParams R) :
    Wheel (FofParams R) × Option QueueStats :=
  let result := wheel.schedule params params.startSample
  (result.1, stats.map (fun sink => sink.record result.2))

/-- The admission loop over the contents of the ring: what is left of the ring,
and the wheel and the counters after it. -/
def admitReady (admitBefore : Nat) :
    List (FofParams R) → Wheel (FofParams R) → Option QueueStats →
      List (FofParams R) × Wheel (FofParams R) × Option QueueStats
  | [], wheel, stats => ([], wheel, stats)
  | params :: rest, wheel, stats =>
      if params.startSample < admitBefore then
        let admitted := admitEntry wheel stats params
        admitReady admitBefore rest admitted.1 admitted.2
      else
        (params :: rest, wheel, stats)

theorem admitReady_length_le (admitBefore : Nat) (items : List (FofParams R))
    (wheel : Wheel (FofParams R)) (stats : Option QueueStats) :
    (admitReady admitBefore items wheel stats).1.length ≤ items.length := by
  induction items generalizing wheel stats with
  | nil => exact Nat.le_refl _
  | cons params rest ih =>
      unfold admitReady
      split
      · exact Nat.le_trans (ih _ _) (Nat.le_succ _)
      · exact Nat.le_refl _

/-- Admit what lies within the window, then advance the wheel to the end of the
block and append everything that fired to `out`. -/
def drainBlockSafe (self : TimeWheelConsumer R) (blockStart blockSize : Nat)
    (out : List (FofParams R)) : TimeWheelConsumer R × List (FofParams R) :=
  let admitBefore := self.wheel.wheelTime + self.wheel.horizon
  let admitted := admitReady admitBefore self.rx.items self.wheel self.stats
  let blockEnd := blockStart + blockSize
  let advanced := admitted.2.1.advance blockEnd out
  ({ rx := self.rx.keep admitted.1 (admitReady_length_le _ _ _ _)
     wheel := advanced.1
     stats := admitted.2.2.map (fun sink => { sink with queueSize := advanced.1.len }) },
    advanced.2)

/-- A block appends what it fired.  What the buffer already held is neither read nor moved. -/
theorem drainBlockSafe_out (self : TimeWheelConsumer R) (blockStart blockSize : Nat)
    (out : List (FofParams R)) :
    self.drainBlockSafe blockStart blockSize out =
      ((self.drainBlockSafe blockStart blockSize []).1,
        out ++ (self.drainBlockSafe blockStart blockSize []).2) := by
  unfold drainBlockSafe
  simp only [Wheel.advance_out _ _ out]

end TimeWheelConsumer

/-! ## Kill requests -/

/-- The consumer half of the kill queue, with the ring it shares.  Kills carry no time stamp,
so there is no wheel behind this ring. -/
structure KillQueueConsumer (R : Type*) where
  rx : BoundedFifo (FofKillRequest R)

/-- The kill queue starts empty. -/
def killQueue (capacity : Nat) : KillQueueConsumer R := ⟨BoundedFifo.empty capacity⟩

namespace KillQueueConsumer

def push (self : KillQueueConsumer R) (req : FofKillRequest R) :
    Except (FofKillRequest R) (KillQueueConsumer R) :=
  match self.rx.push req with
  | .ok rx => .ok ⟨rx⟩
  | .error refused => .error refused

theorem push_cases (self : KillQueueConsumer R) (req : FofKillRequest R) :
    (∃ rx, self.push req = .ok ⟨rx⟩ ∧ rx.items = self.rx.items ++ [req] ∧
      rx.capacity = self.rx.capacity) ∨
    (self.push req = .error req ∧ self.rx.items.length = self.rx.capacity) := by
  unfold push
  rcases self.rx.push_cases req with ⟨rx, equal, items, capacity, _⟩ | ⟨equal, full⟩
  · rw [equal]
    exact Or.inl ⟨rx, rfl, items, capacity⟩
  · rw [equal]
    exact Or.inr ⟨rfl, full⟩

/-- Drain all pending requests into `out`, oldest first.  The ring is empty afterwards,
whatever it held. -/
def drainAll (self : KillQueueConsumer R) (out : List (FofKillRequest R)) :
    KillQueueConsumer R × List (FofKillRequest R) :=
  (⟨self.rx.keep [] (Nat.zero_le _)⟩, out ++ self.rx.items)

end KillQueueConsumer

end Queue
end Rfofs
