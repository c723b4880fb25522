import Rfofs.Queue.TimeWheel

namespace Rfofs
namespace Queue

open Foundation
open Grain

/-!
# Queues do not look into their events

The wheel reads no event: a map on events goes through scheduling and advancing.  The
consumer reads the onset of a request and nothing else, so a map that keeps onsets goes
through pushes and blocks.
-/

/-- A map of the items of a buffer.  Order, number and capacity stay. -/
def mapFifo {X Y : Type*} (f : X → Y) (fifo : BoundedFifo X) : BoundedFifo Y :=
  ⟨fifo.capacity, fifo.items.map f, by rw [List.length_map]; exact fifo.bounded⟩

/-- A push that succeeds also succeeds after the map. -/
theorem push_mapFifo_ok {X Y : Type*} (f : X → Y) {fifo next : BoundedFifo X} {item : X}
    (pushed : fifo.push item = .ok next) :
    (mapFifo f fifo).push (f item) = .ok (mapFifo f next) := by
  rcases fifo.push_cases item with ⟨other, equal, items, capacity, room⟩ | ⟨refused, _⟩
  · cases equal.symm.trans pushed
    apply BoundedFifo.push_eq_ok
    · change (fifo.items.map f).length < fifo.capacity
      rw [List.length_map]
      exact room
    · exact capacity
    · change next.items.map f = fifo.items.map f ++ [f item]
      rw [items, List.map_append]
      rfl
  · cases refused.symm.trans pushed

/-- A full buffer is full after the map. -/
theorem push_mapFifo_error {X Y : Type*} (f : X → Y) {fifo : BoundedFifo X} {item : X}
    (full : fifo.items.length = fifo.capacity) :
    (mapFifo f fifo).push (f item) = .error (f item) := by
  apply BoundedFifo.push_eq_error
  change (fifo.items.map f).length = fifo.capacity
  rw [List.length_map]
  exact full

variable {T U : Type*} (f : T → U)

namespace Wheel

/-- A map of the events of a wheel.  No event is moved to another slot. -/
def map (self : Wheel T) : Wheel U where
  slots := self.slots.map (List.map f)
  slotDuration := self.slotDuration
  slotCapacity := self.slotCapacity
  slotIndex := self.slotIndex
  slots_pos := by rw [List.length_map]; exact self.slots_pos
  slotDuration_pos := self.slotDuration_pos

theorem map_nSlots (self : Wheel T) : (self.map f).nSlots = self.nSlots := List.length_map _

theorem map_len (self : Wheel T) : (self.map f).len = self.len := by
  unfold len
  simp only [map, List.map_map]
  congr 2
  funext slot
  exact List.length_map _

theorem map_slot (self : Wheel T) (idx : Nat) : (self.map f).slot idx = (self.slot idx).map f := by
  simp only [slot, map, List.getD_eq_getElem?_getD, List.getElem?_map]
  cases self.slots[idx]? <;> rfl

theorem map_setSlot (self : Wheel T) (idx : Nat) (events : List T) :
    (self.setSlot idx events).map f = (self.map f).setSlot idx (events.map f) := by
  unfold setSlot map
  congr 1
  exact List.map_set

/-- The answer of `schedule`, with the event changed that is handed back.  The slot offset and
the reason stay. -/
def mapResult : Except (T × RejectReason) Nat → Except (U × RejectReason) Nat
  | .ok slotDelta => .ok slotDelta
  | .error (event, reason) => .error (f event, reason)

/-- Scheduling reads the deadline and the room of a slot, and never looks into an event. -/
theorem map_schedule (self : Wheel T) (event : T) (deadline : Nat) :
    (self.map f).schedule (f event) deadline =
      ((self.schedule event deadline).1.map f, mapResult f (self.schedule event deadline).2) := by
  have now : (self.map f).wheelTime = self.wheelTime := rfl
  have span : (self.map f).horizon = self.horizon :=
    congrArg (· * self.slotDuration) (self.map_nSlots f)
  have index : (self.map f).slotIndex = self.slotIndex := rfl
  have duration : (self.map f).slotDuration = self.slotDuration := rfl
  have capacity : (self.map f).slotCapacity = self.slotCapacity := rfl
  unfold schedule
  simp only [now, span, index, duration, capacity, map_nSlots, map_slot, List.length_map]
  split
  · rfl
  · split
    · rfl
    · split
      · rfl
      · rw [map_setSlot, List.map_append]
        rfl

theorem map_drainSlot (self start : Wheel T) (out : List T) (i : Nat) :
    (self.map f).drainSlot (start.map f, out.map f) i =
      ((self.drainSlot (start, out) i).1.map f, (self.drainSlot (start, out) i).2.map f) := by
  have index : (self.map f).slotIndex = self.slotIndex := rfl
  unfold drainSlot
  simp only [index, map_nSlots, map_slot]
  rw [map_setSlot, List.map_append]
  rfl

/-- An advance fires the same events, seen through the map. -/
theorem map_advance (self : Wheel T) (now : Nat) (out : List T) :
    (self.map f).advance now (out.map f) =
      ((self.advance now out).1.map f, (self.advance now out).2.map f) := by
  have index : (self.map f).slotIndex = self.slotIndex := rfl
  have duration : (self.map f).slotDuration = self.slotDuration := rfl
  have drained : ∀ (turns : List Nat) (start : Wheel T) (out : List T),
      turns.foldl (self.map f).drainSlot (start.map f, out.map f) =
        ((turns.foldl self.drainSlot (start, out)).1.map f,
          (turns.foldl self.drainSlot (start, out)).2.map f) := by
    intro turns
    induction turns with
    | nil => exact fun _ _ => rfl
    | cons i turns ih =>
        intro start out
        rw [List.foldl_cons, map_drainSlot, ih]
        rfl
  unfold advance
  simp only [index, duration, map_nSlots, drained]
  split <;> rfl

end Wheel

/-! ## The consumer -/

variable {R : Type*}

/-- A map of the requests in the ring and in the wheel.  The counters stay, since they count
requests. -/
def mapConsumer (f : FofParams R → FofParams R) (self : TimeWheelConsumer R) :
    TimeWheelConsumer R where
  rx := mapFifo f self.rx
  wheel := self.wheel.map f
  stats := self.stats

/-- The onset of a request stays.  It is the only field of a request that the queue reads. -/
def KeepsOnsets (f : FofParams R → FofParams R) : Prop :=
  ∀ params, (f params).startSample = params.startSample

section Consumer

variable {f : FofParams R → FofParams R}

theorem mapConsumer_push_ok {self next : TimeWheelConsumer R} {params : FofParams R}
    (pushed : self.push params = .ok next) :
    (mapConsumer f self).push (f params) = .ok (mapConsumer f next) := by
  unfold TimeWheelConsumer.push at pushed
  cases ring : self.rx.push params with
  | ok rx =>
      rw [ring] at pushed
      cases pushed
      have mapped : (mapConsumer f self).rx.push (f params) = .ok (mapFifo f rx) :=
        push_mapFifo_ok f ring
      unfold TimeWheelConsumer.push
      rw [mapped]
      rfl
  | error refused =>
      rw [ring] at pushed
      cases pushed

theorem mapConsumer_push_error {self : TimeWheelConsumer R} {params : FofParams R}
    (full : self.rx.items.length = self.rx.capacity) :
    (mapConsumer f self).push (f params) = .error (f params) := by
  have refused : (mapConsumer f self).rx.push (f params) = .error (f params) :=
    push_mapFifo_error f full
  unfold TimeWheelConsumer.push
  rw [refused]

theorem record_mapResult (sink : QueueStats) (result : Except (FofParams R × RejectReason) Nat) :
    sink.record (Wheel.mapResult f result) = sink.record result := by
  rcases result with ⟨event, reason⟩ | slotDelta
  · cases reason <;> rfl
  · rfl

theorem map_admitEntry (keeps : KeepsOnsets f) (wheel : Wheel (FofParams R))
    (stats : Option QueueStats) (params : FofParams R) :
    TimeWheelConsumer.admitEntry (wheel.map f) stats (f params) =
      ((TimeWheelConsumer.admitEntry wheel stats params).1.map f,
        (TimeWheelConsumer.admitEntry wheel stats params).2) := by
  unfold TimeWheelConsumer.admitEntry
  simp only [keeps params, Wheel.map_schedule, record_mapResult]

/-- The admission loop stops at the same entry and counts the same outcomes. -/
theorem map_admitReady (keeps : KeepsOnsets f) (admitBefore : Nat) (items : List (FofParams R))
    (wheel : Wheel (FofParams R)) (stats : Option QueueStats) :
    TimeWheelConsumer.admitReady admitBefore (items.map f) (wheel.map f) stats =
      ((TimeWheelConsumer.admitReady admitBefore items wheel stats).1.map f,
        (TimeWheelConsumer.admitReady admitBefore items wheel stats).2.1.map f,
        (TimeWheelConsumer.admitReady admitBefore items wheel stats).2.2) := by
  induction items generalizing wheel stats with
  | nil => rfl
  | cons params rest ih =>
      rw [List.map_cons, TimeWheelConsumer.admitReady, TimeWheelConsumer.admitReady, keeps params]
      by_cases ready : params.startSample < admitBefore
      · rw [if_pos ready, if_pos ready, map_admitEntry keeps]
        exact ih _ _
      · rw [if_neg ready, if_neg ready]
        rfl

/-- A block goes through the map: the same requests fire, in the same order and with their new
parameters. -/
theorem mapConsumer_drain (keeps : KeepsOnsets f) (self : TimeWheelConsumer R)
    (blockStart blockSize : Nat) (out : List (FofParams R)) :
    (mapConsumer f self).drainBlockSafe blockStart blockSize (out.map f) =
      (mapConsumer f (self.drainBlockSafe blockStart blockSize out).1,
        (self.drainBlockSafe blockStart blockSize out).2.map f) := by
  have window : (mapConsumer f self).wheel.wheelTime + (mapConsumer f self).wheel.horizon =
      self.wheel.wheelTime + self.wheel.horizon :=
    congrArg (self.wheel.wheelTime + · * self.wheel.slotDuration) (self.wheel.map_nSlots f)
  have admitted : TimeWheelConsumer.admitReady (self.wheel.wheelTime + self.wheel.horizon)
      (mapConsumer f self).rx.items (mapConsumer f self).wheel (mapConsumer f self).stats = _ :=
    map_admitReady keeps (self.wheel.wheelTime + self.wheel.horizon) self.rx.items self.wheel
      self.stats
  unfold TimeWheelConsumer.drainBlockSafe
  simp only [window, admitted, Wheel.map_advance, Wheel.map_len]
  rfl

end Consumer

end Queue
end Rfofs
