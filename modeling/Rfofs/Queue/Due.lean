import Rfofs.Queue.Accounts

namespace Rfofs
namespace Queue

open Foundation
open Grain
open DeadlineQueue (slotOf)

/-!
# What falls due in a block

A block fires what its slots held before, together with the head of the ring.  The
head ends at the first entry beyond the admission window.  An entry of the head joins
its slot as long as the slot has room, and a block visits each position of the array
at most once, however far the clock jumps.

`due` says this of the state before the block, without a loop.
-/

variable {R : Type*}

/-- The entries in front of the first one at or beyond the bound.  This is the part of the
ring that one admission loop consumes. -/
def window (admitBefore : Nat) (items : List (FofParams R)) : List (FofParams R) :=
  items.takeWhile (fun params => decide (params.startSample < admitBefore))

theorem window_cons_of_lt {admitBefore : Nat} {params : FofParams R}
    (ready : params.startSample < admitBefore) (rest : List (FofParams R)) :
    window admitBefore (params :: rest) = [params] ++ window admitBefore rest :=
  List.takeWhile_cons_of_pos (decide_eq_true ready)

theorem window_cons_of_not_lt {admitBefore : Nat} {params : FofParams R}
    (beyond : ¬ params.startSample < admitBefore) (rest : List (FofParams R)) :
    window admitBefore (params :: rest) = [] :=
  List.takeWhile_cons_of_neg (by simpa using beyond)

/-- A list that is cut twice at the same length. -/
theorem take_take_append {X : Type*} (n : Nat) (xs ys : List X) :
    (xs.take n ++ ys).take n = (xs ++ ys).take n := by
  rw [List.take_append, List.take_append, List.take_take, Nat.min_self, List.length_take]
  congr 2
  omega

namespace TimeWheelConsumer

/-- What an absolute slot of the window holds once the head of the ring is admitted.  Each
class is cut at the capacity, because later entries of a full slot are rejected. -/
def dueIn (self : TimeWheelConsumer R) (k : Nat) : List (FofParams R) :=
  (self.wheel.slot (k % self.wheel.nSlots) ++ keyClass (slotNumber self.wheel.geometry) k
    (window (self.wheel.wheelTime + self.wheel.horizon) self.rx.items)).take
      self.wheel.slotCapacity

/-- What the slots hold that elapse when the clock reaches `now`.  The slots come in their
order. -/
def due (self : TimeWheelConsumer R) (now : Nat) : List (FofParams R) :=
  (List.range' self.wheel.slotIndex
    (min (now / self.wheel.slotDuration - self.wheel.slotIndex) self.wheel.nSlots)).flatMap
      self.dueIn

end TimeWheelConsumer

/-! ## The slots after the admission loop -/

namespace WheelAccounts

variable {g : Geometry} {wheel : Wheel (FofParams R)} {log : List (Verdict R)}
  {fired : List (FofParams R)}

/-- The slots of the window hold the classes of one valid queue.  The accounts of a run
provide this queue, whatever was rejected on the way. -/
theorem slot_eq (accounts : WheelAccounts g wheel log fired) :
    ∃ queue : DeadlineQueue (FofParams R), wheel.Represents queue ∧ queue.Valid g ∧
      ∀ k, wheel.slotIndex ≤ k → k < wheel.slotIndex + g.slots →
        wheel.slot (k % g.slots) = (keyClass (slotOf g) k queue.pending).map Prod.fst := by
  rcases accounts.queue with ⟨queue, rep, _⟩
  have content := rep.content
  have valid := rep.valid
  rw [accounts.geometry] at content valid
  have size : wheel.nSlots = g.slots := congrArg Geometry.slots accounts.geometry
  rw [← rep.cur, size] at content
  exact ⟨queue, rep, valid, content⟩

/-- No slot holds more than the capacity. -/
theorem slot_take (accounts : WheelAccounts g wheel log fired) {k : Nat}
    (above : wheel.slotIndex ≤ k) (below : k < wheel.slotIndex + g.slots) :
    (wheel.slot (k % g.slots)).take g.capacity = wheel.slot (k % g.slots) := by
  rcases accounts.slot_eq with ⟨queue, _, valid, content⟩
  rw [content k above below, List.take_of_length_le]
  rw [List.length_map]
  exact valid.room k

theorem schedule_slot (accounts : WheelAccounts g wheel log fired) (params : FofParams R) {k : Nat}
    (above : wheel.slotIndex ≤ k) (below : k < wheel.slotIndex + g.slots) :
    (wheel.schedule params params.startSample).1.slot (k % g.slots) =
      (wheel.slot (k % g.slots) ++ keyClass (slotNumber g) k [params]).take g.capacity := by
  rcases accounts.slot_eq with ⟨queue, rep, valid, content⟩
  rcases rep.schedule params params.startSample with ⟨_, geometry, next⟩
  have nextContent := next.content
  have size : (wheel.schedule params params.startSample).1.nSlots = g.slots :=
    congrArg Geometry.slots (geometry.trans accounts.geometry)
  rw [geometry, accounts.geometry, DeadlineQueue.schedule_cur, ← rep.cur, size] at nextContent
  rw [nextContent k above below, content k above below,
    DeadlineQueue.schedule_keyClass valid params _ (rep.cur ▸ above) (rep.cur ▸ below),
    List.map_take, List.map_append]
  have single : (keyClass (slotOf g) k [(params, params.startSample)]).map Prod.fst =
      keyClass (slotNumber g) k [params] := by
    change (keyClass (slotOf g) k ([params].map toEntry)).map Prod.fst = _
    rw [keyClass_map, List.map_map]
    exact List.map_id _
  rw [single]

/-- The admission loop appends the head of the ring, class by class.  What exceeds the
capacity of a slot is rejected. -/
theorem admitReady_slot (accounts : WheelAccounts g wheel log fired) (admitBefore : Nat)
    (items : List (FofParams R)) (stats : Option QueueStats) {k : Nat}
    (above : wheel.slotIndex ≤ k) (below : k < wheel.slotIndex + g.slots) :
    (TimeWheelConsumer.admitReady admitBefore items wheel stats).2.1.slot (k % g.slots) =
      (wheel.slot (k % g.slots) ++
        keyClass (slotNumber g) k (window admitBefore items)).take g.capacity := by
  induction items generalizing wheel log stats with
  | nil =>
      rw [window, List.takeWhile_nil, keyClass_nil, List.append_nil,
        accounts.slot_take above below]
      rfl
  | cons params rest ih =>
      unfold TimeWheelConsumer.admitReady
      by_cases ready : params.startSample < admitBefore
      · have clock := wheel.schedule_slotIndex params params.startSample
        have later := ih (accounts.schedule params)
          (TimeWheelConsumer.admitEntry wheel stats params).2 (clock.symm ▸ above)
          (clock.symm ▸ below)
        rw [if_pos ready, window_cons_of_lt ready, keyClass_append, ← List.append_assoc]
        refine later.trans ?_
        rw [accounts.schedule_slot params above below, take_take_append]
      · rw [if_neg ready, window_cons_of_not_lt ready, keyClass_nil, List.append_nil,
          accounts.slot_take above below]

/-- An advance fires the slots that elapse, each position once.  A clock that skips a rotation
still visits each position only once. -/
theorem advance_fires (accounts : WheelAccounts g wheel log fired) (now : Nat) :
    (wheel.advance now []).2 =
      (List.range' wheel.slotIndex (min (now / g.duration - wheel.slotIndex) g.slots)).flatMap
        (fun k => wheel.slot (k % g.slots)) := by
  rcases accounts.slot_eq with ⟨queue, rep, _, content⟩
  have size : wheel.nSlots = g.slots := congrArg Geometry.slots accounts.geometry
  have answer := (rep.advance now []).1
  rw [accounts.geometry] at answer
  rw [answer]
  by_cases backward : now / g.duration ≤ queue.cur
  · rw [DeadlineQueue.advance_of_le backward, rep.cur, Nat.sub_eq_zero_of_le backward,
      Nat.zero_min]
    rfl
  · have forward := Nat.lt_of_not_le backward
    have released := rep.due_eq forward
    rw [accounts.geometry, size, ← rep.cur] at released
    rw [DeadlineQueue.advance_of_lt forward, List.nil_append, released, orderedFrom,
      List.map_flatMap]
    apply List.flatMap_congr
    intro k member
    rw [List.mem_range'_1] at member
    exact (content k member.1 (by omega)).symm

end WheelAccounts

/-- A block fires what falls due.  The list on the right is a function of the state before the
block and of the end of the block. -/
theorem TimeWheelConsumer.drainBlockSafe_due {self : TimeWheelConsumer R} {g : Geometry}
    {log : List (Verdict R)} {fired : List (FofParams R)}
    (accounts : WheelAccounts g self.wheel log fired) (blockStart blockSize : Nat) :
    (self.drainBlockSafe blockStart blockSize []).2 = self.due (blockStart + blockSize) := by
  have admitted := accounts.admitReady (self.wheel.wheelTime + self.wheel.horizon)
    self.rx.items self.stats
  have fires := admitted.advance_fires (blockStart + blockSize)
  rw [admitReady_slotIndex] at fires
  refine fires.trans ?_
  have geometry := accounts.geometry
  subst geometry
  apply List.flatMap_congr
  intro k member
  rw [List.mem_range'_1] at member
  have inside : k < self.wheel.slotIndex + self.wheel.geometry.slots := by omega
  exact accounts.admitReady_slot _ _ _ member.1 inside

end Queue
end Rfofs
