import Rfofs.Foundation.Interleaving
import Rfofs.Queue.Due
import Rfofs.Queue.Resync

namespace Rfofs
namespace Queue

open Foundation
open Grain

/-!
# A wheel with two shares

Two clients push into one ring, and beside this joint wheel each of them has a wheel of
its own, of the same geometry and under the same clock.  While the joint ring is ordered
and the joint wheel rejects nothing, the own wheels reject nothing either, and what the
joint wheel fires interleaves what they fire.

The bound on a slot is the reason: a slot number is never accepted more often than the
capacity, over a whole history, and the share of one client is a part of it.
-/

variable {R : Type*}

/-! ## One wheel -/

theorem accepted_of_rejected_nil {log : List (Verdict R)} (none : rejected log = []) :
    accepted log = consumed log := by
  unfold accepted
  congr 1
  apply List.filter_eq_self.mpr
  intro verdict member
  have reason := rejected_eq_nil.mp none verdict member
  rcases verdict with ⟨params, ⟨event, why⟩ | slotDelta⟩
  · cases reason
  · rfl

/-- The loop consumes the head of the ring.  Neither the wheel nor the verdicts have an
influence on where it stops. -/
theorem consumed_verdicts (admitBefore : Nat) (items : List (FofParams R))
    (wheel : Wheel (FofParams R)) :
    consumed (verdicts admitBefore items wheel) = window admitBefore items := by
  induction items generalizing wheel with
  | nil => rfl
  | cons params rest ih =>
      unfold verdicts
      by_cases ready : params.startSample < admitBefore
      · rw [if_pos ready, window_cons_of_lt ready, ← ih]
        rfl
      · rw [if_neg ready, window_cons_of_not_lt ready]
        rfl

/-- The verdicts depend on the head of the ring only.  What lies behind the bound is not
looked at. -/
theorem verdicts_window (admitBefore : Nat) (items : List (FofParams R))
    (wheel : Wheel (FofParams R)) :
    verdicts admitBefore (window admitBefore items) wheel = verdicts admitBefore items wheel := by
  induction items generalizing wheel with
  | nil => rfl
  | cons params rest ih =>
      by_cases ready : params.startSample < admitBefore
      · rw [window_cons_of_lt ready, List.singleton_append, verdicts, if_pos ready, ih, verdicts,
          if_pos ready]
      · rw [window_cons_of_not_lt ready, verdicts, verdicts, if_neg ready]

theorem admitReady_rest (admitBefore : Nat) (items : List (FofParams R))
    (wheel : Wheel (FofParams R)) (stats : Option QueueStats) :
    (TimeWheelConsumer.admitReady admitBefore items wheel stats).1 =
      items.dropWhile (fun params => decide (params.startSample < admitBefore)) := by
  have whole := verdicts_consumed admitBefore items wheel stats
  rw [consumed_verdicts] at whole
  exact List.append_cancel_left (whole.trans List.takeWhile_append_dropWhile.symm)

namespace WheelAccounts

variable {g : Geometry} {wheel : Wheel (FofParams R)} {log : List (Verdict R)}
  {fired : List (FofParams R)}

/-- No slot number has been accepted more often than a slot has room.  It is a property of the
log alone, so it passes to every part of the log. -/
def Sparse (g : Geometry) (log : List (Verdict R)) : Prop :=
  ∀ k, (keyClass (slotNumber g) k (accepted log)).length ≤ g.capacity

theorem sparse_schedule (accounts : WheelAccounts g wheel log fired) (sparse : Sparse g log)
    (params : FofParams R) : Sparse g (log ++ [verdictOf wheel params]) := by
  rcases accounts.queue with ⟨queue, rep, history⟩
  have answer := (rep.schedule params params.startSample).1
  rw [accounts.geometry] at answer
  intro k
  rw [accepted_append, keyClass_append, List.length_append, verdictOf, answer]
  rcases DeadlineQueue.schedule_cases g queue params params.startSample with
    ⟨equal, _⟩ | ⟨equal, _⟩ | ⟨equal, _⟩ | ⟨equal, reached, _, room⟩
  · rw [equal]
    exact sparse k
  · rw [equal]
    exact sparse k
  · rw [equal]
    exact sparse k
  · rw [equal]
    change _ + (keyClass (slotNumber g) k [params]).length ≤ _
    rw [keyClass_singleton]
    by_cases same : slotNumber g params = k
    · subst same
      rw [history.pending_eq, keyClass_filter_of_kept, keyClass_map, List.length_map] at room
      · rw [if_pos rfl]
        exact room
      · intro entry _ slot
        rw [decide_eq_true_eq, slot]
        exact reached
    · rw [if_neg same]
      exact sparse k

theorem sparse_verdicts (accounts : WheelAccounts g wheel log fired) (sparse : Sparse g log)
    (admitBefore : Nat) (items : List (FofParams R)) :
    Sparse g (log ++ verdicts admitBefore items wheel) := by
  induction items generalizing wheel log with
  | nil => rwa [verdicts, List.append_nil]
  | cons params rest ih =>
      unfold verdicts
      split
      · have later := ih (accounts.schedule params) (accounts.sparse_schedule sparse params)
        rwa [List.append_assoc] at later
      · rwa [List.append_nil]

end WheelAccounts

/-! ## The joint wheel and its shares -/

/-- In an ordered ring the head is everything before the bound.  Filtering and cutting then
give the same list. -/
theorem InOrder.before_bound {items : List (FofParams R)} (sorted : InOrder items)
    (bound : Nat) :
    items.Pairwise (fun x y => decide (y.startSample < bound) = true →
      decide (x.startSample < bound) = true) :=
  List.Pairwise.imp (fun ordered later =>
    decide_eq_true (ordered.trans_lt (of_decide_eq_true later))) sorted

/-- The heads of ordered rings are woven like the rings, and so is what they leave.  This is
where the order of the onsets is used. -/
theorem window_woven {items : Part → List (FofParams R)} (woven : Woven items)
    (sorted : InOrder (items .joint)) (bound : Nat) :
    Woven (fun part => Queue.window bound (items part)) ∧
      Woven (fun part => (items part).dropWhile
        (fun params => decide (params.startSample < bound))) := by
  have ordered : ∀ part, (items part).Pairwise (fun x y =>
      decide (y.startSample < bound) = true → decide (x.startSample < bound) = true) :=
    fun part => InOrder.before_bound (List.Pairwise.sublist (woven.sublist part) sorted) bound
  exact ⟨Woven.of_eq (fun part => takeWhile_eq_filter (ordered part)) (Interleaves.filter woven _),
    Woven.of_eq (fun part => dropWhile_eq_filter (ordered part)) (Interleaves.filter woven _)⟩

/-- What the joint wheel and the wheels of the two sides preserve: one clock, one geometry,
and logs and contents that are woven from those of the sides. -/
structure Shared (owns : Side → FofParams R → Prop) (g : Geometry)
    (logs : Part → List (Verdict R)) (wheel : Part → TimeWheelConsumer R) : Prop where
  accounts : ∀ part, ∃ fired, WheelAccounts g (wheel part).wheel (logs part) fired
  unrejected : ∀ part, rejected (logs part) = []
  sparse : WheelAccounts.Sparse g (logs .joint)
  slotIndex : ∀ part, (wheel part).wheel.slotIndex = (wheel .joint).wheel.slotIndex
  consumed : Woven (fun part => consumed (logs part))
  ring : SharedRing owns (fun part => (wheel part).rx)
  owned : ∀ side, ∀ params ∈ Queue.consumed (logs (.share side)), owns side params

namespace Shared

variable {owns : Side → FofParams R → Prop} {g : Geometry} {logs : Part → List (Verdict R)}
  {wheel : Part → TimeWheelConsumer R}

/-- Three fresh wheels of one geometry. -/
theorem fresh (owns : Side → FofParams R → Prop) {consumer : TimeWheelConsumer R}
    (accounts : WheelAccounts g consumer.wheel [] []) (empty : consumer.rx.items = []) :
    Shared owns g (fun _ => []) (fun _ => consumer) where
  accounts := fun _ => ⟨[], accounts⟩
  unrejected := fun _ => rfl
  sparse := fun _ => Nat.zero_le _
  slotIndex := fun _ => rfl
  consumed := Interleaves.nil
  ring := by
    refine ⟨?_, fun _ => rfl, fun side params member => ?_⟩
    · exact Woven.of_eq (fun _ => empty) Interleaves.nil
    · rw [empty] at member
      cases member
  owned := fun _ _ => nofun

theorem wheelTime (shared : Shared owns g logs wheel) (part : Part) :
    (wheel part).wheel.wheelTime = (wheel .joint).wheel.wheelTime := by
  rcases shared.accounts part with ⟨_, own⟩
  rcases shared.accounts .joint with ⟨_, joint⟩
  rw [own.wheelTime_eq, joint.wheelTime_eq, shared.slotIndex part]

theorem horizon (shared : Shared owns g logs wheel) (part : Part) :
    (wheel part).wheel.horizon = (wheel .joint).wheel.horizon := by
  rcases shared.accounts part with ⟨_, own⟩
  rcases shared.accounts .joint with ⟨_, joint⟩
  rw [own.horizon_eq, joint.horizon_eq]

/-- What the wheels consume in a block is woven, and so is what they leave in the ring. -/
theorem heads (shared : Shared owns g logs wheel) (sorted : InOrder (wheel .joint).rx.items) :
    Woven (fun part => Queue.consumed (wheel part).blockVerdicts) ∧
      ∀ blockStart blockSize, Woven (fun part =>
        ((wheel part).drainBlockSafe blockStart blockSize []).1.rx.items) := by
  have split := window_woven shared.ring.items sorted
    ((wheel .joint).wheel.wheelTime + (wheel .joint).wheel.horizon)
  have heads : ∀ part, Queue.consumed (wheel part).blockVerdicts =
      Queue.window ((wheel .joint).wheel.wheelTime + (wheel .joint).wheel.horizon)
        (wheel part).rx.items := by
    intro part
    rw [TimeWheelConsumer.blockVerdicts, consumed_verdicts, shared.wheelTime part,
      shared.horizon part]
  have rests : ∀ part blockStart blockSize,
      ((wheel part).drainBlockSafe blockStart blockSize []).1.rx.items =
        (wheel part).rx.items.dropWhile (fun params => decide (params.startSample <
          (wheel .joint).wheel.wheelTime + (wheel .joint).wheel.horizon)) := by
    intro part blockStart blockSize
    rw [← shared.wheelTime part, ← shared.horizon part]
    exact admitReady_rest _ _ _ _
  exact ⟨split.1.of_eq heads, fun blockStart blockSize =>
    split.2.of_eq (fun part => rests part blockStart blockSize)⟩

/-- While the joint wheel rejects nothing, the wheels of the sides reject nothing.  A side
holds a part of each class, so it has at least as much room. -/
theorem accepts (shared : Shared owns g logs wheel) (sorted : InOrder (wheel .joint).rx.items)
    (clean : rejected (wheel .joint).blockVerdicts = []) (part : Part) :
    rejected (wheel part).blockVerdicts = [] := by
  have heads := (shared.heads sorted).1
  rcases shared.accounts part with ⟨_, own⟩
  rcases shared.accounts .joint with ⟨_, joint⟩
  have head : Queue.consumed (wheel part).blockVerdicts = Queue.window
      ((wheel part).wheel.wheelTime + (wheel part).wheel.horizon) (wheel part).rx.items :=
    consumed_verdicts _ _ _
  rw [TimeWheelConsumer.blockVerdicts, ← verdicts_window]
  apply own.verdicts_accepted
  · intro params listed
    rw [← head] at listed
    rcases List.mem_map.mp ((heads.sublist part).subset listed) with ⟨verdict, member, rfl⟩
    by_contra behind
    rw [shared.wheelTime part] at behind
    have late := verdicts_late member (Nat.lt_of_not_le behind)
    rw [rejected_eq_nil.mp clean verdict member] at late
    cases late
  · intro k
    have whole := joint.sparse_verdicts shared.sparse
      ((wheel .joint).wheel.wheelTime + (wheel .joint).wheel.horizon) (wheel .joint).rx.items k
    change (keyClass _ k (accepted (logs .joint ++ (wheel .joint).blockVerdicts))).length ≤ _
      at whole
    rw [accepted_append, accepted_of_rejected_nil (shared.unrejected .joint),
      accepted_of_rejected_nil clean] at whole
    rw [← head]
    have fewer := ((shared.consumed.sublist part).append (heads.sublist part)).filter
      (fun params => decide (slotNumber g params = k))
    exact fewer.length_le.trans whole

/-- One block of the joint wheel and of the wheels of the sides.  What they fire is woven as
well. -/
theorem drain (shared : Shared owns g logs wheel) (sorted : InOrder (wheel .joint).rx.items)
    (clean : rejected (wheel .joint).blockVerdicts = []) (blockStart blockSize : Nat) :
    Shared owns g (fun part => logs part ++ (wheel part).blockVerdicts)
        (fun part => ((wheel part).drainBlockSafe blockStart blockSize []).1) ∧
      Woven (fun part => ((wheel part).drainBlockSafe blockStart blockSize []).2) ∧
      ∀ side, ∀ params ∈ ((wheel (.share side)).drainBlockSafe blockStart blockSize []).2,
        owns side params := by
  have accepts := shared.accepts sorted clean
  have heads := shared.heads sorted
  have unrejected : ∀ part, rejected (logs part ++ (wheel part).blockVerdicts) = [] := by
    intro part
    rw [rejected_append, shared.unrejected part, accepts part]
    rfl
  have consumed : Woven (fun part => Queue.consumed (logs part ++ (wheel part).blockVerdicts)) :=
    Woven.of_eq (fun part => consumed_append _ _) (Interleaves.append shared.consumed heads.1)
  have slotIndex : ∀ part,
      ((wheel part).drainBlockSafe blockStart blockSize []).1.wheel.slotIndex =
        ((wheel .joint).drainBlockSafe blockStart blockSize []).1.wheel.slotIndex := by
    intro part
    rcases shared.accounts part with ⟨_, own⟩
    rcases shared.accounts .joint with ⟨_, joint⟩
    rw [TimeWheelConsumer.drainBlockSafe_slotIndex own,
      TimeWheelConsumer.drainBlockSafe_slotIndex joint, shared.slotIndex part]
  have fires : ∀ part, ((wheel part).drainBlockSafe blockStart blockSize []).2 =
      orderedFrom (slotNumber g) (wheel .joint).wheel.slotIndex
        (((wheel .joint).drainBlockSafe blockStart blockSize []).1.wheel.slotIndex -
          (wheel .joint).wheel.slotIndex)
        (Queue.consumed (logs part ++ (wheel part).blockVerdicts)) := by
    intro part
    rcases shared.accounts part with ⟨_, own⟩
    rw [TimeWheelConsumer.drainBlockSafe_fires own, accepted_of_rejected_nil (unrejected part),
      slotIndex part, shared.slotIndex part]
  have owned : ∀ side, ∀ params ∈ Queue.consumed (logs (.share side) ++
      (wheel (.share side)).blockVerdicts), owns side params := by
    intro side params member
    rw [consumed_append] at member
    rcases List.mem_append.mp member with old | new
    · exact shared.owned side params old
    · apply shared.ring.owned side
      rw [← (wheel (.share side)).drainBlockSafe_ring blockStart blockSize []]
      exact List.mem_append_left _ new
  have ring : SharedRing owns (fun part =>
      ((wheel part).drainBlockSafe blockStart blockSize []).1.rx) := by
    refine ⟨heads.2 _ _, shared.ring.capacity, fun side params member => ?_⟩
    apply shared.ring.owned side
    rw [← (wheel (.share side)).drainBlockSafe_ring blockStart blockSize []]
    exact List.mem_append_right _ member
  refine ⟨⟨fun part => ?_, unrejected, ?_, slotIndex, consumed, ring, owned⟩, ?_,
    fun side params member => ?_⟩
  · rcases shared.accounts part with ⟨fired, own⟩
    have next := TimeWheelConsumer.drainBlockSafe_accounts own blockStart blockSize
    rw [(wheel part).drainBlockSafe_out] at next
    exact ⟨_, next⟩
  · rcases shared.accounts .joint with ⟨_, joint⟩
    exact joint.sparse_verdicts shared.sparse _ _
  · exact Woven.of_eq fires (Interleaves.flatMap (fun k _ => Interleaves.filter consumed _))
  · rw [fires] at member
    exact owned side params (mem_orderedFrom.mp member).1

/-- Other rings, and the same wheels. -/
theorem withRing (shared : Shared owns g logs wheel) {rings : Part → BoundedFifo (FofParams R)}
    (ring : SharedRing owns rings) :
    Shared owns g logs (fun part => { wheel part with rx := rings part }) where
  accounts := shared.accounts
  unrejected := shared.unrejected
  sparse := shared.sparse
  slotIndex := shared.slotIndex
  consumed := shared.consumed
  ring := ring
  owned := shared.owned

end Shared

end Queue
end Rfofs
