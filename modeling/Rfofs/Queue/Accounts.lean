import Rfofs.Queue.TimeWheel
import Rfofs.Queue.WheelRefinement

namespace Rfofs
namespace Queue

open Foundation
open Grain
open DeadlineQueue (History slotOf)

/-!
# Accounts of a queue

The admission loop throws the result of `schedule` away, except for its counters.
An observer writes it down: a `Verdict` is an entry consumed from the ring with
the answer it received, and the ledger of a run holds everything that was pushed,
all verdicts, and everything that was fired.

The accounts say how the state of the consumer is determined by the ledger.  The
pushed entries are the consumed ones followed by the ring; the wheel holds and
has fired what a deadline queue would for the accepted ones; and the counters
count the verdicts.  They are stated for single admissions and for one advance of
the wheel, so a finer interleaving than the blocks of one thread can use them as
well.
-/

variable {R : Type*}

/-! ## Verdicts -/

/-- An entry consumed from the ring and the answer of `schedule`.  The wheel's history is a
list of these. -/
abbrev Verdict (R : Type*) := FofParams R × Except (FofParams R × RejectReason) Nat

def verdictOf (wheel : Wheel (FofParams R)) (params : FofParams R) : Verdict R :=
  (params, (wheel.schedule params params.startSample).2)

/-- The verdicts of one admission loop.  The recursion is the loop's own: it stops at the
first entry that lies at or beyond the admission bound. -/
def verdicts (admitBefore : Nat) : List (FofParams R) → Wheel (FofParams R) → List (Verdict R)
  | [], _ => []
  | params :: rest, wheel =>
      if params.startSample < admitBefore then
        verdictOf wheel params ::
          verdicts admitBefore rest (wheel.schedule params params.startSample).1
      else
        []

def consumed (log : List (Verdict R)) : List (FofParams R) := log.map Prod.fst

/-- The offset under which an entry was accepted. -/
def Verdict.offset? : Verdict R → Option Nat
  | (_, .ok slotDelta) => some slotDelta
  | (_, .error _) => none

def Verdict.reason? : Verdict R → Option RejectReason
  | (_, .ok _) => none
  | (_, .error (_, reason)) => some reason

/-- The consumed entries that entered the wheel, in the order in which they were consumed. -/
def accepted (log : List (Verdict R)) : List (FofParams R) :=
  consumed (log.filter (fun verdict => verdict.offset?.isSome))

/-- The consumed entries that were rejected, for any reason or for one. -/
def rejected (log : List (Verdict R)) : List (FofParams R) :=
  consumed (log.filter (fun verdict => !verdict.offset?.isSome))

def rejectedFor (reason : RejectReason) (log : List (Verdict R)) : List (FofParams R) :=
  consumed (log.filter (fun verdict => decide (verdict.reason? = some reason)))

theorem mem_rejectedFor {reason : RejectReason} {log : List (Verdict R)} {params : FofParams R} :
    params ∈ rejectedFor reason log ↔
      ∃ verdict ∈ log, verdict.reason? = some reason ∧ verdict.1 = params := by
  simp only [rejectedFor, consumed, List.mem_map, List.mem_filter, decide_eq_true_eq, and_assoc]

theorem mem_accepted {log : List (Verdict R)} {params : FofParams R} {slotDelta : Nat}
    (listed : (params, .ok slotDelta) ∈ log) : params ∈ accepted log :=
  List.mem_map.mpr ⟨_, List.mem_filter.mpr ⟨listed, rfl⟩, rfl⟩

@[simp] theorem consumed_append (first second : List (Verdict R)) :
    consumed (first ++ second) = consumed first ++ consumed second :=
  List.map_append

@[simp] theorem accepted_append (first second : List (Verdict R)) :
    accepted (first ++ second) = accepted first ++ accepted second := by
  simp [accepted]

@[simp] theorem rejected_append (first second : List (Verdict R)) :
    rejected (first ++ second) = rejected first ++ rejected second := by
  simp [rejected]

@[simp] theorem rejectedFor_append (reason : RejectReason) (first second : List (Verdict R)) :
    rejectedFor reason (first ++ second) =
      rejectedFor reason first ++ rejectedFor reason second := by
  simp [rejectedFor]

/-- Every consumed entry is accepted or rejected, and not both.  Only the order of the two
kinds is forgotten. -/
theorem accepted_append_rejected_perm (log : List (Verdict R)) :
    (accepted log ++ rejected log).Perm (consumed log) := by
  have split := (List.filter_append_perm (fun verdict : Verdict R => verdict.offset?.isSome)
    log).map Prod.fst
  rw [List.map_append] at split
  exact split

theorem accepted_sublist (log : List (Verdict R)) : (accepted log).Sublist (consumed log) :=
  List.filter_sublist.map _

theorem rejected_eq_nil {log : List (Verdict R)} :
    rejected log = [] ↔ ∀ verdict ∈ log, verdict.reason? = none := by
  unfold rejected consumed
  rw [List.map_eq_nil_iff, List.filter_eq_nil_iff]
  refine forall₂_congr fun verdict _ => ?_
  rcases verdict with ⟨params, ⟨event, reason⟩ | slotDelta⟩
  · exact ⟨fun taken => absurd rfl taken, nofun⟩
  · exact ⟨fun _ => rfl, fun _ => by simp [Verdict.offset?]⟩

theorem rejected_flatMap_eq_nil {I : Type*} {logs : I → List (Verdict R)} {is : List I} :
    rejected (is.flatMap logs) = [] ↔ ∀ i ∈ is, rejected (logs i) = [] := by
  simp only [rejected_eq_nil, List.mem_flatMap]
  exact ⟨fun none i listed verdict member => none verdict ⟨i, listed, member⟩,
    fun none verdict ⟨i, listed, member⟩ => none i listed verdict member⟩

/-- A rejected entry has exactly one reason. -/
theorem rejected_perm (log : List (Verdict R)) :
    (rejectedFor .tooLate log ++ (rejectedFor .tooEarly log ++ rejectedFor .slotFull log)).Perm
      (rejected log) := by
  induction log with
  | nil => exact List.Perm.refl _
  | cons verdict log ih =>
      rcases verdict with ⟨params, ⟨event, reason⟩ | slotDelta⟩
      · cases reason with
        | tooLate => exact ih.cons params
        | tooEarly => exact List.perm_middle.trans (ih.cons params)
        | slotFull =>
            have moved : ((rejectedFor .tooLate log ++ rejectedFor .tooEarly log) ++
                params :: rejectedFor .slotFull log).Perm _ := List.perm_middle
            rw [List.append_assoc, List.append_assoc] at moved
            exact moved.trans (ih.cons params)
      · exact ih

/-! ## The wheel and its verdicts -/

/-- The pending form of an accepted entry. -/
def toEntry (params : FofParams R) : FofParams R × Nat := (params, params.startSample)

/-- The slot of the wheel into which an entry falls.  Entries are fired by this number first. -/
def slotNumber (g : Geometry) (params : FofParams R) : Nat := params.startSample / g.duration

/-- The wheel holds and has fired what the deadline queue would, had it been given
the accepted entries of the log. -/
structure WheelAccounts (g : Geometry) (wheel : Wheel (FofParams R)) (log : List (Verdict R))
    (fired : List (FofParams R)) : Prop where
  geometry : wheel.geometry = g
  queue : ∃ queue, wheel.Represents queue ∧
    History g ((accepted log).map toEntry) fired queue
  returned : ∀ verdict ∈ log, ∀ event reason,
    verdict.2 = .error (event, reason) → event = verdict.1

/-- A fresh wheel has consumed and fired nothing. -/
theorem new_wheelAccounts (g : Geometry) :
    WheelAccounts g (Wheel.new g.slots g.duration g.capacity g.slots_pos g.duration_pos :
      Wheel (FofParams R)) [] [] where
  geometry := by simp [Wheel.geometry]
  queue := ⟨DeadlineQueue.empty, Wheel.new_represents _ _ _ _ _, DeadlineQueue.empty_history g⟩
  returned := by simp

namespace WheelAccounts

variable {g : Geometry} {wheel : Wheel (FofParams R)} {log : List (Verdict R)}
  {fired : List (FofParams R)}

theorem wheelTime_eq (accounts : WheelAccounts g wheel log fired) :
    wheel.wheelTime = wheel.slotIndex * g.duration := by
  rw [← accounts.geometry]
  rfl

theorem horizon_eq (accounts : WheelAccounts g wheel log fired) :
    wheel.horizon = g.slots * g.duration := by
  rw [← accounts.geometry]
  rfl

/-- One admission.  The verdict is appended to the log, and an accepted entry is added to the
class of its slot. -/
theorem schedule (accounts : WheelAccounts g wheel log fired) (params : FofParams R) :
    WheelAccounts g (wheel.schedule params params.startSample).1
      (log ++ [verdictOf wheel params]) fired := by
  rcases accounts.queue with ⟨queue, rep, history⟩
  rcases rep.schedule params params.startSample with ⟨answer, geometryEq, nextRep⟩
  rw [accounts.geometry] at answer nextRep geometryEq
  have appended : ∀ verdict ∈ log ++ [verdictOf wheel params], ∀ event reason,
      verdict.2 = .error (event, reason) → event = verdict.1 := by
    intro verdict member event reason refused
    rcases List.mem_append.mp member with old | new
    · exact accounts.returned verdict old event reason refused
    · rw [List.mem_singleton.mp new] at refused ⊢
      change (wheel.schedule params params.startSample).2 = _ at refused
      rw [answer] at refused
      rcases DeadlineQueue.schedule_cases g queue params params.startSample with
        ⟨equal, _⟩ | ⟨equal, _⟩ | ⟨equal, _⟩ | ⟨equal, _⟩ <;>
        rw [equal] at refused <;> cases refused <;> rfl
  refine ⟨geometryEq, ⟨_, nextRep, ?_⟩, appended⟩
  rw [accepted_append, verdictOf, answer, List.map_append]
  rcases DeadlineQueue.schedule_cases g queue params params.startSample with
    ⟨equal, _⟩ | ⟨equal, _⟩ | ⟨equal, _⟩ | ⟨equal, reached, _⟩ <;> rw [equal]
  · simpa [accepted, consumed, Verdict.offset?] using history
  · simpa [accepted, consumed, Verdict.offset?] using history
  · simpa [accepted, consumed, Verdict.offset?] using history
  · exact history.accept params reached

/-- The wheel advances and fires.  The log stays as it is, because firing is no admission. -/
theorem advance (accounts : WheelAccounts g wheel log fired) (now : Nat) :
    WheelAccounts g (wheel.advance now fired).1 log (wheel.advance now fired).2 := by
  rcases accounts.queue with ⟨queue, rep, history⟩
  rcases rep.advance now fired with ⟨answer, geometryEq, nextRep⟩
  rw [accounts.geometry] at answer nextRep geometryEq
  rw [answer]
  exact ⟨geometryEq, ⟨_, nextRep, history.advance now⟩, accounts.returned⟩

/-- What has been fired: the accepted entries of the elapsed slots, by slot and
then in the order of the ring. -/
theorem fired_eq (accounts : WheelAccounts g wheel log fired) :
    fired = orderedBelow (slotNumber g) wheel.slotIndex (accepted log) := by
  rcases accounts.queue with ⟨queue, rep, history⟩
  rw [history.fired_eq, orderedBelow_map, List.map_map, rep.cur]
  exact List.map_id _

/-- Entries of a later slot are never fired before entries of an earlier one. -/
theorem fired_pairwise (accounts : WheelAccounts g wheel log fired) :
    fired.Pairwise (fun x y => slotNumber g x ≤ slotNumber g y) := by
  rw [accounts.fired_eq]
  exact orderedBelow_pairwise _ _

/-- Inside one slot the entries are fired in the order of the ring.  Some entries of the ring
may be missing, because they were rejected or are still held. -/
theorem keyClass_fired_sublist (accounts : WheelAccounts g wheel log fired) (k : Nat) :
    (keyClass (slotNumber g) k fired).Sublist (keyClass (slotNumber g) k (consumed log)) := by
  rw [accounts.fired_eq]
  by_cases elapsed : k < wheel.slotIndex
  · rw [keyClass_orderedBelow elapsed]
    exact (accepted_sublist log).filter _
  · have waiting : keyClass (slotNumber g) k
        (orderedBelow (slotNumber g) wheel.slotIndex (accepted log)) = [] := by
      apply keyClass_eq_nil
      intro params member same
      exact elapsed (same ▸ (mem_orderedBelow.mp member).2)
    rw [waiting]
    exact List.nil_sublist _

/-- Consumed in slot order, the entries are fired as they were consumed.  Without this order
entries of different slots may change places. -/
theorem fired_sublist (accounts : WheelAccounts g wheel log fired)
    (sorted : (consumed log).Pairwise (fun x y => slotNumber g x ≤ slotNumber g y)) :
    fired.Sublist (consumed log) := by
  rw [accounts.fired_eq, orderedBelow_eq_filter_of_sorted (sorted.sublist (accepted_sublist log))]
  exact List.filter_sublist.trans (accepted_sublist log)

/-- What the wheel holds: the other accepted entries. -/
theorem held_perm (accounts : WheelAccounts g wheel log fired) :
    wheel.slots.flatten.Perm ((accepted log).filter
      (fun params => decide (wheel.slotIndex ≤ slotNumber g params))) := by
  rcases accounts.queue with ⟨queue, rep, history⟩
  have same := rep.flatten_perm
  rw [history.pending_eq, List.filter_map, List.map_map, ← rep.cur] at same
  rw [← List.map_id (List.filter _ (accepted log))]
  exact same

/-- Accepted entries are fired or held, each once.  In particular the wheel neither loses nor
duplicates an entry. -/
theorem accepted_perm (accounts : WheelAccounts g wheel log fired) :
    (fired ++ wheel.slots.flatten).Perm (accepted log) := by
  rw [accounts.fired_eq]
  exact (accounts.held_perm.append_left _).trans
    (orderedBelow_append_retained_perm wheel.slotIndex (accepted log))

/-- Consumed entries are fired, held or rejected, each once. -/
theorem consumed_perm (accounts : WheelAccounts g wheel log fired) :
    (fired ++ (wheel.slots.flatten ++ rejected log)).Perm (consumed log) := by
  rw [← List.append_assoc]
  exact (accounts.accepted_perm.append_right _).trans (accepted_append_rejected_perm log)

theorem len_add_fired (accounts : WheelAccounts g wheel log fired) :
    wheel.len + fired.length = (accepted log).length := by
  have same := accounts.accepted_perm.length_eq
  rw [List.length_append, List.length_flatten] at same
  rw [Nat.add_comm]
  exact same

theorem slot_length_le (accounts : WheelAccounts g wheel log fired)
    {events : List (FofParams R)} (member : events ∈ wheel.slots) :
    events.length ≤ g.capacity := by
  rcases accounts.queue with ⟨queue, rep, _⟩
  rw [← accounts.geometry]
  exact rep.slot_length_le member

end WheelAccounts

/-! ## The counters and their verdicts -/

/-- The counters count the verdicts; a bucket counts the offsets that are clamped
into it. -/
structure Counts (stats : QueueStats) (log : List (Verdict R)) : Prop where
  tooLate : stats.tooLate = (rejectedFor .tooLate log).length
  tooEarly : stats.tooEarly = (rejectedFor .tooEarly log).length
  slotFull : stats.slotFull = (rejectedFor .slotFull log).length
  histogram : ∀ i, stats.slotOffsetHistogram i =
    (log.filterMap Verdict.offset?).countP (fun slotDelta => QueueStats.bucket slotDelta = i)
  admitted : stats.admitted = (accepted log).length

theorem default_counts : Counts QueueStats.default ([] : List (Verdict R)) where
  tooLate := rfl
  tooEarly := rfl
  slotFull := rfl
  histogram := fun _ => rfl
  admitted := by simp [QueueStats.admitted, QueueStats.default, accepted, consumed]

theorem record_ok_admitted {T : Type*} (stats : QueueStats) (slotDelta : Nat) :
    (stats.record (.ok slotDelta : Except (T × RejectReason) Nat)).admitted =
      stats.admitted + 1 := by
  change ∑ i, Function.update stats.slotOffsetHistogram _ _ i = _
  rw [Finset.sum_update_of_mem (Finset.mem_univ _), Nat.add_right_comm, QueueStats.admitted,
    Finset.sdiff_singleton_eq_erase, Finset.add_sum_erase _ _ (Finset.mem_univ _)]

theorem Counts.record {stats : QueueStats} {log : List (Verdict R)} (counts : Counts stats log)
    (verdict : Verdict R) : Counts (stats.record verdict.2) (log ++ [verdict]) := by
  rcases verdict with ⟨params, ⟨event, reason⟩ | slotDelta⟩
  · cases reason <;>
      exact ⟨by simp [QueueStats.record, counts.tooLate, rejectedFor, consumed, Verdict.reason?],
        by simp [QueueStats.record, counts.tooEarly, rejectedFor, consumed, Verdict.reason?],
        by simp [QueueStats.record, counts.slotFull, rejectedFor, consumed, Verdict.reason?],
        by simpa [QueueStats.record, Verdict.offset?, List.filterMap_cons] using counts.histogram,
        by simpa [QueueStats.record, QueueStats.admitted, accepted, consumed, Verdict.offset?]
            using counts.admitted⟩
  · refine ⟨?_, ?_, ?_, ?_, ?_⟩
    · simp [QueueStats.record, counts.tooLate, rejectedFor, consumed, Verdict.reason?]
    · simp [QueueStats.record, counts.tooEarly, rejectedFor, consumed, Verdict.reason?]
    · simp [QueueStats.record, counts.slotFull, rejectedFor, consumed, Verdict.reason?]
    · intro i
      rw [List.filterMap_append, List.countP_append, ← counts.histogram i]
      by_cases same : i = QueueStats.bucket slotDelta
      · subst same
        simp [QueueStats.record, Verdict.offset?]
      · simp [QueueStats.record, Verdict.offset?, same, Ne.symm same]
    · rw [record_ok_admitted, counts.admitted]
      simp [accepted, consumed, Verdict.offset?]

/-- The current occupancy is not one of the counters. -/
theorem Counts.withQueueSize {stats : QueueStats} {log : List (Verdict R)}
    (counts : Counts stats log) (size : Nat) : Counts { stats with queueSize := size } log :=
  ⟨counts.tooLate, counts.tooEarly, counts.slotFull, counts.histogram, counts.admitted⟩

/-! ## The admission loop -/

/-- What is consumed is a prefix of the ring, and the rest stays there.  The loop takes
nothing that it does not also present to the wheel. -/
theorem verdicts_consumed (admitBefore : Nat) (items : List (FofParams R))
    (wheel : Wheel (FofParams R)) (stats : Option QueueStats) :
    consumed (verdicts admitBefore items wheel) ++
      (TimeWheelConsumer.admitReady admitBefore items wheel stats).1 = items := by
  induction items generalizing wheel stats with
  | nil => rfl
  | cons params rest ih =>
      unfold verdicts TimeWheelConsumer.admitReady
      split
      · exact congrArg (params :: ·) (ih _ _)
      · rfl

/-- Consumed entries lie before the admission bound. -/
theorem verdicts_before {admitBefore : Nat} {items : List (FofParams R)}
    {wheel : Wheel (FofParams R)} {verdict : Verdict R}
    (member : verdict ∈ verdicts admitBefore items wheel) :
    verdict.1.startSample < admitBefore := by
  induction items generalizing wheel with
  | nil => cases member
  | cons params rest ih =>
      unfold verdicts at member
      split at member
      · rename_i ready
        rcases List.mem_cons.mp member with first | later
        · rw [first]
          exact ready
        · exact ih later
      · cases member

/-- A consumed entry is late only behind the clock, and early only beyond the
horizon, at which the loop started. -/
theorem verdicts_reason {admitBefore : Nat} {items : List (FofParams R)}
    {wheel : Wheel (FofParams R)} {verdict : Verdict R}
    (member : verdict ∈ verdicts admitBefore items wheel) :
    (verdict.reason? = some .tooLate → verdict.1.startSample < wheel.wheelTime) ∧
      (verdict.reason? = some .tooEarly →
        wheel.wheelTime + wheel.horizon ≤ verdict.1.startSample) := by
  induction items generalizing wheel with
  | nil => cases member
  | cons params rest ih =>
      unfold verdicts at member
      split at member
      · rcases List.mem_cons.mp member with first | later
        · rw [first, verdictOf]
          rcases wheel.schedule_cases params params.startSample with
            ⟨equal, late⟩ | ⟨equal, early⟩ | equal | ⟨_, _, equal⟩ <;> rw [equal]
          · exact ⟨fun _ => late, nofun⟩
          · exact ⟨nofun, fun _ => early⟩
          · exact ⟨nofun, nofun⟩
          · exact ⟨nofun, nofun⟩
        · have rest := ih later
          rwa [Wheel.schedule_wheelTime, Wheel.schedule_horizon] at rest
      · cases member

/-- An accepted entry is not behind the clock at which the loop started.  The clock does not
move while the loop runs. -/
theorem verdicts_reached {admitBefore : Nat} {items : List (FofParams R)}
    {wheel : Wheel (FofParams R)} {verdict : Verdict R}
    (member : verdict ∈ verdicts admitBefore items wheel) (taken : verdict.offset?.isSome) :
    wheel.wheelTime ≤ verdict.1.startSample := by
  induction items generalizing wheel with
  | nil => cases member
  | cons params rest ih =>
      unfold verdicts at member
      split at member
      · rcases List.mem_cons.mp member with first | later
        · by_contra behind
          rw [first] at taken behind
          have late : params.startSample < wheel.wheelTime := Nat.lt_of_not_le behind
          rw [verdictOf, Wheel.schedule_of_late late] at taken
          cases taken
        · have rest := ih later
          rwa [Wheel.schedule_wheelTime] at rest
      · cases member

/-- An entry behind the clock at which the loop started is rejected as late. -/
theorem verdicts_late {admitBefore : Nat} {items : List (FofParams R)}
    {wheel : Wheel (FofParams R)} {verdict : Verdict R}
    (member : verdict ∈ verdicts admitBefore items wheel)
    (behind : verdict.1.startSample < wheel.wheelTime) : verdict.reason? = some .tooLate := by
  induction items generalizing wheel with
  | nil => cases member
  | cons params rest ih =>
      unfold verdicts at member
      split at member
      · rcases List.mem_cons.mp member with first | later
        · have late : params.startSample < wheel.wheelTime := by rwa [first] at behind
          rw [first, verdictOf, Wheel.schedule_of_late late]
          rfl
        · apply ih later
          rwa [Wheel.schedule_wheelTime]
      · cases member

/-- The admission bound keeps early entries out of the wheel's sight.  They stay in the ring
until the horizon has reached them. -/
theorem verdicts_not_tooEarly (items : List (FofParams R)) (wheel : Wheel (FofParams R)) :
    rejectedFor .tooEarly (verdicts (wheel.wheelTime + wheel.horizon) items wheel) = [] := by
  unfold rejectedFor consumed
  rw [List.map_eq_nil_iff, List.filter_eq_nil_iff]
  intro verdict member
  rw [decide_eq_true_eq]
  intro early
  have beyond := (verdicts_reason member).2 early
  have before := verdicts_before member
  omega

/-- The loop stops only at an entry beyond the bound. -/
theorem admitReady_head {admitBefore : Nat} {items : List (FofParams R)}
    {wheel : Wheel (FofParams R)} {stats : Option QueueStats} {params : FofParams R}
    {rest : List (FofParams R)}
    (left : (TimeWheelConsumer.admitReady admitBefore items wheel stats).1 = params :: rest) :
    admitBefore ≤ params.startSample := by
  induction items generalizing wheel stats with
  | nil => cases left
  | cons head tail ih =>
      unfold TimeWheelConsumer.admitReady at left
      split at left
      · exact ih left
      · rename_i notReady
        cases left
        exact Nat.le_of_not_lt notReady

/-- On a sorted ring everything that is left lies beyond the bound.  On an unsorted ring an
early entry may hide later ones that are due. -/
theorem admitReady_beyond {admitBefore : Nat} {items : List (FofParams R)}
    {wheel : Wheel (FofParams R)} {stats : Option QueueStats}
    (sorted : items.Pairwise (fun x y => x.startSample ≤ y.startSample)) :
    ∀ params ∈ (TimeWheelConsumer.admitReady admitBefore items wheel stats).1,
      admitBefore ≤ params.startSample := by
  intro params member
  cases left : (TimeWheelConsumer.admitReady admitBefore items wheel stats).1 with
  | nil =>
      rw [left] at member
      cases member
  | cons head rest =>
      have beyond := admitReady_head left
      have suffix := verdicts_consumed admitBefore items wheel stats
      rw [← suffix, left] at sorted
      have order := List.pairwise_cons.mp (List.pairwise_append.mp sorted).2.1
      rw [left] at member
      rcases List.mem_cons.mp member with first | later
      · rw [first]
        exact beyond
      · exact Nat.le_trans beyond (order.1 params later)

/-- The counters record the verdicts, one after the other. -/
theorem admitReady_stats (admitBefore : Nat) (items : List (FofParams R))
    (wheel : Wheel (FofParams R)) (stats : Option QueueStats) :
    (TimeWheelConsumer.admitReady admitBefore items wheel stats).2.2 =
      stats.map (fun sink => (verdicts admitBefore items wheel).foldl
        (fun sink verdict => sink.record verdict.2) sink) := by
  induction items generalizing wheel stats with
  | nil => exact Option.map_id'.symm
  | cons params rest ih =>
      unfold TimeWheelConsumer.admitReady verdicts
      split
      · rw [ih, TimeWheelConsumer.admitEntry, Option.map_map]
        rfl
      · exact Option.map_id'.symm

theorem Counts.recordAll {stats : QueueStats} {log : List (Verdict R)} (counts : Counts stats log)
    (later : List (Verdict R)) :
    Counts (later.foldl (fun sink verdict => sink.record verdict.2) stats) (log ++ later) := by
  induction later generalizing stats log with
  | nil => rwa [List.append_nil]
  | cons verdict later ih =>
      have next := ih (counts.record verdict)
      rwa [List.append_assoc] at next

theorem admitReady_slotIndex (admitBefore : Nat) (items : List (FofParams R))
    (wheel : Wheel (FofParams R)) (stats : Option QueueStats) :
    (TimeWheelConsumer.admitReady admitBefore items wheel stats).2.1.slotIndex =
      wheel.slotIndex := by
  induction items generalizing wheel stats with
  | nil => rfl
  | cons params rest ih =>
      unfold TimeWheelConsumer.admitReady
      split
      · exact (ih _ _).trans (wheel.schedule_slotIndex params _)
      · rfl

theorem WheelAccounts.admitReady {g : Geometry} {wheel : Wheel (FofParams R)}
    {log : List (Verdict R)} {fired : List (FofParams R)}
    (accounts : WheelAccounts g wheel log fired) (admitBefore : Nat)
    (items : List (FofParams R)) (stats : Option QueueStats) :
    WheelAccounts g (TimeWheelConsumer.admitReady admitBefore items wheel stats).2.1
      (log ++ verdicts admitBefore items wheel) fired := by
  induction items generalizing wheel log stats with
  | nil => simpa [TimeWheelConsumer.admitReady, verdicts] using accounts
  | cons params rest ih =>
      unfold TimeWheelConsumer.admitReady verdicts
      split
      · have next := ih (accounts.schedule params) (TimeWheelConsumer.admitEntry wheel stats params).2
        rwa [List.append_assoc] at next
      · simpa using accounts

/-- A slot is full only when as many entries of it have been accepted. -/
theorem WheelAccounts.schedule_full {g : Geometry} {wheel : Wheel (FofParams R)}
    {log : List (Verdict R)} {fired : List (FofParams R)}
    (accounts : WheelAccounts g wheel log fired) {params : FofParams R}
    (full : (verdictOf wheel params).reason? = some .slotFull) :
    g.capacity ≤ (keyClass (slotNumber g) (slotNumber g params) (accepted log)).length := by
  rcases accounts.queue with ⟨queue, rep, history⟩
  have answer := (rep.schedule params params.startSample).1
  rw [accounts.geometry] at answer
  rw [verdictOf, answer] at full
  rcases DeadlineQueue.schedule_cases g queue params params.startSample with
    ⟨equal, _⟩ | ⟨equal, _⟩ | ⟨_, _, _, packed⟩ | ⟨equal, _⟩
  · rw [equal] at full
    cases full
  · rw [equal] at full
    cases full
  · rw [history.pending_eq, keyClass_filter, keyClass_map] at packed
    apply packed.trans
    rw [← List.length_map (f := toEntry)]
    exact List.length_filter_le _ _
  · rw [equal] at full
    cases full

/-- While no slot is asked to hold more than its capacity, none is found full.  The entries
that count are those that were consumed before and those that wait in the ring. -/
theorem WheelAccounts.verdicts_room {g : Geometry} {wheel : Wheel (FofParams R)}
    {log : List (Verdict R)} {fired : List (FofParams R)}
    (accounts : WheelAccounts g wheel log fired) (admitBefore : Nat) (items : List (FofParams R))
    (sparse : ∀ k, (keyClass (slotNumber g) k (consumed log ++ items)).length ≤ g.capacity) :
    ∀ verdict ∈ verdicts admitBefore items wheel, verdict.reason? ≠ some .slotFull := by
  induction items generalizing wheel log with
  | nil => exact nofun
  | cons params rest ih =>
      intro verdict member
      unfold verdicts at member
      split at member
      · rcases List.mem_cons.mp member with first | later
        · intro full
          rw [first] at full
          have packed := accounts.schedule_full full
          have room := sparse (slotNumber g params)
          have fewer := ((accepted_sublist log).filter
            (fun other => decide (slotNumber g other = slotNumber g params))).length_le
          rw [keyClass_append, List.length_append] at room
          have listed : 0 < (keyClass (slotNumber g) (slotNumber g params)
              (params :: rest)).length :=
            List.length_pos_of_mem (mem_keyClass.mpr ⟨List.mem_cons_self, rfl⟩)
          change (keyClass _ _ _).length ≤ (keyClass _ _ _).length at fewer
          omega
        · apply ih (accounts.schedule params) _ verdict later
          intro k
          rw [consumed_append, List.append_assoc]
          exact sparse k
      · cases member

/-- Entries that are not behind the clock and find room are all accepted. -/
theorem WheelAccounts.verdicts_accepted {g : Geometry} {wheel : Wheel (FofParams R)}
    {log : List (Verdict R)} {fired : List (FofParams R)}
    (accounts : WheelAccounts g wheel log fired) {items : List (FofParams R)}
    (reached : ∀ params ∈ items, wheel.wheelTime ≤ params.startSample)
    (sparse : ∀ k, (keyClass (slotNumber g) k (consumed log ++ items)).length ≤ g.capacity) :
    rejected (verdicts (wheel.wheelTime + wheel.horizon) items wheel) = [] := by
  rw [rejected_eq_nil]
  intro verdict member
  have listed : verdict.1 ∈ items := by
    rw [← verdicts_consumed (wheel.wheelTime + wheel.horizon) items wheel none]
    exact List.mem_append_left _ (List.mem_map_of_mem member)
  have begun := reached _ listed
  have before := verdicts_before member
  have reasons := verdicts_reason member
  have notFull := accounts.verdicts_room _ _ sparse verdict member
  cases why : verdict.reason? with
  | none => rfl
  | some reason =>
      cases reason with
      | tooLate => exact absurd (reasons.1 why) (Nat.not_lt_of_le begun)
      | tooEarly => exact absurd before (Nat.not_lt_of_le (reasons.2 why))
      | slotFull => exact absurd why notFull

/-! ## One block -/

namespace TimeWheelConsumer

/-- The verdicts of one `drainBlockSafe`.  The bound is taken from the clock before the wheel
advances. -/
def blockVerdicts (self : TimeWheelConsumer R) : List (Verdict R) :=
  verdicts (self.wheel.wheelTime + self.wheel.horizon) self.rx.items self.wheel

theorem drainBlockSafe_ring (self : TimeWheelConsumer R) (blockStart blockSize : Nat)
    (out : List (FofParams R)) :
    consumed self.blockVerdicts ++ (self.drainBlockSafe blockStart blockSize out).1.rx.items =
      self.rx.items :=
  verdicts_consumed _ _ _ _

theorem drainBlockSafe_accounts {self : TimeWheelConsumer R} {g : Geometry}
    {log : List (Verdict R)} {fired : List (FofParams R)}
    (accounts : WheelAccounts g self.wheel log fired) (blockStart blockSize : Nat) :
    WheelAccounts g (self.drainBlockSafe blockStart blockSize fired).1.wheel
      (log ++ self.blockVerdicts) (self.drainBlockSafe blockStart blockSize fired).2 :=
  (accounts.admitReady _ _ _).advance (blockStart + blockSize)

/-- The counters record the verdicts of the block, the occupancy its end. -/
theorem drainBlockSafe_stats (self : TimeWheelConsumer R) (blockStart blockSize : Nat)
    (out : List (FofParams R)) :
    (self.drainBlockSafe blockStart blockSize out).1.stats =
      self.stats.map (fun sink =>
        { self.blockVerdicts.foldl (fun sink verdict => sink.record verdict.2) sink with
          queueSize := (self.drainBlockSafe blockStart blockSize out).1.wheel.len }) := by
  change Option.map _ (admitReady _ _ _ _).2.2 = _
  rw [admitReady_stats, Option.map_map]
  rfl

theorem drainBlockSafe_slotIndex {self : TimeWheelConsumer R} {g : Geometry}
    {log : List (Verdict R)} {fired : List (FofParams R)}
    (accounts : WheelAccounts g self.wheel log fired) (blockStart blockSize : Nat)
    (out : List (FofParams R)) :
    (self.drainBlockSafe blockStart blockSize out).1.wheel.slotIndex =
      max self.wheel.slotIndex ((blockStart + blockSize) / g.duration) := by
  have admitted := accounts.admitReady (self.wheel.wheelTime + self.wheel.horizon)
    self.rx.items self.stats
  rcases admitted.queue with ⟨queue, rep, _⟩
  have next := (rep.advance (blockStart + blockSize) out).2.2.cur
  rw [DeadlineQueue.advance_cur, ← rep.cur, admitReady_slotIndex, admitted.geometry] at next
  exact next

/-- What a block fires: the accepted entries of the slots that elapse in it.  They come out by
slot, and inside a slot as they were accepted. -/
theorem drainBlockSafe_fires {self : TimeWheelConsumer R} {g : Geometry}
    {log : List (Verdict R)} {fired : List (FofParams R)}
    (accounts : WheelAccounts g self.wheel log fired) (blockStart blockSize : Nat) :
    (self.drainBlockSafe blockStart blockSize []).2 =
      orderedFrom (slotNumber g) self.wheel.slotIndex
        ((self.drainBlockSafe blockStart blockSize []).1.wheel.slotIndex - self.wheel.slotIndex)
        (accepted (log ++ self.blockVerdicts)) := by
  have before := (accounts.admitReady (self.wheel.wheelTime + self.wheel.horizon)
    self.rx.items self.stats).fired_eq
  rw [admitReady_slotIndex] at before
  have after := (drainBlockSafe_accounts accounts blockStart blockSize).fired_eq
  have later := drainBlockSafe_slotIndex accounts blockStart blockSize []
  rw [drainBlockSafe_out] at after
  have forward : self.wheel.slotIndex ≤
      (self.drainBlockSafe blockStart blockSize []).1.wheel.slotIndex := by
    rw [later]
    exact Nat.le_max_left _ _
  rw [orderedBelow_split forward, blockVerdicts, ← before] at after
  exact List.append_cancel_left after

end TimeWheelConsumer

end Queue
end Rfofs
