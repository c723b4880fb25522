import Rfofs.Queue.Accounts

namespace Rfofs
namespace Queue

open Foundation
open Grain

/-!
# Whole runs of a queue

A run is a list of pushes and blocks in any order and with any arguments.  Pushes
need not be sorted, blocks need not be contiguous, and the clock may jump over
several rotations or go backward.  The ledger is written by an observer; it is
not part of the consumer and never influences it.
-/

variable {R : Type*}

/-- What is done to a queue: requests are pushed, and blocks are drained with any clock. -/
inductive QueueCall (R : Type*) where
  | push (params : FofParams R)
  | drain (blockStart blockSize : Nat)

/-- What an observer of a run has written down: the pushed requests, the verdicts in the order
of their admission, and the fired requests. -/
structure Ledger (R : Type*) where
  pushed : List (FofParams R)
  log : List (Verdict R)
  fired : List (FofParams R)

def Ledger.empty : Ledger R := ⟨[], [], []⟩

/-- One call, with its entries in the ledger. -/
def observe (state : TimeWheelConsumer R × Ledger R) :
    QueueCall R → TimeWheelConsumer R × Ledger R
  | .push params =>
      match state.1.push params with
      | .ok next => (next, { state.2 with pushed := state.2.pushed ++ [params] })
      | .error _ => state
  | .drain blockStart blockSize =>
      let drained := state.1.drainBlockSafe blockStart blockSize state.2.fired
      (drained.1, { state.2 with log := state.2.log ++ state.1.blockVerdicts, fired := drained.2 })

/-- The ledger determines the ring, the wheel and the counters.  Nothing in the state depends
on the calls otherwise. -/
structure Balanced (g : Geometry) (consumer : TimeWheelConsumer R) (ledger : Ledger R) :
    Prop where
  wheel : WheelAccounts g consumer.wheel ledger.log ledger.fired
  ring : consumed ledger.log ++ consumer.rx.items = ledger.pushed
  notEarly : rejectedFor .tooEarly ledger.log = []
  counts : ∀ stats, consumer.stats = some stats →
    Counts stats ledger.log ∧ stats.queueSize = consumer.wheel.len

theorem timeWheel_balanced (ingressCapacity : Nat) (g : Geometry) :
    Balanced g (timeWheel ingressCapacity g.slots g.duration g.capacity g.slots_pos
      g.duration_pos : TimeWheelConsumer R) Ledger.empty where
  wheel := new_wheelAccounts g
  ring := rfl
  notEarly := rfl
  counts := nofun

theorem attachStats_balanced (ingressCapacity : Nat) (g : Geometry) :
    Balanced g ((timeWheel ingressCapacity g.slots g.duration g.capacity g.slots_pos
      g.duration_pos : TimeWheelConsumer R).attachStats QueueStats.default) Ledger.empty where
  wheel := new_wheelAccounts g
  ring := rfl
  notEarly := rfl
  counts := by
    rintro stats ⟨rfl⟩
    refine ⟨default_counts, ?_⟩
    simp [timeWheel, TimeWheelConsumer.attachStats, Wheel.new, Wheel.len, QueueStats.default]

namespace Balanced

variable {g : Geometry} {consumer : TimeWheelConsumer R} {ledger : Ledger R}

/-- A pushed request goes to the end of the ring, and nothing else moves. -/
theorem push (balanced : Balanced g consumer ledger) {next : TimeWheelConsumer R}
    {params : FofParams R} (pushed : consumer.push params = .ok next) :
    Balanced g next { ledger with pushed := ledger.pushed ++ [params] } := by
  rcases consumer.push_cases params with ⟨rx, equal, items, _⟩ | ⟨equal, _⟩
  · rw [equal] at pushed
    cases pushed
    refine ⟨balanced.wheel, ?_, balanced.notEarly, balanced.counts⟩
    change consumed ledger.log ++ rx.items = ledger.pushed ++ [params]
    rw [items, ← List.append_assoc, balanced.ring]
  · rw [equal] at pushed
    cases pushed

/-- A block moves requests from the ring to the log and from the wheel to the fired list. -/
theorem drain (balanced : Balanced g consumer ledger) (blockStart blockSize : Nat) :
    Balanced g (consumer.drainBlockSafe blockStart blockSize ledger.fired).1
      { ledger with
        log := ledger.log ++ consumer.blockVerdicts
        fired := (consumer.drainBlockSafe blockStart blockSize ledger.fired).2 } := by
  refine ⟨TimeWheelConsumer.drainBlockSafe_accounts balanced.wheel blockStart blockSize,
    ?_, ?_, ?_⟩
  · rw [consumed_append, List.append_assoc, TimeWheelConsumer.drainBlockSafe_ring]
    exact balanced.ring
  · rw [rejectedFor_append, balanced.notEarly, List.nil_append]
    exact verdicts_not_tooEarly _ _
  · intro stats attached
    rw [TimeWheelConsumer.drainBlockSafe_stats] at attached
    rcases Option.map_eq_some_iff.mp attached with ⟨old, sink, rfl⟩
    exact ⟨((balanced.counts old sink).1.recordAll _).withQueueSize _, rfl⟩

theorem observe (balanced : Balanced g consumer ledger) (call : QueueCall R) :
    Balanced g (Queue.observe (consumer, ledger) call).1
      (Queue.observe (consumer, ledger) call).2 := by
  cases call with
  | push params =>
      simp only [Queue.observe]
      split
      · rename_i next pushed
        exact balanced.push pushed
      · exact balanced
  | drain blockStart blockSize => exact balanced.drain blockStart blockSize

/-- By induction on the calls, the ledger accounts for the whole run. -/
theorem run (balanced : Balanced g consumer ledger) (calls : List (QueueCall R)) :
    Balanced g (calls.foldl Queue.observe (consumer, ledger)).1
      (calls.foldl Queue.observe (consumer, ledger)).2 := by
  induction calls generalizing consumer ledger with
  | nil => exact balanced
  | cons call calls ih => exact ih (balanced.observe call)

/-- A ring with nothing behind the clock and no crowded slot is consumed without a
rejection. -/
theorem blockVerdicts_accepted (balanced : Balanced g consumer ledger)
    (ahead : ∀ params ∈ consumer.rx.items, consumer.wheel.wheelTime ≤ params.startSample)
    (sparse : ∀ k, (keyClass (slotNumber g) k ledger.pushed).length ≤ g.capacity) :
    rejected consumer.blockVerdicts = [] :=
  balanced.wheel.verdicts_accepted ahead (by rwa [balanced.ring])

/-- What was rejected as late stays behind the clock.  The clock only goes forward, whatever
block starts the drains are given. -/
theorem drain_late (balanced : Balanced g consumer ledger) (blockStart blockSize : Nat)
    (late : ∀ params ∈ rejectedFor .tooLate ledger.log,
      params.startSample < consumer.wheel.wheelTime) :
    ∀ params ∈ rejectedFor .tooLate (ledger.log ++ consumer.blockVerdicts),
      params.startSample <
        (consumer.drainBlockSafe blockStart blockSize ledger.fired).1.wheel.wheelTime := by
  intro params member
  have next := balanced.drain blockStart blockSize
  have slotIndex := TimeWheelConsumer.drainBlockSafe_slotIndex balanced.wheel blockStart blockSize
    ledger.fired
  have forward : consumer.wheel.wheelTime ≤
      (consumer.drainBlockSafe blockStart blockSize ledger.fired).1.wheel.wheelTime := by
    rw [balanced.wheel.wheelTime_eq, next.wheel.wheelTime_eq, slotIndex]
    exact Nat.mul_le_mul_right _ (Nat.le_max_left _ _)
  apply Nat.lt_of_lt_of_le _ forward
  rw [rejectedFor_append] at member
  rcases List.mem_append.mp member with old | new
  · exact late params old
  · rcases mem_rejectedFor.mp new with ⟨verdict, listed, reason, same⟩
    rw [← same]
    exact (verdicts_reason listed).1 reason

/-- Every pushed entry is in exactly one place: in the ring, in a slot, among the fired or
among the rejected entries. -/
theorem pushed_perm (balanced : Balanced g consumer ledger) :
    (consumer.rx.items ++ (consumer.wheel.slots.flatten ++
      (ledger.fired ++ rejected ledger.log))).Perm ledger.pushed := by
  have inner : (consumer.wheel.slots.flatten ++ (ledger.fired ++ rejected ledger.log)).Perm
      (consumed ledger.log) := by
    apply List.Perm.trans _ balanced.wheel.consumed_perm
    rw [← List.append_assoc, ← List.append_assoc]
    exact List.perm_append_comm.append_right _
  rw [← balanced.ring]
  exact List.perm_append_comm.trans (inner.append_right _)

/-- Every consumed entry is counted exactly once, under its slot offset or under the reason of
its rejection. -/
theorem consumed_length (balanced : Balanced g consumer ledger) {stats : QueueStats}
    (attached : consumer.stats = some stats) :
    (consumed ledger.log).length = stats.admitted + stats.tooLate + stats.slotFull := by
  have counts := (balanced.counts stats attached).1
  have whole := (accepted_append_rejected_perm ledger.log).length_eq
  have refused := (rejected_perm ledger.log).length_eq
  rw [List.length_append] at whole
  rw [List.length_append, List.length_append, balanced.notEarly, List.length_nil] at refused
  rw [counts.admitted, counts.tooLate, counts.slotFull]
  omega

/-- The occupancy is what was admitted and has not been fired.  It is stated as a sum, so that
it says the same as the program's count after every block. -/
theorem queueSize_add_fired (balanced : Balanced g consumer ledger) {stats : QueueStats}
    (attached : consumer.stats = some stats) :
    stats.queueSize + ledger.fired.length = stats.admitted := by
  have counts := balanced.counts stats attached
  rw [counts.2, counts.1.admitted]
  exact balanced.wheel.len_add_fired

end Balanced

/-- A sink stays attached. -/
theorem observe_stats_isSome (state : TimeWheelConsumer R × Ledger R) (call : QueueCall R) :
    (observe state call).1.stats.isSome = state.1.stats.isSome := by
  cases call with
  | push params =>
      simp only [observe, TimeWheelConsumer.push]
      cases state.1.rx.push params <;> rfl
  | drain blockStart blockSize =>
      simp only [observe, TimeWheelConsumer.drainBlockSafe_stats, Option.isSome_map]

theorem run_stats_isSome (calls : List (QueueCall R)) (state : TimeWheelConsumer R × Ledger R) :
    (calls.foldl observe state).1.stats.isSome = state.1.stats.isSome := by
  induction calls generalizing state with
  | nil => rfl
  | cons call calls ih => exact (ih _).trans (observe_stats_isSome state call)

/-- Order and accounting of a run of any calls: what was fired is sorted by slot
and follows the order of the pushes inside a slot, and follows it throughout when
the pushes are sorted; every pushed entry is in the ring, in the wheel, fired or
rejected; every consumed entry is counted once and none as too early; and no slot
is overfull. -/
theorem run_order_and_accounts (ingressCapacity : Nat) (g : Geometry)
    (calls : List (QueueCall R)) :
    let start : TimeWheelConsumer R :=
      (timeWheel ingressCapacity g.slots g.duration g.capacity g.slots_pos
        g.duration_pos).attachStats QueueStats.default
    let consumer := (calls.foldl observe (start, Ledger.empty)).1
    let ledger := (calls.foldl observe (start, Ledger.empty)).2
    (ledger.fired.Pairwise (fun x y => slotNumber g x ≤ slotNumber g y) ∧
      (∀ k, (keyClass (slotNumber g) k ledger.fired).Sublist
        (keyClass (slotNumber g) k ledger.pushed)) ∧
      (ledger.pushed.Pairwise (fun x y => x.startSample ≤ y.startSample) →
        ledger.fired.Sublist ledger.pushed)) ∧
    (consumer.rx.items ++ (consumer.wheel.slots.flatten ++
      (ledger.fired ++ rejected ledger.log))).Perm ledger.pushed ∧
    (∃ stats, consumer.stats = some stats ∧
      ledger.pushed = consumed ledger.log ++ consumer.rx.items ∧
      (consumed ledger.log).length = stats.admitted + stats.tooLate + stats.slotFull ∧
      stats.tooEarly = 0 ∧
      stats.queueSize + ledger.fired.length = stats.admitted ∧
      stats.queueSize = consumer.wheel.len) ∧
    ∀ slot ∈ consumer.wheel.slots, slot.length ≤ g.capacity := by
  intro start consumer ledger
  have balanced : Balanced g consumer ledger :=
    (attachStats_balanced ingressCapacity g).run calls
  have front : (consumed ledger.log).Sublist ledger.pushed := by
    rw [← balanced.ring]
    exact List.sublist_append_left _ _
  refine ⟨⟨balanced.wheel.fired_pairwise, ?_, ?_⟩, balanced.pushed_perm, ?_,
    fun slot member => balanced.wheel.slot_length_le member⟩
  · intro k
    exact (balanced.wheel.keyClass_fired_sublist k).trans (front.filter _)
  · intro sorted
    apply (balanced.wheel.fired_sublist _).trans front
    exact (sorted.sublist front).imp (fun ordered => Nat.div_le_div_right ordered)
  · have some_stats : consumer.stats.isSome := run_stats_isSome calls (start, Ledger.empty)
    rcases Option.isSome_iff_exists.mp some_stats with ⟨stats, attached⟩
    have early := (balanced.counts stats attached).1.tooEarly
    rw [balanced.notEarly, List.length_nil] at early
    exact ⟨stats, attached, balanced.ring.symm, balanced.consumed_length attached, early,
      balanced.queueSize_add_fired attached, (balanced.counts stats attached).2⟩

/-! ## Absence of overflow -/

namespace TimeWheelConsumer

/-- The admission loop with every 64-bit operation checked.  It ends where the first checked
`schedule` would panic. -/
def admitReadyChecked (admitBefore : Nat) :
    List (FofParams R) → Wheel (FofParams R) → Option QueueStats →
      Option (List (FofParams R) × Wheel (FofParams R) × Option QueueStats)
  | [], wheel, stats => some ([], wheel, stats)
  | params :: rest, wheel, stats =>
      if params.startSample < admitBefore then
        (wheel.scheduleChecked params params.startSample).bind (fun result =>
          admitReadyChecked admitBefore rest result.1
            (stats.map (fun sink => sink.record result.2)))
      else
        some (params :: rest, wheel, stats)

/-- A block with every 64-bit operation checked: the rest of the ring, the wheel,
the counters, and `out`. -/
def drainBlockSafeChecked (self : TimeWheelConsumer R) (blockStart blockSize : Nat)
    (out : List (FofParams R)) :
    Option (List (FofParams R) × Wheel (FofParams R) × Option QueueStats × List (FofParams R)) :=
  (checkedMul 64 self.wheel.slotIndex self.wheel.slotDuration).bind (fun now =>
    (checkedMul 64 self.wheel.nSlots self.wheel.slotDuration).bind (fun span =>
      (checkedAdd 64 now span).bind (fun admitBefore =>
        (admitReadyChecked admitBefore self.rx.items self.wheel self.stats).bind (fun admitted =>
          (checkedAdd 64 blockStart blockSize).bind (fun blockEnd =>
            (admitted.2.1.advanceChecked blockEnd out).map (fun advanced =>
              (admitted.1, advanced.1,
                admitted.2.2.map (fun sink => { sink with queueSize := advanced.1.len }),
                advanced.2)))))))

theorem admitReadyChecked_eq (admitBefore : Nat) (items : List (FofParams R))
    {wheel : Wheel (FofParams R)} (stats : Option QueueStats)
    (fits : wheel.wheelTime + wheel.horizon < 2 ^ 64) :
    admitReadyChecked admitBefore items wheel stats =
      some (admitReady admitBefore items wheel stats) := by
  induction items generalizing wheel stats with
  | nil => rfl
  | cons params rest ih =>
      unfold admitReadyChecked admitReady
      split
      · rw [Wheel.scheduleChecked_eq params _ fits, Option.bind_some]
        exact ih _ (by rwa [Wheel.schedule_wheelTime, Wheel.schedule_horizon])
      · rfl

/-- A block overflows nowhere while the clock and the horizon together, and the end
of the block, are 64-bit words. -/
theorem drainBlockSafeChecked_eq (self : TimeWheelConsumer R) {blockStart blockSize : Nat}
    (out : List (FofParams R)) (fits : self.wheel.wheelTime + self.wheel.horizon < 2 ^ 64)
    (ends : blockStart + blockSize < 2 ^ 64) :
    let drained := self.drainBlockSafe blockStart blockSize out
    self.drainBlockSafeChecked blockStart blockSize out =
      some (drained.1.rx.items, drained.1.wheel, drained.1.stats, drained.2) := by
  have time : checkedMul 64 self.wheel.slotIndex self.wheel.slotDuration =
      some self.wheel.wheelTime :=
    checkedMul_eq_some (by unfold Wheel.wheelTime at fits; omega)
  have span : checkedMul 64 self.wheel.nSlots self.wheel.slotDuration =
      some self.wheel.horizon :=
    checkedMul_eq_some (by unfold Wheel.horizon at fits; omega)
  unfold drainBlockSafeChecked
  rw [time, Option.bind_some, span, Option.bind_some, checkedAdd_eq_some fits, Option.bind_some,
    admitReadyChecked_eq _ _ _ fits, Option.bind_some, checkedAdd_eq_some ends, Option.bind_some,
    Wheel.advanceChecked_eq out ends]
  rfl

end TimeWheelConsumer

end Queue
end Rfofs
