import Rfofs.Foundation.Transition
import Rfofs.Queue.Ledger

namespace Rfofs
namespace Queue

open Foundation
open Grain

/-!
# Deferral is not loss

The admission bound of a block is taken before the clock moves, and the clock may
then move by up to a whole horizon.  An entry that is left in the ring is behind
an entry at or beyond the bound.  Since the producer submits in order, the entry
itself is at or beyond the bound, and the clock ends a block at most there: an
entry that was not late before the block is not late after it.

The producer's discipline is the guard of the system: submissions in order, each
not behind the clock of the wheel, and blocks that follow one another and are no
longer than the horizon.
-/

variable {R : Type*}

/-- A consumer with its ledger, and the end of the last block.  The audio callback keeps this
clock and hands it to every drain. -/
structure BlockClock (R : Type*) where
  consumer : TimeWheelConsumer R
  ledger : Ledger R
  clock : Nat

/-- The two calls of the run: a push by the producer, a block of some size by the callback. -/
inductive BlockCall (R : Type*) where
  | push (params : FofParams R)
  | drain (blockSize : Nat)

namespace BlockClock

def start (ingressCapacity : Nat) (g : Geometry) : BlockClock R where
  consumer := timeWheel ingressCapacity g.slots g.duration g.capacity g.slots_pos g.duration_pos
  ledger := Ledger.empty
  clock := 0

def startWithStats (ingressCapacity : Nat) (g : Geometry) : BlockClock R :=
  let fresh : BlockClock R := start ingressCapacity g
  { fresh with consumer := fresh.consumer.attachStats QueueStats.default }

/-- Each block begins where the last one ended.  A push at a full ring changes nothing. -/
def call (state : BlockClock R) : BlockCall R → BlockClock R
  | .push params =>
      let next := observe (state.consumer, state.ledger) (.push params)
      ⟨next.1, next.2, state.clock⟩
  | .drain blockSize =>
      let next := observe (state.consumer, state.ledger) (.drain state.clock blockSize)
      ⟨next.1, next.2, state.clock + blockSize⟩

/-- What a block adds to the ledger of the queue. -/
theorem call_drain (state : BlockClock R) (blockSize : Nat) :
    state.call (.drain blockSize) =
      ⟨(state.consumer.drainBlockSafe state.clock blockSize []).1,
        { state.ledger with
          log := state.ledger.log ++ state.consumer.blockVerdicts
          fired := state.ledger.fired ++
            (state.consumer.drainBlockSafe state.clock blockSize []).2 },
        state.clock + blockSize⟩ := by
  simp only [call, observe]
  rw [state.consumer.drainBlockSafe_out state.clock blockSize state.ledger.fired]

/-- What the producer and the caller of the blocks promise.  Requests are pushed in the order
of their onsets and not behind the wheel, and a block is neither empty nor longer than the
horizon. -/
def Disciplined (g : Geometry) (state : BlockClock R) : BlockCall R → Prop
  | .push params =>
      (∀ earlier ∈ state.ledger.pushed, earlier.startSample ≤ params.startSample) ∧
        state.consumer.wheel.wheelTime ≤ params.startSample
  | .drain blockSize => 1 ≤ blockSize ∧ blockSize ≤ g.slots * g.duration

end BlockClock

def blockSystem (ingressCapacity : Nat) (g : Geometry) : System (BlockClock R) (BlockCall R) where
  init state := state = BlockClock.start ingressCapacity g ∨
    state = BlockClock.startWithStats ingressCapacity g
  step state call next := next = state.call call

/-- Nothing that waits is behind the wheel, and nothing was rejected as late.  The slot of the
read head is the slot of the clock. -/
structure Deferred (g : Geometry) (state : BlockClock R) : Prop where
  balanced : Balanced g state.consumer state.ledger
  clock : state.consumer.wheel.slotIndex = state.clock / g.duration
  sorted : state.ledger.pushed.Pairwise (fun x y => x.startSample ≤ y.startSample)
  ahead : ∀ params ∈ state.consumer.rx.items,
    state.consumer.wheel.wheelTime ≤ params.startSample
  notLate : rejectedFor .tooLate state.ledger.log = []

namespace Deferred

variable {g : Geometry} {state : BlockClock R}

theorem start (ingressCapacity : Nat) (g : Geometry) :
    Deferred g (BlockClock.start ingressCapacity g : BlockClock R) where
  balanced := timeWheel_balanced ingressCapacity g
  clock := (Nat.zero_div g.duration).symm
  sorted := List.Pairwise.nil
  ahead := by simp [BlockClock.start, timeWheel]
  notLate := rfl

theorem startWithStats (ingressCapacity : Nat) (g : Geometry) :
    Deferred g (BlockClock.startWithStats ingressCapacity g : BlockClock R) where
  balanced := attachStats_balanced ingressCapacity g
  clock := (Nat.zero_div g.duration).symm
  sorted := List.Pairwise.nil
  ahead := by simp [BlockClock.startWithStats, BlockClock.start, timeWheel,
    TimeWheelConsumer.attachStats]
  notLate := rfl

theorem push (deferred : Deferred g state) {params : FofParams R}
    (disciplined : state.Disciplined g (.push params)) :
    Deferred g (state.call (.push params)) := by
  rcases state.consumer.push_cases params with ⟨rx, equal, items, _⟩ | ⟨equal, _⟩
  · have taken : state.call (.push params) =
        ⟨{ state.consumer with rx := rx },
          { state.ledger with pushed := state.ledger.pushed ++ [params] }, state.clock⟩ := by
      simp only [BlockClock.call, observe, equal]
    rw [taken]
    refine ⟨deferred.balanced.push equal, deferred.clock, ?_, ?_, deferred.notLate⟩
    · apply List.pairwise_append.mpr
      refine ⟨deferred.sorted, List.pairwise_singleton _ _, ?_⟩
      intro earlier member later last
      rw [List.mem_singleton.mp last]
      exact disciplined.1 earlier member
    · change ∀ waiting ∈ rx.items, state.consumer.wheel.wheelTime ≤ waiting.startSample
      rw [items]
      intro waiting member
      rcases List.mem_append.mp member with old | new
      · exact deferred.ahead waiting old
      · rw [List.mem_singleton.mp new]
        exact disciplined.2
  · have same : state.call (.push params) = state := by
      simp only [BlockClock.call, observe, equal]
    rw [same]
    exact deferred

/-- A block ends at most one horizon after the slot in which it began.  The clock need not
stand at the beginning of a slot. -/
theorem block_within_horizon (clock : Nat) {blockSize slots duration : Nat} (positive : 0 < duration)
    (short : blockSize ≤ slots * duration) :
    (clock + blockSize) / duration * duration ≤
      clock / duration * duration + slots * duration := by
  rw [← Nat.add_mul]
  apply Nat.mul_le_mul_right
  calc (clock + blockSize) / duration
      ≤ (clock + slots * duration) / duration := Nat.div_le_div_right (by omega)
    _ = clock / duration + slots := Nat.add_mul_div_right _ _ positive

theorem drain (deferred : Deferred g state) {blockSize : Nat}
    (short : blockSize ≤ g.slots * g.duration) :
    Deferred g (state.call (.drain blockSize)) := by
  have balanced := deferred.balanced.drain state.clock blockSize
  have ring := state.consumer.drainBlockSafe_ring state.clock blockSize state.ledger.fired
  have slotIndex := TimeWheelConsumer.drainBlockSafe_slotIndex deferred.balanced.wheel
    state.clock blockSize state.ledger.fired
  have forward : state.clock / g.duration ≤ (state.clock + blockSize) / g.duration :=
    Nat.div_le_div_right (by omega)
  rw [deferred.clock, Nat.max_eq_right forward] at slotIndex
  have waitingSorted : state.consumer.rx.items.Pairwise
      (fun x y => x.startSample ≤ y.startSample) := by
    have whole := deferred.sorted
    rw [← deferred.balanced.ring] at whole
    exact (List.pairwise_append.mp whole).2.1
  refine ⟨balanced, slotIndex, deferred.sorted, ?_, ?_⟩
  · intro params member
    have beyond := admitReady_beyond waitingSorted params member
    have within := block_within_horizon state.clock g.duration_pos short
    rw [deferred.balanced.wheel.wheelTime_eq, deferred.balanced.wheel.horizon_eq,
      deferred.clock] at beyond
    change (state.consumer.drainBlockSafe _ _ _).1.wheel.wheelTime ≤ _
    rw [balanced.wheel.wheelTime_eq, slotIndex]
    exact Nat.le_trans within beyond
  · change rejectedFor .tooLate (state.ledger.log ++ state.consumer.blockVerdicts) = []
    rw [rejectedFor_append, deferred.notLate, List.nil_append]
    unfold rejectedFor
    apply List.map_eq_nil_iff.mpr
    apply List.filter_eq_nil_iff.mpr
    intro verdict member
    rw [decide_eq_true_eq]
    intro late
    have behind := (verdicts_reason member).1 late
    have waiting : verdict.1 ∈ state.consumer.rx.items := by
      rw [← ring]
      exact List.mem_append_left _ (List.mem_map_of_mem member)
    exact absurd (deferred.ahead verdict.1 waiting) (Nat.not_le_of_lt behind)

/-- By induction on the calls, every state of a disciplined run keeps the invariant. -/
theorem reachable {ingressCapacity : Nat}
    (reached : (blockSystem ingressCapacity g).ReachableVia (BlockClock.Disciplined g) state) :
    Deferred g state := by
  apply reached.invariant
  · rintro _ (rfl | rfl)
    · exact start ingressCapacity g
    · exact startWithStats ingressCapacity g
  · rintro state (params | blockSize) _ deferred disciplined rfl
    · exact deferred.push disciplined
    · exact deferred.drain disciplined.2

/-- What is still in the ring or in the wheel is not behind the time of the wheel: no slot has
elapsed with an entry left in it. -/
theorem held_ahead (deferred : Deferred g state) {params : FofParams R}
    (member : params ∈ state.consumer.rx.items ++ state.consumer.wheel.slots.flatten) :
    state.consumer.wheel.wheelTime ≤ params.startSample := by
  rcases List.mem_append.mp member with waiting | held
  · exact deferred.ahead params waiting
  · have kept := (List.mem_filter.mp (deferred.balanced.wheel.held_perm.mem_iff.mp held)).2
    rw [deferred.balanced.wheel.wheelTime_eq]
    exact (Nat.le_div_iff_mul_le g.duration_pos).mp (of_decide_eq_true kept)

/-- Without late and early entries the full slots account for all rejections. -/
theorem rejected_perm (deferred : Deferred g state) :
    (rejectedFor .slotFull state.ledger.log).Perm (rejected state.ledger.log) := by
  have parts := Queue.rejected_perm state.ledger.log
  rwa [deferred.notLate, deferred.balanced.notEarly, List.nil_append, List.nil_append] at parts

end Deferred

/-- Deferral never turns into loss: under the discipline the wheel keeps up with the
blocks, no entry is ever rejected as too late or too early, and every pushed entry
behind the clock has been fired or was rejected because its slot was full. -/
theorem deferral_loses_nothing (ingressCapacity : Nat) (g : Geometry) (state : BlockClock R)
    (reached : (blockSystem ingressCapacity g).ReachableVia (BlockClock.Disciplined g) state) :
    state.consumer.wheel.slotIndex = state.clock / g.duration ∧
      rejectedFor .tooLate state.ledger.log = [] ∧ rejectedFor .tooEarly state.ledger.log = [] ∧
      (∀ params ∈ state.ledger.pushed,
        params.startSample < state.consumer.wheel.wheelTime →
          params ∈ state.ledger.fired ∨ params ∈ rejectedFor .slotFull state.ledger.log) ∧
      ∃ held, (held ++ (state.ledger.fired ++ rejectedFor .slotFull state.ledger.log)).Perm
          state.ledger.pushed ∧
        ∀ params ∈ held, state.consumer.wheel.wheelTime ≤ params.startSample := by
  have deferred := Deferred.reachable reached
  have everywhere : ((state.consumer.rx.items ++ state.consumer.wheel.slots.flatten) ++
      (state.ledger.fired ++ rejectedFor .slotFull state.ledger.log)).Perm
        state.ledger.pushed := by
    apply List.Perm.trans _ deferred.balanced.pushed_perm
    rw [List.append_assoc]
    exact ((deferred.rejected_perm.append_left _).append_left _).append_left _
  refine ⟨deferred.clock, deferred.notLate, deferred.balanced.notEarly, ?_, _, everywhere,
    fun params member => deferred.held_ahead member⟩
  intro params pushed behind
  rcases List.mem_append.mp (everywhere.mem_iff.mpr pushed) with held | done
  · exact absurd (deferred.held_ahead held) (Nat.not_le_of_lt behind)
  · exact List.mem_append.mp done

/-- Two slots of ten samples: a block of seventeen samples passes an entry and
defers another. -/
theorem deferral_loses_nothing_unaligned :
    let g : Geometry := ⟨2, 10, 1, by decide, by decide⟩
    let state := (((BlockClock.start 4 g).call (.push (.onset 5))).call
      (.push (.onset 25))).call (.drain 17)
    state.consumer.wheel.slotIndex = state.clock / g.duration ∧
      rejectedFor .tooLate state.ledger.log = [] ∧ rejectedFor .tooEarly state.ledger.log = [] ∧
      (∀ params ∈ state.ledger.pushed,
        params.startSample < state.consumer.wheel.wheelTime →
          params ∈ state.ledger.fired ∨ params ∈ rejectedFor .slotFull state.ledger.log) ∧
      ∃ held, (held ++ (state.ledger.fired ++ rejectedFor .slotFull state.ledger.log)).Perm
          state.ledger.pushed ∧
        ∀ params ∈ held, state.consumer.wheel.wheelTime ≤ params.startSample := by
  intro g state
  apply deferral_loses_nothing 4 g state
  have first : BlockClock.Disciplined g (.start 4 g) (.push (.onset 5)) :=
    ⟨by decide, by decide⟩
  have second : BlockClock.Disciplined g ((BlockClock.start 4 g).call (.push (.onset 5)))
      (.push (.onset 25)) := ⟨by decide, by decide⟩
  have third : BlockClock.Disciplined g (((BlockClock.start 4 g).call (.push (.onset 5))).call
      (.push (.onset 25))) (.drain 17) := ⟨by decide, by decide⟩
  exact .step (.step (.step (.init (Or.inl rfl)) first rfl) second rfl) third rfl

end Queue
end Rfofs
