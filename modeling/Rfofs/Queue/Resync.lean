import Rfofs.Queue.Ledger

namespace Rfofs
namespace Queue

open Foundation
open Grain

/-!
# Blocks that jump forward

The clock of a block is read from a time source, and a client may switch the source.
After a switch to a larger clock the next block begins behind the end of the last one
by any distance.  The admission bound of that block is still taken from the old clock
of the wheel, while the wheel itself advances to the end of the block.

An entry of the ring that starts inside the block but beyond the bound is left where
it is, and the next block finds it behind the clock, unless it falls into the slot in
which the block ends.  Every other entry that starts inside the block is consumed in
the block or in the next one, and no such entry is late.

The verdict on the `index`-th pushed entry is the `index`-th entry of the log, since
the consumed entries followed by the ring are the pushed ones.
-/

variable {R : Type*}

/-! ## Runs that do not go back -/

/-- Every block begins at or behind the end of the one before it.  A jump forward is allowed,
a jump back is not. -/
def FollowsOn : Nat → List (QueueCall R) → Prop
  | _, [] => True
  | clock, .push _ :: calls => FollowsOn clock calls
  | clock, .drain blockStart blockSize :: calls =>
      clock ≤ blockStart ∧ FollowsOn (blockStart + blockSize) calls

/-- The producer pushes in the order of the onsets. -/
def InOrder (pushed : List (FofParams R)) : Prop :=
  pushed.Pairwise (fun x y => x.startSample ≤ y.startSample)

def runCalls (state : TimeWheelConsumer R × Ledger R) (calls : List (QueueCall R)) :
    TimeWheelConsumer R × Ledger R :=
  calls.foldl observe state

/-- The end of the last block.  It is the earliest start that the next block may have. -/
def clockAfter (clock : Nat) : List (QueueCall R) → Nat
  | [] => clock
  | .push _ :: calls => clockAfter clock calls
  | .drain blockStart blockSize :: calls => clockAfter (blockStart + blockSize) calls

theorem followsOn_append (clock : Nat) (first second : List (QueueCall R)) :
    FollowsOn clock (first ++ second) ↔
      FollowsOn clock first ∧ FollowsOn (clockAfter clock first) second := by
  induction first generalizing clock with
  | nil => exact ⟨fun follows => ⟨trivial, follows⟩, And.right⟩
  | cons call first ih =>
      cases call with
      | push params => exact ih clock
      | drain blockStart blockSize =>
          rw [List.cons_append, FollowsOn, FollowsOn, ih, and_assoc]
          rfl

theorem getElem?_extend {X : Type*} {xs ys : List X} (front : xs <+: ys) {index : Nat} {x : X}
    (listed : xs[index]? = some x) : ys[index]? = some x := by
  rcases front with ⟨rest, rfl⟩
  rw [List.getElem?_append_left (List.getElem?_eq_some_iff.mp listed).1, listed]

/-- The ledger of pushes only grows.  An index into it therefore names the same entry for the
rest of the run. -/
theorem pushed_extends (state : TimeWheelConsumer R × Ledger R) (calls : List (QueueCall R)) :
    state.2.pushed <+: (runCalls state calls).2.pushed := by
  induction calls generalizing state with
  | nil => exact List.prefix_refl _
  | cons call calls ih =>
      apply List.IsPrefix.trans _ (ih (observe state call))
      cases call with
      | push params =>
          simp only [observe]
          split
          · exact List.prefix_append _ _
          · exact List.prefix_refl _
      | drain blockStart blockSize => exact List.prefix_refl _

/-- A verdict stands.  The entry consumed at some index is the one pushed there, so the index
finds its verdict. -/
theorem log_extends (state : TimeWheelConsumer R × Ledger R) (calls : List (QueueCall R)) :
    state.2.log <+: (runCalls state calls).2.log := by
  induction calls generalizing state with
  | nil => exact List.prefix_refl _
  | cons call calls ih =>
      apply List.IsPrefix.trans _ (ih (observe state call))
      cases call with
      | push params =>
          simp only [observe]
          split <;> exact List.prefix_refl _
      | drain blockStart blockSize => exact List.prefix_append _ _

theorem InOrder.before {state : TimeWheelConsumer R × Ledger R} {calls : List (QueueCall R)}
    (sorted : InOrder (runCalls state calls).2.pushed) : InOrder state.2.pushed :=
  List.Pairwise.sublist (pushed_extends state calls).sublist sorted

/-- The ledger is balanced, and the wheel stands in the slot of the last block end.  Forward
runs keep this, for every size of a jump. -/
structure Forward (g : Geometry) (clock : Nat) (state : TimeWheelConsumer R × Ledger R) :
    Prop where
  balanced : Balanced g state.1 state.2
  slotIndex : state.1.wheel.slotIndex = clock / g.duration

namespace Forward

variable {g : Geometry} {clock : Nat} {state : TimeWheelConsumer R × Ledger R}

theorem timeWheel (ingressCapacity : Nat) (g : Geometry) :
    Forward g 0 ((Queue.timeWheel ingressCapacity g.slots g.duration g.capacity g.slots_pos
      g.duration_pos : TimeWheelConsumer R), Ledger.empty) :=
  ⟨timeWheel_balanced ingressCapacity g, (Nat.zero_div g.duration).symm⟩

theorem attachStats (ingressCapacity : Nat) (g : Geometry) :
    Forward g 0 ((Queue.timeWheel ingressCapacity g.slots g.duration g.capacity g.slots_pos
      g.duration_pos : TimeWheelConsumer R).attachStats QueueStats.default, Ledger.empty) :=
  ⟨attachStats_balanced ingressCapacity g, (Nat.zero_div g.duration).symm⟩

/-- A push moves no clock. -/
theorem push (forward : Forward g clock state) (params : FofParams R) :
    Forward g clock (observe state (.push params)) := by
  refine ⟨forward.balanced.observe (.push params), ?_⟩
  have kept : (observe state (.push params)).1.wheel = state.1.wheel := by
    simp only [observe]
    rcases state.1.push_cases params with ⟨rx, equal, _⟩ | ⟨equal, _⟩ <;> rw [equal]
  rw [kept]
  exact forward.slotIndex

/-- The wheel follows to the end of the block, since the block does not begin before the last
end. -/
theorem drain (forward : Forward g clock state) {blockStart : Nat} (follows : clock ≤ blockStart)
    (blockSize : Nat) :
    Forward g (blockStart + blockSize) (observe state (.drain blockStart blockSize)) := by
  refine ⟨forward.balanced.observe (.drain blockStart blockSize), ?_⟩
  have ends := TimeWheelConsumer.drainBlockSafe_slotIndex forward.balanced.wheel blockStart
    blockSize state.2.fired
  have ordered : clock / g.duration ≤ (blockStart + blockSize) / g.duration :=
    Nat.div_le_div_right (by omega)
  rw [forward.slotIndex, Nat.max_eq_right ordered] at ends
  exact ends

/-- By induction on the calls of a forward run. -/
theorem run (forward : Forward g clock state) {calls : List (QueueCall R)}
    (follows : FollowsOn clock calls) :
    Forward g (clockAfter clock calls) (runCalls state calls) := by
  induction calls generalizing clock state with
  | nil => exact forward
  | cons call calls ih =>
      cases call with
      | push params => exact ih (forward.push params) follows
      | drain blockStart blockSize => exact ih (forward.drain follows.1 blockSize) follows.2

/-- The wheel does not stand behind the end of the last block. -/
theorem wheelTime_le (forward : Forward g clock state) : state.1.wheel.wheelTime ≤ clock := by
  rw [forward.balanced.wheel.wheelTime_eq, forward.slotIndex]
  exact Nat.div_mul_le_self clock g.duration

/-- One slot behind the clock is inside the window.  What lies before the end of the last
block is never too early. -/
theorem lt_window (forward : Forward g clock state) {startSample : Nat}
    (before : startSample < clock) :
    startSample < state.1.wheel.wheelTime + state.1.wheel.horizon := by
  have next : clock < clock / g.duration * g.duration + g.duration :=
    Nat.lt_div_mul_add g.duration_pos
  have one : 1 * g.duration ≤ g.slots * g.duration := Nat.mul_le_mul_right _ g.slots_pos
  rw [forward.balanced.wheel.wheelTime_eq, forward.balanced.wheel.horizon_eq, forward.slotIndex]
  omega

/-- A waiting entry is consumed by a block exactly if it lies inside the window, and
it is then late exactly if it is behind the clock of the wheel. -/
theorem block_verdict (forward : Forward g clock state) (sorted : InOrder state.2.pushed)
    {index : Nat} {params : FofParams R} (waiting : state.2.log.length ≤ index)
    (listed : state.2.pushed[index]? = some params)
    (inside : params.startSample < state.1.wheel.wheelTime + state.1.wheel.horizon)
    (blockStart blockSize : Nat) :
    ∃ verdict, (observe state (.drain blockStart blockSize)).2.log[index]? = some verdict ∧
      (verdict.reason? = some .tooLate ↔ params.startSample < state.1.wheel.wheelTime) := by
  have ring := state.1.drainBlockSafe_ring blockStart blockSize state.2.fired
  have position := listed
  rw [← forward.balanced.ring, List.getElem?_append_right (by simpa [consumed] using waiting),
    ← ring] at position
  have offset : index - (consumed state.2.log).length = index - state.2.log.length := by
    simp [consumed]
  rw [offset] at position
  have ringSorted : InOrder state.1.rx.items := by
    have whole := sorted
    rw [InOrder, ← forward.balanced.ring] at whole
    exact (List.pairwise_append.mp whole).2.1
  have early : index - state.2.log.length < state.1.blockVerdicts.length := by
    by_contra beyond
    have length : (consumed state.1.blockVerdicts).length ≤ index - state.2.log.length := by
      simpa [consumed] using beyond
    rw [List.getElem?_append_right length] at position
    have left := admitReady_beyond ringSorted params (List.mem_of_getElem? position)
    exact Nat.not_lt_of_le left inside
  rcases List.getElem?_eq_some_iff.mpr ⟨early, rfl⟩ with found
  rw [List.getElem?_append_left (by simpa [consumed] using early), consumed, List.getElem?_map,
    found, Option.map_some] at position
  have same := Option.some.inj position
  have member : state.1.blockVerdicts[index - state.2.log.length] ∈ state.1.blockVerdicts :=
    List.getElem_mem early
  refine ⟨_, (List.getElem?_append_right waiting).trans found, ?_⟩
  constructor
  · intro late
    rw [← same]
    exact (verdicts_reason member).1 late
  · intro behind
    exact verdicts_late member (same ▸ behind)

/-- A waiting entry beyond the window waits on.  The loop stops at it or at an entry before
it. -/
theorem block_waits (forward : Forward g clock state) {index : Nat} {params : FofParams R}
    (waiting : state.2.log.length ≤ index) (listed : state.2.pushed[index]? = some params)
    (beyond : state.1.wheel.wheelTime + state.1.wheel.horizon ≤ params.startSample)
    (blockStart blockSize : Nat) :
    (observe state (.drain blockStart blockSize)).2.log.length ≤ index := by
  change (state.2.log ++ state.1.blockVerdicts).length ≤ index
  rw [List.length_append]
  by_contra early
  have ring := state.1.drainBlockSafe_ring blockStart blockSize state.2.fired
  have offset : index - state.2.log.length < state.1.blockVerdicts.length := by omega
  have position := listed
  rw [← forward.balanced.ring, List.getElem?_append_right (by simpa [consumed] using waiting),
    ← ring, List.getElem?_append_left (by simpa [consumed] using offset), consumed,
    List.getElem?_map, consumed, List.length_map, List.getElem?_eq_getElem offset] at position
  have before := verdicts_before (List.getElem_mem offset)
  rw [Option.some.inj position] at before
  exact Nat.not_lt_of_le beyond before

/-- A waiting entry inside the window receives its verdict at the next block, whatever
is pushed before it. -/
theorem run_verdict (forward : Forward g clock state) {calls : List (QueueCall R)}
    (follows : FollowsOn clock calls) (sorted : InOrder (runCalls state calls).2.pushed)
    {index : Nat} {params : FofParams R} (waiting : state.2.log.length ≤ index)
    (listed : state.2.pushed[index]? = some params)
    (inside : params.startSample < state.1.wheel.wheelTime + state.1.wheel.horizon) :
    (runCalls state calls).2.log.length ≤ index ∧
        (∀ blockStart blockSize, .drain blockStart blockSize ∉ calls) ∨
      ∃ verdict, (runCalls state calls).2.log[index]? = some verdict ∧
        (verdict.reason? = some .tooLate ↔ params.startSample < state.1.wheel.wheelTime) := by
  induction calls generalizing clock state with
  | nil => exact Or.inl ⟨waiting, fun _ _ => List.not_mem_nil⟩
  | cons call calls ih =>
      cases call with
      | push pushed =>
          have wheel : (observe state (.push pushed)).1.wheel = state.1.wheel := by
            simp only [observe]
            rcases state.1.push_cases pushed with ⟨rx, equal, _⟩ | ⟨equal, _⟩ <;> rw [equal]
          have log : (observe state (.push pushed)).2.log = state.2.log := by
            simp only [observe]
            split <;> rfl
          have later := ih (forward.push pushed) follows sorted (log ▸ waiting)
            (getElem?_extend (pushed_extends state [.push pushed]) listed)
            (wheel ▸ inside)
          rw [wheel] at later
          rcases later with ⟨still, none⟩ | answered
          · exact Or.inl ⟨still, by simpa using none⟩
          · exact Or.inr answered
      | drain blockStart blockSize =>
          have sortedBefore : InOrder state.2.pushed := InOrder.before sorted
          rcases forward.block_verdict sortedBefore waiting listed inside blockStart blockSize with
            ⟨verdict, written, late⟩
          exact Or.inr ⟨verdict, getElem?_extend (log_extends _ calls) written, late⟩

end Forward

/-! ## Entries that start inside the block -/

/-- The entry of the verdict entered the wheel, or its slot was full.  The other verdict that
a run can give is a late one. -/
def Verdict.Timely (verdict : Verdict R) : Prop :=
  verdict.offset?.isSome ∨ verdict.reason? = some .slotFull

theorem Balanced.timely_iff {g : Geometry} {consumer : TimeWheelConsumer R} {ledger : Ledger R}
    (balanced : Balanced g consumer ledger) {index : Nat} {verdict : Verdict R}
    (written : ledger.log[index]? = some verdict) :
    verdict.Timely ↔ verdict.reason? ≠ some .tooLate := by
  have notEarly : verdict.reason? ≠ some .tooEarly := by
    intro early
    have listed := mem_rejectedFor.mpr ⟨verdict, List.mem_of_getElem? written, early, rfl⟩
    rw [balanced.notEarly] at listed
    cases listed
  unfold Verdict.Timely
  rcases verdict with ⟨params, ⟨event, reason⟩ | slotDelta⟩
  · cases reason <;> simp_all [Verdict.offset?, Verdict.reason?]
  · simp [Verdict.offset?, Verdict.reason?]

/-- A fresh consumer, with or without statistics.  The statistics have no influence on what is
admitted. -/
def Fresh (ingressCapacity : Nat) (g : Geometry) (start : TimeWheelConsumer R) : Prop :=
  start = timeWheel ingressCapacity g.slots g.duration g.capacity g.slots_pos g.duration_pos ∨
    start = (timeWheel ingressCapacity g.slots g.duration g.capacity g.slots_pos
      g.duration_pos).attachStats QueueStats.default

theorem Fresh.forward {ingressCapacity : Nat} {g : Geometry} {start : TimeWheelConsumer R}
    (fresh : Fresh ingressCapacity g start) : Forward g 0 (start, Ledger.empty) := by
  rcases fresh with rfl | rfl
  · exact Forward.timeWheel ingressCapacity g
  · exact Forward.attachStats ingressCapacity g

/-- After the calls `later` behind its block, an entry has no verdict other than a timely
one, and it has one as soon as there was another block. -/
def Settled (index : Nat) (log : List (Verdict R)) (later : List (QueueCall R)) : Prop :=
  (∀ verdict, log[index]? = some verdict → verdict.Timely) ∧
    ((∃ blockStart blockSize, .drain blockStart blockSize ∈ later) →
      ∃ verdict, log[index]? = some verdict)

namespace Forward

variable {g : Geometry} {clock : Nat} {state : TimeWheelConsumer R × Ledger R}
  {blockStart blockSize index : Nat} {params : FofParams R}

/-- Inside the window the verdict falls in the block itself.  The bound and the clock of the
wheel are those before the jump. -/
theorem settled_of_window (forward : Forward g clock state) (follows : clock ≤ blockStart)
    (sorted : InOrder state.2.pushed) (waiting : state.2.log.length ≤ index)
    (listed : state.2.pushed[index]? = some params) (reached : blockStart ≤ params.startSample)
    (inside : params.startSample < state.1.wheel.wheelTime + state.1.wheel.horizon)
    {later : List (QueueCall R)} (continues : FollowsOn (blockStart + blockSize) later) :
    Settled index (runCalls state (.drain blockStart blockSize :: later)).2.log later := by
  have final := (forward.drain follows blockSize).run continues
  rcases forward.block_verdict sorted waiting listed inside blockStart blockSize with
    ⟨verdict, written, late⟩
  have stands : (runCalls state (.drain blockStart blockSize :: later)).2.log[index]? =
      some verdict := getElem?_extend (log_extends _ later) written
  refine ⟨?_, fun _ => ⟨verdict, stands⟩⟩
  intro other same
  cases stands.symm.trans same
  apply (final.balanced.timely_iff stands).mpr
  intro refused
  have behind := late.mp refused
  have clockBound := forward.wheelTime_le
  omega

/-- In the slot in which the block ends the verdict falls in the next block.  The wheel has
then arrived in this slot, so the entry is neither early nor late. -/
theorem settled_of_lastSlot (forward : Forward g clock state) (follows : clock ≤ blockStart)
    (waiting : state.2.log.length ≤ index) (listed : state.2.pushed[index]? = some params)
    (ends : params.startSample < blockStart + blockSize)
    (beyond : state.1.wheel.wheelTime + state.1.wheel.horizon ≤ params.startSample)
    (lastSlot : (blockStart + blockSize) / g.duration ≤ params.startSample / g.duration)
    {later : List (QueueCall R)} (continues : FollowsOn (blockStart + blockSize) later)
    (sorted : InOrder (runCalls state (.drain blockStart blockSize :: later)).2.pushed) :
    Settled index (runCalls state (.drain blockStart blockSize :: later)).2.log later := by
  have next := forward.drain follows blockSize
  have final := next.run continues
  have still := forward.block_waits waiting listed beyond blockStart blockSize
  have ahead : (observe state (.drain blockStart blockSize)).1.wheel.wheelTime ≤
      params.startSample := by
    rw [next.balanced.wheel.wheelTime_eq, next.slotIndex]
    exact (Nat.le_div_iff_mul_le g.duration_pos).mp lastSlot
  rcases next.run_verdict continues sorted still listed (next.lt_window ends) with
    ⟨unanswered, noBlock⟩ | ⟨verdict, written, late⟩
  · refine ⟨?_, ?_⟩
    · intro verdict written
      exact absurd (List.getElem?_eq_some_iff.mp written).1 (Nat.not_lt_of_le unanswered)
    · rintro ⟨nextStart, nextSize, member⟩
      exact absurd member (noBlock nextStart nextSize)
  · refine ⟨?_, fun _ => ⟨verdict, written⟩⟩
    intro other same
    cases written.symm.trans same
    apply (final.balanced.timely_iff written).mpr
    intro refused
    exact absurd (late.mp refused) (Nat.not_lt_of_le ahead)

/-- Beyond the window, and in a slot that has elapsed at the end of the block, the next
block rejects the entry as late. -/
theorem late_after_jump (forward : Forward g clock state) (follows : clock ≤ blockStart)
    (sorted : InOrder state.2.pushed) (waiting : state.2.log.length ≤ index)
    (listed : state.2.pushed[index]? = some params)
    (ends : params.startSample < blockStart + blockSize)
    (beyond : state.1.wheel.wheelTime + state.1.wheel.horizon ≤ params.startSample)
    (elapsed : params.startSample / g.duration < (blockStart + blockSize) / g.duration)
    (nextStart nextSize : Nat) :
    ∃ verdict, (runCalls state [.drain blockStart blockSize,
        .drain nextStart nextSize]).2.log[index]? = some verdict ∧
      verdict.reason? = some .tooLate := by
  have next := forward.drain follows blockSize
  have still := forward.block_waits waiting listed beyond blockStart blockSize
  have behind : params.startSample <
      (observe state (.drain blockStart blockSize)).1.wheel.wheelTime := by
    rw [next.balanced.wheel.wheelTime_eq, next.slotIndex]
    exact (Nat.div_lt_iff_lt_mul g.duration_pos).mp elapsed
  rcases next.block_verdict sorted still listed (next.lt_window ends) nextStart nextSize with
    ⟨verdict, written, late⟩
  exact ⟨verdict, written, late.mpr behind⟩

end Forward

/-- An entry that waits in the ring at a block which contains its start is admitted, or
finds its slot full, in that block or in the next one, and is never rejected as late,
whatever follows, exactly if it starts before the end of the window of the wheel or in
the slot in which the block ends. -/
theorem resync_admits_iff {ingressCapacity : Nat} {g : Geometry} {start : TimeWheelConsumer R}
    (fresh : Fresh ingressCapacity g start) {calls : List (QueueCall R)}
    {blockStart blockSize : Nat}
    (follows : FollowsOn 0 (calls ++ [.drain blockStart blockSize]))
    (sorted : InOrder (runCalls (start, Ledger.empty) calls).2.pushed)
    {index : Nat} {params : FofParams R}
    (waiting : (runCalls (start, Ledger.empty) calls).2.log.length ≤ index)
    (listed : (runCalls (start, Ledger.empty) calls).2.pushed[index]? = some params)
    (inside : blockStart ≤ params.startSample ∧ params.startSample < blockStart + blockSize) :
    (∀ later, FollowsOn (blockStart + blockSize) later →
        InOrder (runCalls (start, Ledger.empty)
          (calls ++ .drain blockStart blockSize :: later)).2.pushed →
        Settled index (runCalls (start, Ledger.empty)
          (calls ++ .drain blockStart blockSize :: later)).2.log later) ↔
      params.startSample < (runCalls (start, Ledger.empty) calls).1.wheel.wheelTime +
          (runCalls (start, Ledger.empty) calls).1.wheel.horizon ∨
        (blockStart + blockSize) / g.duration ≤ params.startSample / g.duration := by
  rcases (followsOn_append 0 calls _).mp follows with ⟨before, block, _⟩
  have forward := fresh.forward.run before
  have split : ∀ later, runCalls (start, Ledger.empty)
      (calls ++ .drain blockStart blockSize :: later) =
        runCalls (runCalls (start, Ledger.empty) calls)
          (.drain blockStart blockSize :: later) := fun later => List.foldl_append
  constructor
  · intro settled
    by_contra neither
    rcases not_or.mp neither with ⟨outside, elapsed⟩
    rcases forward.late_after_jump block sorted waiting listed inside.2 (Nat.le_of_not_lt outside)
      (Nat.lt_of_not_le elapsed) (blockStart + blockSize) 0 with ⟨verdict, written, late⟩
    have again : FollowsOn (blockStart + blockSize)
        ([.drain (blockStart + blockSize) 0] : List (QueueCall R)) := ⟨Nat.le_refl _, trivial⟩
    have timely := settled _ again
    rw [split] at timely
    rcases (timely sorted).1 verdict written with taken | full
    · rcases verdict with ⟨entry, refused | slotDelta⟩
      · cases taken
      · cases late
    · rw [late] at full
      cases full
  · intro condition later continues ordered
    rw [split] at ordered ⊢
    by_cases window : params.startSample < (runCalls (start, Ledger.empty) calls).1.wheel.wheelTime +
        (runCalls (start, Ledger.empty) calls).1.wheel.horizon
    · exact forward.settled_of_window block sorted waiting listed inside.1 window continues
    · exact forward.settled_of_lastSlot block waiting listed inside.2 (Nat.le_of_not_lt window)
        (condition.resolve_left window) continues ordered

/-- Two slots of ten samples: after a jump to sample 100 an entry at 112 is admitted by
the block behind it, although it lies beyond the old window. -/
theorem resync_admits_iff_lastSlot :
    let g : Geometry := ⟨2, 10, 4, by decide, by decide⟩
    let start : TimeWheelConsumer ℕ := timeWheel 4 2 10 4 (by decide) (by decide)
    let calls : List (QueueCall ℕ) := [.drain 0 10, .push (.onset 112)]
    (∀ later, FollowsOn 115 later →
        InOrder (runCalls (start, Ledger.empty) (calls ++ .drain 100 15 :: later)).2.pushed →
        Settled 0 (runCalls (start, Ledger.empty) (calls ++ .drain 100 15 :: later)).2.log
          later) ↔
      112 < (runCalls (start, Ledger.empty) calls).1.wheel.wheelTime +
          (runCalls (start, Ledger.empty) calls).1.wheel.horizon ∨
        (100 + 15) / g.duration ≤ 112 / g.duration := by
  intro g start calls
  have follows : FollowsOn 0 (calls ++ [.drain 100 15]) := ⟨by decide, by decide, trivial⟩
  have sorted : InOrder (runCalls (start, Ledger.empty) calls).2.pushed :=
    List.pairwise_singleton _ _
  have waiting : (runCalls (start, Ledger.empty) calls).2.log.length ≤ 0 := by decide
  have listed : (runCalls (start, Ledger.empty) calls).2.pushed[0]? = some (.onset 112) := rfl
  have fresh : Fresh 4 g start := Or.inl rfl
  exact resync_admits_iff fresh follows sorted waiting listed ⟨by decide, by decide⟩

/-- Beyond the horizon: after the jump to sample 100 an entry at 105 waits in the ring
while the wheel advances to 110, and the block behind it rejects the entry as late. -/
theorem forward_resync_drops_entry :
    let g : Geometry := ⟨2, 10, 4, by decide, by decide⟩
    let start : TimeWheelConsumer ℕ := timeWheel 4 2 10 4 (by decide) (by decide)
    let calls : List (QueueCall ℕ) := [.drain 0 10, .push (.onset 105)]
    let later : List (QueueCall ℕ) := [.drain 110 10]
    Fresh 4 g start ∧ FollowsOn 0 (calls ++ .drain 100 10 :: later) ∧
      InOrder (runCalls (start, Ledger.empty) (calls ++ .drain 100 10 :: later)).2.pushed ∧
      .onset 105 ∈ (runCalls (start, Ledger.empty) calls).1.rx.items ∧
      (runCalls (start, Ledger.empty) (calls ++ [.drain 100 10])).2.log = [] ∧
      .onset 105 ∈ rejectedFor .tooLate
        (runCalls (start, Ledger.empty) (calls ++ .drain 100 10 :: later)).2.log ∧
      ¬ Settled 0 (runCalls (start, Ledger.empty) (calls ++ .drain 100 10 :: later)).2.log
        later := by
  refine ⟨Or.inl rfl, ⟨by decide, by decide, by decide, trivial⟩, List.pairwise_singleton _ _,
    by decide, rfl, by decide, ?_⟩
  intro settled
  rcases settled.1 (.onset 105, .error (.onset 105, .tooLate)) rfl with taken | full
  · cases taken
  · cases full

end Queue
end Rfofs
