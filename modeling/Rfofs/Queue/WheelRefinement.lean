import Rfofs.Foundation.MachineInt
import Rfofs.Foundation.Transition
import Rfofs.Queue.DeadlineQueue

namespace Rfofs
namespace Queue

open Foundation
open DeadlineQueue (slotOf)

/-!
# The wheel refines the deadline queue

`Represents` connects an array of slots to an abstract queue.  The absolute slots
from `cur` to `cur + nSlots - 1` occupy each array position exactly once, and the
position of an absolute slot holds the pending entries of that slot, in
acceptance order.  `schedule` appends to one class and to one position.  The
draining loop empties the classes from `cur` on, one position each; a jump of a
full rotation or more empties all of them.

The relation is the whole interface between the array and the rest of the
development.  Later modules reason about the abstract queue only.
-/

variable {T : Type*}

namespace Wheel

def geometry (self : Wheel T) : Geometry where
  slots := self.nSlots
  duration := self.slotDuration
  capacity := self.slotCapacity
  slots_pos := self.nSlots_pos
  duration_pos := self.slotDuration_pos

/-- Every array position holds the class of the absolute slot it stands for.  The position of
an absolute slot is its remainder, and the window contains each remainder once. -/
structure Represents (wheel : Wheel T) (queue : DeadlineQueue T) : Prop where
  cur : wheel.slotIndex = queue.cur
  valid : queue.Valid wheel.geometry
  content : ∀ k, queue.cur ≤ k → k < queue.cur + wheel.nSlots →
    wheel.slot (k % wheel.nSlots) =
      (keyClass (slotOf wheel.geometry) k queue.pending).map Prod.fst

theorem new_represents (n d m : Nat) (hn : 0 < n) (hd : 0 < d) :
    (new n d m hn hd : Wheel T).Represents DeadlineQueue.empty where
  cur := rfl
  valid := DeadlineQueue.empty_valid _
  content := by
    intro k _ _
    simp [DeadlineQueue.empty]

theorem setSlot_geometry (wheel : Wheel T) (idx : Nat) (events : List T) :
    (wheel.setSlot idx events).geometry = wheel.geometry := by
  simp [geometry]

theorem Represents.wheelTime_eq {wheel : Wheel T} {queue : DeadlineQueue T}
    (rep : wheel.Represents queue) :
    wheel.wheelTime = queue.cur * wheel.geometry.duration := by
  rw [wheelTime, rep.cur]
  rfl

/-- Two absolute slots of one window never share an array position.  The window is as long as
the array, so equal remainders mean equal slots. -/
theorem position_injective {low size first second : Nat} (firstLow : low ≤ first)
    (firstHigh : first < low + size) (secondLow : low ≤ second)
    (secondHigh : second < low + size) (same : first % size = second % size) :
    first = second := by
  rcases Nat.le_total first second with ordered | ordered
  · exact (mod_eq_mod_iff_of_near ordered (by omega)).mp same
  · exact ((mod_eq_mod_iff_of_near ordered (by omega)).mp same.symm).symm

/-! ## Scheduling -/

/-- Appending to the position of an absolute slot appends to its class only.  The other
positions stand for other slots of the window. -/
theorem Represents.append {wheel : Wheel T} {queue : DeadlineQueue T}
    (rep : wheel.Represents queue) (event : T) {deadline : Nat}
    (reached : queue.cur ≤ deadline / wheel.geometry.duration)
    (inside : deadline / wheel.geometry.duration < queue.cur + wheel.nSlots)
    (room : (keyClass (slotOf wheel.geometry) (deadline / wheel.geometry.duration)
      queue.pending).length < wheel.geometry.capacity) :
    let idx := deadline / wheel.geometry.duration % wheel.nSlots
    (wheel.setSlot idx (wheel.slot idx ++ [event])).Represents
      { queue with pending := queue.pending ++ [(event, deadline)] } := by
  intro idx
  have accepted : queue.schedule wheel.geometry event deadline =
      ({ queue with pending := queue.pending ++ [(event, deadline)] },
        .ok (deadline / wheel.geometry.duration - queue.cur)) := by
    rcases DeadlineQueue.schedule_cases wheel.geometry queue event deadline with
      ⟨_, late⟩ | ⟨_, early⟩ | ⟨_, _, _, full⟩ | ⟨equal, _⟩
    · have := (Nat.le_div_iff_mul_le wheel.geometry.duration_pos).mp reached
      omega
    · have := (Nat.div_lt_iff_lt_mul wheel.geometry.duration_pos).mp inside
      exact absurd early (Nat.not_le_of_lt this)
    · omega
    · exact equal
  have valid := DeadlineQueue.schedule_valid rep.valid event deadline
  rw [accepted] at valid
  refine ⟨rep.cur, ?_, ?_⟩
  · rw [setSlot_geometry]
    exact valid
  · intro k above below
    rw [setSlot_nSlots] at below ⊢
    rw [setSlot_geometry, keyClass_append, keyClass_singleton]
    have bound : idx < wheel.nSlots := Nat.mod_lt _ wheel.nSlots_pos
    have held : wheel.slot idx = (keyClass (slotOf wheel.geometry)
        (deadline / wheel.geometry.duration) queue.pending).map Prod.fst :=
      rep.content _ reached inside
    by_cases same : deadline / wheel.geometry.duration = k
    · subst same
      rw [setSlot_slot_self _ bound, held]
      simp [slotOf]
    · have apart : idx ≠ k % wheel.nSlots :=
        fun equal => same (position_injective reached inside above below equal)
      rw [setSlot_slot_of_ne _ apart, rep.content k above below]
      simp [slotOf, same]

/-- `schedule` answers as the abstract queue does and stays a representation. -/
theorem Represents.schedule {wheel : Wheel T} {queue : DeadlineQueue T}
    (rep : wheel.Represents queue) (event : T) (deadline : Nat) :
    (wheel.schedule event deadline).2 = (queue.schedule wheel.geometry event deadline).2 ∧
      (wheel.schedule event deadline).1.geometry = wheel.geometry ∧
      (wheel.schedule event deadline).1.Represents
        (queue.schedule wheel.geometry event deadline).1 := by
  have span : wheel.horizon + wheel.wheelTime =
      (queue.cur + wheel.geometry.slots) * wheel.geometry.duration := by
    rw [Nat.add_mul, ← rep.wheelTime_eq, Nat.add_comm]
    rfl
  have answer := DeadlineQueue.schedule_cases wheel.geometry queue event deadline
  by_cases late : deadline < wheel.wheelTime
  · have abstractEq : queue.schedule wheel.geometry event deadline =
        (queue, .error (event, .tooLate)) := if_pos (by rwa [rep.wheelTime_eq] at late)
    rw [schedule_of_late late, abstractEq]
    exact ⟨rfl, rfl, rep⟩
  · have reached := Nat.le_of_not_lt late
    by_cases early : wheel.horizon ≤ deadline - wheel.wheelTime
    · have abstractEq : queue.schedule wheel.geometry event deadline =
          (queue, .error (event, .tooEarly)) :=
        (if_neg (by rwa [rep.wheelTime_eq] at late)).trans (if_pos (by omega))
      rw [schedule_of_early reached early, abstractEq]
      exact ⟨rfl, rfl, rep⟩
    · have delta : (deadline - wheel.wheelTime) / wheel.slotDuration =
          deadline / wheel.geometry.duration - queue.cur := by
        rw [rep.wheelTime_eq, Nat.mul_comm]
        exact Nat.sub_mul_div _ _ _
      have abstractReached : queue.cur ≤ deadline / wheel.geometry.duration := by
        apply (Nat.le_div_iff_mul_le wheel.geometry.duration_pos).mpr
        rwa [← rep.wheelTime_eq]
      have abstractInside : deadline / wheel.geometry.duration < queue.cur + wheel.nSlots :=
        (Nat.div_lt_iff_lt_mul wheel.geometry.duration_pos).mpr (by
          change deadline < (queue.cur + wheel.geometry.slots) * wheel.geometry.duration
          omega)
      have located : wheel.slotIndex + (deadline - wheel.wheelTime) / wheel.slotDuration =
          deadline / wheel.geometry.duration := by
        rw [delta, rep.cur]
        omega
      have length : (wheel.slot (deadline / wheel.geometry.duration % wheel.nSlots)).length =
          (keyClass (slotOf wheel.geometry) (deadline / wheel.geometry.duration)
            queue.pending).length := by
        rw [rep.content _ abstractReached abstractInside, List.length_map]
      rw [schedule_of_window reached (Nat.lt_of_not_le early) located, length, delta]
      have abstractEq : queue.schedule wheel.geometry event deadline =
          if wheel.slotCapacity ≤ (keyClass (slotOf wheel.geometry)
              (deadline / wheel.geometry.duration) queue.pending).length then
            (queue, .error (event, .slotFull))
          else
            ({ queue with pending := queue.pending ++ [(event, deadline)] },
              .ok (deadline / wheel.geometry.duration - queue.cur)) :=
        (if_neg (by rwa [rep.wheelTime_eq] at late)).trans (if_neg (by omega))
      rw [abstractEq]
      by_cases full : wheel.slotCapacity ≤ (keyClass (slotOf wheel.geometry)
          (deadline / wheel.geometry.duration) queue.pending).length
      · rw [if_pos full, if_pos full]
        exact ⟨rfl, rfl, rep⟩
      · rw [if_neg full, if_neg full]
        exact ⟨rfl, setSlot_geometry _ _ _,
          rep.append event abstractReached abstractInside (Nat.lt_of_not_le full)⟩

/-! ## Advancing -/

/-- What the draining loop has done after `count` turns: the first `count` positions behind
the read head are empty, their contents stand in the buffer in this order, and the other
positions are untouched. -/
structure Drained (wheel : Wheel T) (queue : DeadlineQueue T) (out : List T) (count : Nat)
    (state : Wheel T × List T) : Prop where
  geometry_eq : state.1.geometry = wheel.geometry
  content : ∀ k, queue.cur ≤ k → k < queue.cur + wheel.nSlots →
    state.1.slot (k % wheel.nSlots) =
      if k < queue.cur + count then []
      else (keyClass (slotOf wheel.geometry) k queue.pending).map Prod.fst
  fired : state.2 = out ++
    (orderedFrom (slotOf wheel.geometry) queue.cur count queue.pending).map Prod.fst

/-- One turn empties the next position and appends its contents. -/
theorem Drained.step {wheel : Wheel T} {queue : DeadlineQueue T} {out : List T} {count : Nat}
    {state : Wheel T × List T} (rep : wheel.Represents queue)
    (drained : Drained wheel queue out count state) (more : count < wheel.nSlots) :
    Drained wheel queue out (count + 1) (wheel.drainSlot state count) := by
  have nSlotsEq : state.1.nSlots = wheel.nSlots := congrArg Geometry.slots drained.geometry_eq
  have position : wheel.slotIndex + count = queue.cur + count := by rw [rep.cur]
  have current := drained.content (queue.cur + count) (Nat.le_add_right _ _) (by omega)
  rw [if_neg (Nat.lt_irrefl _)] at current
  unfold drainSlot
  simp only [position]
  refine ⟨?_, ?_, ?_⟩
  · rw [setSlot_geometry]
    exact drained.geometry_eq
  · intro k above below
    have bound : (queue.cur + count) % wheel.nSlots < state.1.nSlots := by
      rw [nSlotsEq]
      exact Nat.mod_lt _ wheel.nSlots_pos
    by_cases same : queue.cur + count = k
    · subst same
      rw [setSlot_slot_self _ bound, if_pos (by omega)]
    · have apart : (queue.cur + count) % wheel.nSlots ≠ k % wheel.nSlots := fun equal =>
        same (position_injective (Nat.le_add_right _ _) (by omega) above below equal)
      rw [setSlot_slot_of_ne _ apart, drained.content k above below]
      by_cases before : k < queue.cur + count
      · rw [if_pos before, if_pos (by omega)]
      · rw [if_neg before, if_neg (by omega)]
  · change state.2 ++ state.1.slot ((queue.cur + count) % wheel.nSlots) = _
    rw [drained.fired, current, orderedFrom_succ_last, List.map_append, List.append_assoc]

/-- The loop by induction on its turns; it never makes more of them than there are positions. -/
theorem drained_foldl {wheel : Wheel T} {queue : DeadlineQueue T} (rep : wheel.Represents queue)
    (out : List T) {count : Nat} (bounded : count ≤ wheel.nSlots) :
    Drained wheel queue out count ((List.range count).foldl wheel.drainSlot (wheel, out)) := by
  induction count with
  | zero =>
      refine ⟨rfl, ?_, by simp [orderedFrom_zero]⟩
      intro k above below
      rw [if_neg (by omega)]
      exact rep.content k above below
  | succ count ih =>
      rw [List.range_succ, List.foldl_append]
      exact (ih (by omega)).step rep (by omega)

/-- The classes beyond the window are empty, so the loop may stop after one
rotation. -/
theorem Represents.due_eq {wheel : Wheel T} {queue : DeadlineQueue T}
    (rep : wheel.Represents queue) {target : Nat} (forward : queue.cur < target) :
    orderedBelow (slotOf wheel.geometry) target queue.pending =
      orderedFrom (slotOf wheel.geometry) queue.cur
        (min (target - queue.cur) wheel.nSlots) queue.pending := by
  have early : orderedBelow (slotOf wheel.geometry) queue.cur queue.pending = [] := by
    apply List.eq_nil_iff_forall_not_mem.mpr
    intro entry member
    have listed := mem_orderedBelow.mp member
    have reached := rep.valid.reached entry listed.1
    omega
  have late : orderedFrom (slotOf wheel.geometry)
      (queue.cur + min (target - queue.cur) wheel.nSlots)
      (target - queue.cur - min (target - queue.cur) wheel.nSlots) queue.pending = [] := by
    apply List.eq_nil_iff_forall_not_mem.mpr
    intro entry member
    have listed := mem_orderedFrom.mp member
    have inside : slotOf wheel.geometry entry < queue.cur + wheel.nSlots :=
      rep.valid.inside entry listed.1
    omega
  have total : target - queue.cur = min (target - queue.cur) wheel.nSlots +
      (target - queue.cur - min (target - queue.cur) wheel.nSlots) := by omega
  rw [orderedBelow_split (le_of_lt forward), early, List.nil_append]
  conv_lhs => rw [total]
  rw [orderedFrom_add, late, List.append_nil]

/-- After the loop every position of the new window holds what is still pending
for it: a position whose old slot was not reached keeps its class, and every other
position is empty, as is the class of the slot it stands for now. -/
theorem Drained.content_after {wheel : Wheel T} {queue : DeadlineQueue T} {out : List T}
    {state : Wheel T × List T} (rep : wheel.Represents queue) {target : Nat}
    (forward : queue.cur < target)
    (drained : Drained wheel queue out (min (target - queue.cur) wheel.nSlots) state)
    {k : Nat} (above : target ≤ k) (below : k < target + wheel.nSlots) :
    state.1.slot (k % wheel.nSlots) =
      (keyClass (slotOf wheel.geometry) k queue.pending).map Prod.fst := by
  by_cases inOldWindow : k < queue.cur + wheel.nSlots
  · rw [drained.content k (by omega) inOldWindow, if_neg (by omega)]
  · rcases exists_mod_eq_in_window wheel.nSlots_pos queue.cur k with ⟨old, oldLow, oldHigh, same⟩
    have passed : old < queue.cur + min (target - queue.cur) wheel.nSlots := by
      by_cases far : wheel.nSlots ≤ target - queue.cur
      · omega
      · -- the window moved by less than a rotation: `old` and `k` differ by one rotation
        have shifted : old = k - wheel.nSlots := by
          have congruent : old % wheel.nSlots = (k - wheel.nSlots) % wheel.nSlots := by
            rw [same, Nat.mod_eq_sub_mod (by omega)]
          exact position_injective oldLow oldHigh (by omega) (by omega) congruent
        omega
    have empty : keyClass (slotOf wheel.geometry) k queue.pending = [] := by
      apply keyClass_eq_nil
      intro entry member equal
      have inside : slotOf wheel.geometry entry < queue.cur + wheel.nSlots :=
        rep.valid.inside entry member
      omega
    rw [← same, drained.content old oldLow oldHigh, if_pos passed, empty, List.map_nil]

theorem Drained.represents_after {wheel : Wheel T} {queue : DeadlineQueue T} {out : List T}
    {state : Wheel T × List T} (rep : wheel.Represents queue) {target : Nat}
    (forward : queue.cur < target)
    (drained : Drained wheel queue out (min (target - queue.cur) wheel.nSlots) state)
    (valid : DeadlineQueue.Valid wheel.geometry
      ⟨target, queue.pending.filter (fun entry => decide (target ≤ slotOf wheel.geometry entry))⟩) :
    ({ state.1 with slotIndex := target } : Wheel T).Represents
      ⟨target, queue.pending.filter
        (fun entry => decide (target ≤ slotOf wheel.geometry entry))⟩ := by
  have geometryEq : ({ state.1 with slotIndex := target } : Wheel T).geometry = wheel.geometry :=
    drained.geometry_eq
  have nSlotsEq : state.1.nSlots = wheel.nSlots := congrArg Geometry.slots geometryEq
  refine ⟨rfl, ?_, ?_⟩
  · rw [geometryEq]
    exact valid
  · intro k above below
    change k < target + state.1.nSlots at below
    change state.1.slot (k % state.1.nSlots) = _
    rw [nSlotsEq] at below ⊢
    rw [geometryEq, drained.content_after rep forward above below]
    congr 1
    symm
    apply keyClass_filter_of_kept
    intro entry _ same
    simpa [same] using above

/-- `advance` releases what the abstract queue releases and stays a representation.  A clock
that skips more than a rotation drains every position once, and then the queue is empty as
well. -/
theorem Represents.advance {wheel : Wheel T} {queue : DeadlineQueue T}
    (rep : wheel.Represents queue) (now : Nat) (out : List T) :
    (wheel.advance now out).2 = (queue.advance wheel.geometry now out).2 ∧
      (wheel.advance now out).1.geometry = wheel.geometry ∧
      (wheel.advance now out).1.Represents (queue.advance wheel.geometry now out).1 := by
  by_cases backward : now / wheel.slotDuration ≤ wheel.slotIndex
  · have abstractBackward : now / wheel.geometry.duration ≤ queue.cur := by
      rw [← rep.cur]
      exact backward
    rw [advance_of_le backward, DeadlineQueue.advance_of_le abstractBackward]
    exact ⟨rfl, rfl, rep⟩
  · have forward : queue.cur < now / wheel.geometry.duration := by
      rw [← rep.cur]
      exact Nat.lt_of_not_le backward
    have valid := DeadlineQueue.advance_valid rep.valid now out
    have drained := drained_foldl rep out
      (Nat.min_le_right (now / wheel.geometry.duration - queue.cur) wheel.nSlots)
    rw [advance_of_lt (Nat.lt_of_not_le backward), rep.cur]
    rw [DeadlineQueue.advance_of_lt forward] at valid ⊢
    refine ⟨?_, drained.geometry_eq, drained.represents_after rep forward valid⟩
    rw [rep.due_eq forward]
    exact drained.fired

/-! ## The contents of the array -/

/-- The positions of one window are all positions. -/
theorem window_positions_perm {size : Nat} (positive : 0 < size) (low : Nat) :
    ((List.range' low size).map (· % size)).Perm (List.range size) := by
  have distinct : ((List.range' low size).map (· % size)).Nodup := by
    apply List.Nodup.map_on _ List.nodup_range'
    intro first firstIn second secondIn same
    rw [List.mem_range'_1] at firstIn secondIn
    exact position_injective firstIn.1 firstIn.2 secondIn.1 secondIn.2 same
  apply (List.Nodup.subperm distinct ?_).perm_of_length_le
  · simp
  · intro position member
    rcases List.mem_map.mp member with ⟨count, _, rfl⟩
    exact List.mem_range.mpr (Nat.mod_lt _ positive)

/-- The array holds the pending entries, each once.  The order is lost between slots, but not
inside a slot. -/
theorem Represents.flatten_perm {wheel : Wheel T} {queue : DeadlineQueue T}
    (rep : wheel.Represents queue) :
    wheel.slots.flatten.Perm (queue.pending.map Prod.fst) := by
  have byPosition : wheel.slots.flatten.Perm
      ((List.range' queue.cur wheel.nSlots).flatMap (fun k => wheel.slot (k % wheel.nSlots))) := by
    rw [wheel.slots_eq_map_slot, ← List.flatMap_def]
    have positions := (window_positions_perm wheel.nSlots_pos queue.cur).flatMap_right wheel.slot
    rw [List.flatMap_map] at positions
    exact positions.symm
  have byClass : (List.range' queue.cur wheel.nSlots).flatMap
        (fun k => wheel.slot (k % wheel.nSlots)) =
      (orderedFrom (slotOf wheel.geometry) queue.cur wheel.nSlots queue.pending).map
        Prod.fst := by
    rw [orderedFrom, List.map_flatMap]
    apply List.flatMap_congr
    intro k member
    rw [List.mem_range'_1] at member
    exact rep.content k member.1 member.2
  have whole : queue.pending.filter (fun entry => decide (queue.cur ≤ slotOf wheel.geometry entry ∧
      slotOf wheel.geometry entry < queue.cur + wheel.nSlots)) = queue.pending := by
    apply List.filter_eq_self.mpr
    intro entry member
    exact decide_eq_true ⟨rep.valid.reached entry member, rep.valid.inside entry member⟩
  have released : (orderedFrom (slotOf wheel.geometry) queue.cur wheel.nSlots
      queue.pending).Perm _ := orderedFrom_perm _ _ _
  rw [whole] at released
  rw [byClass] at byPosition
  exact byPosition.trans (released.map Prod.fst)

/-- No array position is overfull. -/
theorem Represents.slot_length_le {wheel : Wheel T} {queue : DeadlineQueue T}
    (rep : wheel.Represents queue) {events : List T} (member : events ∈ wheel.slots) :
    events.length ≤ wheel.slotCapacity := by
  rw [wheel.slots_eq_map_slot] at member
  rcases List.mem_map.mp member with ⟨idx, listed, rfl⟩
  rcases exists_mod_eq_in_window wheel.nSlots_pos queue.cur idx with ⟨k, above, below, same⟩
  rw [Nat.mod_eq_of_lt (List.mem_range.mp listed)] at same
  rw [← same, rep.content k above below, List.length_map]
  exact rep.valid.room k

/-! ## Absence of overflow -/

/-- `schedule` with every 64-bit operation checked.  It returns nothing where a checked build
panics. -/
def scheduleChecked (self : Wheel T) (event : T) (deadline : Nat) :
    Option (Wheel T × Except (T × RejectReason) Nat) :=
  (checkedMul 64 self.slotIndex self.slotDuration).bind fun now =>
    if deadline < now then
      some (self, .error (event, .tooLate))
    else
      (checkedSub deadline now).bind fun offset =>
        (checkedMul 64 self.nSlots self.slotDuration).bind fun horizon =>
          if horizon ≤ offset then
            some (self, .error (event, .tooEarly))
          else
            let slotDelta := offset / self.slotDuration
            (checkedAdd 64 self.slotIndex slotDelta).bind fun position =>
              let idx := position % self.nSlots
              if self.slotCapacity ≤ (self.slot idx).length then
                some (self, .error (event, .slotFull))
              else
                some (self.setSlot idx (self.slot idx ++ [event]), .ok slotDelta)

/-- One checked turn of the draining loop. -/
def drainSlotChecked (self : Wheel T) (state : Wheel T × List T) (i : Nat) :
    Option (Wheel T × List T) :=
  (checkedAdd 64 self.slotIndex i).bind fun position =>
    let idx := position % self.nSlots
    some (state.1.setSlot idx [], state.2 ++ state.1.slot idx)

/-- `advance` with every 64-bit operation checked.  The read head is moved by additions, one
for each turn. -/
def advanceChecked (self : Wheel T) (now : Nat) (out : List T) : Option (Wheel T × List T) :=
  let targetIndex := now / self.slotDuration
  if targetIndex ≤ self.slotIndex then
    some (self, out)
  else
    (checkedSub targetIndex self.slotIndex).bind fun gap =>
      let steps := min gap self.nSlots
      ((List.range steps).foldlM self.drainSlotChecked (self, out)).bind fun drained =>
        some ({ drained.1 with slotIndex := targetIndex }, drained.2)

/-- While the clock and the horizon together fit, scheduling never overflows.  The only sum is
the one of the read head and an offset inside the window. -/
theorem scheduleChecked_eq {wheel : Wheel T} (event : T) (deadline : Nat)
    (fits : wheel.wheelTime + wheel.horizon < 2 ^ 64) :
    wheel.scheduleChecked event deadline = some (wheel.schedule event deadline) := by
  have time : checkedMul 64 wheel.slotIndex wheel.slotDuration = some wheel.wheelTime :=
    checkedMul_eq_some (by unfold wheelTime at fits; omega)
  have span : checkedMul 64 wheel.nSlots wheel.slotDuration = some wheel.horizon :=
    checkedMul_eq_some (by unfold horizon at fits; omega)
  unfold scheduleChecked
  rw [time, Option.bind_some]
  by_cases late : deadline < wheel.wheelTime
  · rw [if_pos late, schedule_of_late late]
  · have reached := Nat.le_of_not_lt late
    rw [if_neg late, checkedSub_eq_some reached, Option.bind_some, span, Option.bind_some]
    by_cases early : wheel.horizon ≤ deadline - wheel.wheelTime
    · rw [if_pos early, schedule_of_early reached early]
    · have inside := Nat.lt_of_not_le early
      have positionFits :
          wheel.slotIndex + (deadline - wheel.wheelTime) / wheel.slotDuration < 2 ^ 64 := by
        have indexLe : wheel.slotIndex ≤ wheel.wheelTime :=
          Nat.le_mul_of_pos_right _ wheel.slotDuration_pos
        have deltaLe := Nat.div_le_self (deadline - wheel.wheelTime) wheel.slotDuration
        omega
      simp only [if_neg early, checkedAdd_eq_some positionFits, Option.bind_some]
      rw [schedule_of_window reached inside rfl]
      split <;> rfl

theorem drainSlotChecked_foldlM (wheel : Wheel T) (state : Wheel T × List T) {steps : Nat}
    (fits : wheel.slotIndex + steps ≤ 2 ^ 64) :
    (List.range steps).foldlM wheel.drainSlotChecked state =
      some ((List.range steps).foldl wheel.drainSlot state) := by
  induction steps with
  | zero => rfl
  | succ steps ih =>
      rw [List.range_succ, List.foldlM_append, ih (by omega), List.foldl_append]
      have turn : checkedAdd 64 wheel.slotIndex steps = some (wheel.slotIndex + steps) :=
        checkedAdd_eq_some (by omega)
      simp only [Option.bind_eq_bind, Option.bind_some, List.foldlM_cons, List.foldlM_nil,
        drainSlotChecked, turn, Option.pure_def, List.foldl_cons, List.foldl_nil, drainSlot]

/-- Advancing overflows at no 64-bit clock value: the read head stays at or below the slot of
the clock. -/
theorem advanceChecked_eq {wheel : Wheel T} (out : List T) {now : Nat} (fits : now < 2 ^ 64) :
    wheel.advanceChecked now out = some (wheel.advance now out) := by
  unfold advanceChecked
  by_cases backward : now / wheel.slotDuration ≤ wheel.slotIndex
  · simp only [if_pos backward, advance_of_le backward]
  · have forward := Nat.lt_of_not_le backward
    have target := Nat.div_le_self now wheel.slotDuration
    simp only [if_neg backward, checkedSub_eq_some (le_of_lt forward), Option.bind_some]
    rw [drainSlotChecked_foldlM wheel (wheel, out) (by omega), Option.bind_some,
      advance_of_lt forward]

end Wheel

/-! ## Whole runs -/

/-- The two calls a wheel serves, with their arguments. -/
inductive WheelCall (T : Type*) where
  | schedule (event : T) (deadline : Nat)
  | advance (now : Nat) (out : List T)

/-- The times of a call are 64-bit words. -/
def WheelCall.Word64 : WheelCall T → Prop
  | .schedule _ deadline => deadline < 2 ^ 64
  | .advance now _ => now < 2 ^ 64

/-- What a call returns: the result of `schedule`, or `out` after `advance`. -/
inductive WheelAnswer (T : Type*) where
  | scheduled (result : Except (T × RejectReason) Nat)
  | fired (out : List T)

def Wheel.serve (self : Wheel T) : WheelCall T → Wheel T × WheelAnswer T
  | .schedule event deadline =>
      ((self.schedule event deadline).1, .scheduled (self.schedule event deadline).2)
  | .advance now out => ((self.advance now out).1, .fired (self.advance now out).2)

/-- The same calls with every 64-bit operation checked. -/
def Wheel.serveChecked (self : Wheel T) : WheelCall T → Option (Wheel T × WheelAnswer T)
  | .schedule event deadline =>
      (self.scheduleChecked event deadline).map (fun r => (r.1, .scheduled r.2))
  | .advance now out => (self.advanceChecked now out).map (fun r => (r.1, .fired r.2))

def DeadlineQueue.serve (g : Geometry) (queue : DeadlineQueue T) :
    WheelCall T → DeadlineQueue T × WheelAnswer T
  | .schedule event deadline =>
      ((queue.schedule g event deadline).1, .scheduled (queue.schedule g event deadline).2)
  | .advance now out => ((queue.advance g now out).1, .fired (queue.advance g now out).2)

namespace Wheel

theorem Represents.serve {wheel : Wheel T} {queue : DeadlineQueue T} {g : Geometry}
    (rep : wheel.Represents queue) (same : wheel.geometry = g) (call : WheelCall T) :
    (wheel.serve call).2 = (queue.serve g call).2 ∧
      (wheel.serve call).1.Represents (queue.serve g call).1 ∧
      (wheel.serve call).1.geometry = g := by
  subst same
  cases call with
  | schedule event deadline =>
      have step := rep.schedule event deadline
      exact ⟨congrArg WheelAnswer.scheduled step.1, step.2.2, step.2.1⟩
  | advance now out =>
      have step := rep.advance now out
      exact ⟨congrArg WheelAnswer.fired step.1, step.2.2, step.2.1⟩

theorem serveChecked_eq {wheel : Wheel T} {call : WheelCall T} (word : call.Word64)
    (fits : wheel.wheelTime + wheel.horizon < 2 ^ 64) :
    wheel.serveChecked call = some (wheel.serve call) := by
  cases call with
  | schedule event deadline =>
      rw [serveChecked, scheduleChecked_eq event deadline fits]
      rfl
  | advance now out =>
      rw [serveChecked, advanceChecked_eq out word]
      rfl

/-- A run of the abstract queue answers for the wheel, whatever the calls.  The induction
carries the representation and the validity of the queue. -/
theorem serve_run (n d m : Nat) (hn : 0 < n) (hd : 0 < d) (calls : List (WheelCall T)) :
    let g : Geometry := ⟨n, d, m, hn, hd⟩
    let final := run Wheel.serve (new n d m hn hd) calls
    let abstract := run (DeadlineQueue.serve g) DeadlineQueue.empty calls
    final.2 = abstract.2 ∧ final.1.Represents abstract.1 ∧ final.1.geometry = g := by
  intro g final abstract
  have start : (new n d m hn hd : Wheel T).Represents DeadlineQueue.empty ∧
      (new n d m hn hd : Wheel T).geometry = g :=
    ⟨new_represents n d m hn hd, by simp [geometry, g]⟩
  exact run_simulation
    (fun (wheel : Wheel T) queue => wheel.Represents queue ∧ wheel.geometry = g)
    (fun _ _ call related => related.1.serve related.2 call) start calls

end Wheel

/-- The wheel refines the deadline queue: for every geometry and every sequence of
calls during which the clock and the horizon together stay below `2 ^ 64`, no
64-bit operation overflows, every call returns what the queue returns, and the
slots hold the queue's pending entries. -/
theorem wheel_refines_deadlineQueue (n d m : Nat) (hn : 0 < n) (hd : 0 < d)
    (calls : List (WheelCall T)) (words : ∀ call ∈ calls, call.Word64)
    (clock : ∀ k ≤ calls.length,
      (run Wheel.serve (Wheel.new n d m hn hd) (calls.take k)).1.wheelTime + n * d < 2 ^ 64) :
    ∃ wheel answers,
      runPartial Wheel.serveChecked (Wheel.new n d m hn hd) calls = some (wheel, answers) ∧
      answers = (run (DeadlineQueue.serve ⟨n, d, m, hn, hd⟩) DeadlineQueue.empty calls).2 ∧
      wheel.Represents
        (run (DeadlineQueue.serve ⟨n, d, m, hn, hd⟩) DeadlineQueue.empty calls).1 := by
  have checked : runPartial Wheel.serveChecked (Wheel.new n d m hn hd) calls =
      some (run Wheel.serve (Wheel.new n d m hn hd) calls) := by
    apply runPartial_eq_run
    intro before call after split
    have taken : calls.take before.length = before := by rw [split, List.take_left]
    have inTime := clock before.length (by rw [split, List.length_append]; omega)
    rw [taken] at inTime
    have geometryEq := (Wheel.serve_run n d m hn hd before).2.2
    apply Wheel.serveChecked_eq
    · exact words call (by rw [split]; exact List.mem_append_right _ List.mem_cons_self)
    · have span : (run Wheel.serve (Wheel.new n d m hn hd) before).1.horizon = n * d := by
        have slotsEq := congrArg Geometry.slots geometryEq
        have durationEq := congrArg Geometry.duration geometryEq
        exact congrArg₂ (· * ·) slotsEq durationEq
      rw [span]
      exact inTime
  have refined := Wheel.serve_run n d m hn hd calls
  exact ⟨_, _, checked, refined.1, refined.2.1⟩

/-- A wheel of four slots takes an event, wraps past a full rotation and fires it. -/
theorem wheel_refines_deadlineQueue_rotation :
    ∃ wheel answers,
      runPartial Wheel.serveChecked (Wheel.new 4 10 2 (by decide) (by decide))
          [.schedule 7 25, .schedule 8 40, .advance 95 []] = some (wheel, answers) ∧
      answers = (run (DeadlineQueue.serve ⟨4, 10, 2, by decide, by decide⟩)
        DeadlineQueue.empty [.schedule 7 25, .schedule 8 40, .advance 95 []]).2 ∧
      wheel.Represents (run (DeadlineQueue.serve ⟨4, 10, 2, by decide, by decide⟩)
        DeadlineQueue.empty [.schedule 7 25, .schedule 8 40, .advance 95 []]).1 :=
  wheel_refines_deadlineQueue 4 10 2 (by decide) (by decide)
    [.schedule 7 25, .schedule 8 40, .advance 95 []]
    (by intro call member; simp at member; rcases member with rfl | rfl | rfl <;>
          simp [WheelCall.Word64])
    (by decide)

end Queue
end Rfofs
