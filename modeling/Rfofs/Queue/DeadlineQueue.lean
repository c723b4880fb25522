import Rfofs.Foundation.KeyOrder
import Rfofs.Queue.Wheel

namespace Rfofs
namespace Queue

open Foundation

/-!
# What a timing wheel is for

The abstract queue has no array and no wraparound.  Its state is the number
`cur` of the current slot and the list of pending entries, each with its own
deadline, in the order in which they were accepted.  A deadline is accepted when
it lies in one of the `slots` slots from `cur` on and fewer than `capacity`
pending entries share its slot; advancing the clock releases the entries of all
slots that have elapsed, slot by slot.

The last section follows a queue over its whole history.  Everything the queue
has released and everything it still holds are functions of two things only, the
current slot and the list of accepted entries (`History`).  Order, conservation
and capacity of a run are read off from these two equations.
-/

variable {T : Type*}

/-- The three constructor arguments of a wheel.  The same numbers fix which deadlines the
queue accepts. -/
structure Geometry where
  slots : Nat
  duration : Nat
  capacity : Nat
  slots_pos : 0 < slots
  duration_pos : 0 < duration

/-- Pending entries carry their deadlines and stand in acceptance order.  There is no array
and no rotation: `cur` is the absolute number of the next slot to elapse. -/
structure DeadlineQueue (T : Type*) where
  cur : Nat
  pending : List (T × Nat)

namespace DeadlineQueue

/-- The slot into which an entry's deadline falls. -/
def slotOf (g : Geometry) (entry : T × Nat) : Nat := entry.2 / g.duration

def empty : DeadlineQueue T := ⟨0, []⟩

/-- Accept the event when its deadline is neither past nor beyond the last slot
and its own slot has room.  The refusals are tested in this order. -/
def schedule (g : Geometry) (queue : DeadlineQueue T) (event : T) (deadline : Nat) :
    DeadlineQueue T × Except (T × RejectReason) Nat :=
  if deadline < queue.cur * g.duration then
    (queue, .error (event, .tooLate))
  else if (queue.cur + g.slots) * g.duration ≤ deadline then
    (queue, .error (event, .tooEarly))
  else if g.capacity ≤ (keyClass (slotOf g) (deadline / g.duration) queue.pending).length then
    (queue, .error (event, .slotFull))
  else
    ({ queue with pending := queue.pending ++ [(event, deadline)] },
      .ok (deadline / g.duration - queue.cur))

/-- Move to the slot of `now` and release what has elapsed, by slot and then by
acceptance order.  A clock that does not reach a later slot changes nothing. -/
def advance (g : Geometry) (queue : DeadlineQueue T) (now : Nat) (out : List T) :
    DeadlineQueue T × List T :=
  if now / g.duration ≤ queue.cur then
    (queue, out)
  else
    (⟨now / g.duration,
        queue.pending.filter (fun entry => decide (now / g.duration ≤ slotOf g entry))⟩,
      out ++ (orderedBelow (slotOf g) (now / g.duration) queue.pending).map Prod.fst)

/-! ## One step -/

/-- Everything one `schedule` can do: two refusals by the window, one by the capacity, or an
entry at the end of the pending list. -/
theorem schedule_cases (g : Geometry) (queue : DeadlineQueue T) (event : T) (deadline : Nat) :
    (queue.schedule g event deadline = (queue, .error (event, .tooLate)) ∧
      deadline < queue.cur * g.duration) ∨
    (queue.schedule g event deadline = (queue, .error (event, .tooEarly)) ∧
      (queue.cur + g.slots) * g.duration ≤ deadline) ∨
    (queue.schedule g event deadline = (queue, .error (event, .slotFull)) ∧
      queue.cur ≤ deadline / g.duration ∧ deadline / g.duration < queue.cur + g.slots ∧
      g.capacity ≤ (keyClass (slotOf g) (deadline / g.duration) queue.pending).length) ∨
    (queue.schedule g event deadline =
        ({ queue with pending := queue.pending ++ [(event, deadline)] },
          .ok (deadline / g.duration - queue.cur)) ∧
      queue.cur ≤ deadline / g.duration ∧ deadline / g.duration < queue.cur + g.slots ∧
      (keyClass (slotOf g) (deadline / g.duration) queue.pending).length < g.capacity) := by
  unfold schedule
  by_cases late : deadline < queue.cur * g.duration
  · exact Or.inl ⟨if_pos late, late⟩
  · rw [if_neg late]
    by_cases early : (queue.cur + g.slots) * g.duration ≤ deadline
    · exact Or.inr (Or.inl ⟨if_pos early, early⟩)
    · rw [if_neg early]
      have reached : queue.cur ≤ deadline / g.duration :=
        (Nat.le_div_iff_mul_le g.duration_pos).mpr (Nat.le_of_not_lt late)
      have inside : deadline / g.duration < queue.cur + g.slots :=
        (Nat.div_lt_iff_lt_mul g.duration_pos).mpr (Nat.lt_of_not_le early)
      by_cases full :
          g.capacity ≤ (keyClass (slotOf g) (deadline / g.duration) queue.pending).length
      · exact Or.inr (Or.inr (Or.inl ⟨if_pos full, reached, inside, full⟩))
      · exact Or.inr (Or.inr (Or.inr ⟨if_neg full, reached, inside, Nat.lt_of_not_le full⟩))

theorem schedule_cur (g : Geometry) (queue : DeadlineQueue T) (event : T) (deadline : Nat) :
    (queue.schedule g event deadline).1.cur = queue.cur := by
  rcases schedule_cases g queue event deadline with h | h | h | h <;> rw [h.1]

theorem advance_of_le {g : Geometry} {queue : DeadlineQueue T} {now : Nat}
    (backward : now / g.duration ≤ queue.cur) (out : List T) :
    queue.advance g now out = (queue, out) := if_pos backward

theorem advance_of_lt {g : Geometry} {queue : DeadlineQueue T} {now : Nat}
    (forward : queue.cur < now / g.duration) (out : List T) :
    queue.advance g now out =
      (⟨now / g.duration,
          queue.pending.filter (fun entry => decide (now / g.duration ≤ slotOf g entry))⟩,
        out ++ (orderedBelow (slotOf g) (now / g.duration) queue.pending).map Prod.fst) :=
  if_neg (Nat.not_le_of_lt forward)

/-- The read head is the latest slot the clock has reached; it never goes back. -/
theorem advance_cur (g : Geometry) (queue : DeadlineQueue T) (now : Nat) (out : List T) :
    (queue.advance g now out).1.cur = max queue.cur (now / g.duration) := by
  by_cases backward : now / g.duration ≤ queue.cur
  · rw [advance_of_le backward, Nat.max_eq_left backward]
  · have forward := Nat.lt_of_not_le backward
    rw [advance_of_lt forward, Nat.max_eq_right (le_of_lt forward)]

/-! ## The invariant of the pending entries -/

/-- Pending entries lie in the window of the wheel and no slot is overfull.  Both are what an
array of `slots` positions needs in order to represent the queue. -/
structure Valid (g : Geometry) (queue : DeadlineQueue T) : Prop where
  reached : ∀ entry ∈ queue.pending, queue.cur ≤ slotOf g entry
  inside : ∀ entry ∈ queue.pending, slotOf g entry < queue.cur + g.slots
  room : ∀ k, (keyClass (slotOf g) k queue.pending).length ≤ g.capacity

theorem empty_valid (g : Geometry) : (empty : DeadlineQueue T).Valid g where
  reached := by simp [empty]
  inside := by simp [empty]
  room := by simp [empty]

/-- An accepted entry lies in the window, and its slot had room. -/
theorem schedule_valid {g : Geometry} {queue : DeadlineQueue T} (valid : queue.Valid g)
    (event : T) (deadline : Nat) : (queue.schedule g event deadline).1.Valid g := by
  rcases schedule_cases g queue event deadline with h | h | h | ⟨h, reached, inside, room⟩
  · rw [h.1]; exact valid
  · rw [h.1]; exact valid
  · rw [h.1]; exact valid
  · rw [h]
    refine ⟨?_, ?_, ?_⟩
    · intro entry member
      rcases List.mem_append.mp member with old | new
      · exact valid.reached entry old
      · rw [List.mem_singleton.mp new]; exact reached
    · intro entry member
      rcases List.mem_append.mp member with old | new
      · exact valid.inside entry old
      · rw [List.mem_singleton.mp new]; exact inside
    · intro k
      rw [keyClass_append, keyClass_singleton]
      by_cases same : slotOf g (event, deadline) = k
      · subst same
        rw [if_pos rfl, List.length_append, List.length_singleton]
        exact room
      · rw [if_neg same, List.append_nil]
        exact valid.room k

/-- What stays pending lies in the later window, for the elapsed slots have been released. -/
theorem advance_valid {g : Geometry} {queue : DeadlineQueue T} (valid : queue.Valid g)
    (now : Nat) (out : List T) : (queue.advance g now out).1.Valid g := by
  by_cases backward : now / g.duration ≤ queue.cur
  · rw [advance_of_le backward]
    exact valid
  · have forward := Nat.lt_of_not_le backward
    rw [advance_of_lt forward]
    refine ⟨?_, ?_, ?_⟩
    · intro entry member
      simpa using (List.mem_filter.mp member).2
    · intro entry member
      have old := valid.inside entry (List.mem_filter.mp member).1
      exact Nat.lt_of_lt_of_le old (Nat.add_le_add_right (le_of_lt forward) _)
    · intro k
      rw [keyClass_filter]
      exact Nat.le_trans (List.length_filter_le _ _) (valid.room k)

/-- Scheduling appends to one class of the window, as far as there is room.  The other
classes, and the order inside each class, stay as they were. -/
theorem schedule_keyClass {g : Geometry} {queue : DeadlineQueue T} (valid : queue.Valid g)
    (event : T) (deadline : Nat) {k : Nat} (above : queue.cur ≤ k)
    (below : k < queue.cur + g.slots) :
    keyClass (slotOf g) k (queue.schedule g event deadline).1.pending =
      (keyClass (slotOf g) k queue.pending ++
        keyClass (slotOf g) k [(event, deadline)]).take g.capacity := by
  have same : slotOf g (event, deadline) = deadline / g.duration := rfl
  have unchanged : deadline / g.duration ≠ k → keyClass (slotOf g) k queue.pending =
      (keyClass (slotOf g) k queue.pending ++
        keyClass (slotOf g) k [(event, deadline)]).take g.capacity := by
    intro other
    rw [keyClass_singleton, same, if_neg other, List.append_nil,
      List.take_of_length_le (valid.room k)]
  rcases schedule_cases g queue event deadline with
    ⟨equal, late⟩ | ⟨equal, early⟩ | ⟨equal, _, _, full⟩ | ⟨equal, _, _, room⟩
  · have behind := (Nat.div_lt_iff_lt_mul g.duration_pos).mpr late
    rw [equal]
    exact unchanged (by omega)
  · have beyond := (Nat.le_div_iff_mul_le g.duration_pos).mpr early
    rw [equal]
    exact unchanged (by omega)
  · rw [equal]
    by_cases listed : deadline / g.duration = k
    · rw [listed] at full
      rw [List.take_append_of_le_length full, List.take_of_length_le (valid.room k)]
    · exact unchanged listed
  · rw [equal]
    by_cases listed : deadline / g.duration = k
    · rw [listed] at room
      rw [keyClass_append, keyClass_singleton, same, if_pos listed, List.take_of_length_le]
      rw [List.length_append, List.length_singleton]
      exact room
    · rw [keyClass_append, ← unchanged listed, keyClass_singleton, same, if_neg listed,
        List.append_nil]

/-! ## The history of a queue -/

/-- Given everything accepted so far, the queue holds what has not elapsed and has
released the rest in slot order. -/
structure History (g : Geometry) (accepted : List (T × Nat)) (fired : List T)
    (queue : DeadlineQueue T) : Prop where
  pending_eq : queue.pending =
    accepted.filter (fun entry => decide (queue.cur ≤ slotOf g entry))
  fired_eq : fired = (orderedBelow (slotOf g) queue.cur accepted).map Prod.fst

theorem empty_history (g : Geometry) : History g [] [] (empty : DeadlineQueue T) where
  pending_eq := rfl
  fired_eq := rfl

/-- An accepted entry lies at or beyond the current slot, so it changes nothing of
what was released before. -/
theorem History.accept {g : Geometry} {accepted : List (T × Nat)} {fired : List T}
    {queue : DeadlineQueue T} (history : History g accepted fired queue) (event : T)
    {deadline : Nat} (reached : queue.cur ≤ deadline / g.duration) :
    History g (accepted ++ [(event, deadline)]) fired
      { queue with pending := queue.pending ++ [(event, deadline)] } where
  pending_eq := by
    rw [List.filter_append, ← history.pending_eq]
    have kept : List.filter (fun entry => decide (queue.cur ≤ slotOf g entry))
        [(event, deadline)] = [(event, deadline)] := by
      simp [slotOf, reached]
    rw [kept]
  fired_eq := by
    have beyond : queue.cur ≤ slotOf g (event, deadline) := reached
    rw [orderedBelow_append_of_le beyond]
    exact history.fired_eq

/-- What a forward step releases are the classes between the two current slots:
earlier classes are no longer pending. -/
theorem History.released {g : Geometry} {accepted : List (T × Nat)} {fired : List T}
    {queue : DeadlineQueue T} (history : History g accepted fired queue) {target : Nat}
    (forward : queue.cur < target) :
    orderedBelow (slotOf g) target queue.pending =
      orderedFrom (slotOf g) queue.cur (target - queue.cur) accepted := by
  have early : orderedBelow (slotOf g) queue.cur queue.pending = [] := by
    apply List.eq_nil_iff_forall_not_mem.mpr
    intro entry member
    have listed := mem_orderedBelow.mp member
    rw [history.pending_eq] at listed
    have reached := (List.mem_filter.mp listed.1).2
    simp only [decide_eq_true_eq] at reached
    omega
  rw [orderedBelow_split (le_of_lt forward) queue.pending, early, List.nil_append]
  apply orderedFrom_congr
  intro k above _
  rw [history.pending_eq]
  apply keyClass_filter_of_kept
  intro entry _ same
  simpa [same] using above

/-- One release after another is one release up to the later slot.  This is what lets a run of
advances be stated by its last clock value. -/
theorem History.advance {g : Geometry} {accepted : List (T × Nat)} {fired : List T}
    {queue : DeadlineQueue T} (history : History g accepted fired queue) (now : Nat) :
    History g accepted (queue.advance g now fired).2 (queue.advance g now fired).1 := by
  by_cases backward : now / g.duration ≤ queue.cur
  · rw [advance_of_le backward]
    exact history
  · have forward := Nat.lt_of_not_le backward
    rw [advance_of_lt forward]
    refine ⟨?_, ?_⟩
    · rw [history.pending_eq, List.filter_filter]
      apply List.filter_congr
      intro entry _
      rw [Bool.eq_iff_iff]
      simp only [Bool.and_eq_true, decide_eq_true_eq]
      omega
    · rw [history.released forward, history.fired_eq, ← List.map_append,
        ← orderedBelow_split (le_of_lt forward) accepted]

end DeadlineQueue
end Queue
end Rfofs
