import Mathlib

namespace Rfofs
namespace Queue

/-!
# The timing wheel

A single-level wheel of slots, each spanning `slotDuration` samples and holding
at most `slotCapacity` events.  The array of slots is reused cyclically: the slot
counter `slotIndex` is absolute, and `slotIndex % nSlots` is the array position
of the slot at the read head.

The wheel is generic in its events.  It is given the deadline of an event once,
when the event is scheduled, and stores only the event; which deadline a stored
event had is a matter for the refinement in `WheelRefinement`.

Clock values are natural numbers here.  The checked twins of the two operations,
which fail where 64-bit arithmetic would overflow, are defined beside the
refinement and shown to agree.
-/

variable {T : Type*}

/-- Why `schedule` rejected an event: its slot has elapsed, it lies beyond the horizon, or its
slot holds as many events as it may. -/
inductive RejectReason where
  | tooLate
  | tooEarly
  | slotFull
  deriving DecidableEq, Repr

/-- The two positivity fields are the assertions of the constructor, so that no call has to
check the divisors again. -/
structure Wheel (T : Type*) where
  slots : List (List T)
  slotDuration : Nat
  slotCapacity : Nat
  slotIndex : Nat
  slots_pos : 0 < slots.length
  slotDuration_pos : 0 < slotDuration

namespace Wheel

/-- All slots start empty, and the read head stands on slot zero. -/
def new (nSlots slotDuration slotCapacity : Nat) (slots_pos : 0 < nSlots)
    (slotDuration_pos : 0 < slotDuration) : Wheel T where
  slots := List.replicate nSlots []
  slotDuration := slotDuration
  slotCapacity := slotCapacity
  slotIndex := 0
  slots_pos := by simpa using slots_pos
  slotDuration_pos := slotDuration_pos

/-- The array is never resized, so its length is the number of slots. -/
def nSlots (self : Wheel T) : Nat := self.slots.length

/-- Events sitting in the wheel, scheduled but not yet fired. -/
def len (self : Wheel T) : Nat := (self.slots.map List.length).sum

/-- Start of the interval of the slot at the read head. -/
def wheelTime (self : Wheel T) : Nat := self.slotIndex * self.slotDuration

/-- Span of the wheel: the furthest offset (exclusive) it accepts. -/
def horizon (self : Wheel T) : Nat := self.nSlots * self.slotDuration

/-- The contents of one array position.  Positions beyond the array do not occur below,
because every index is reduced modulo `nSlots`. -/
def slot (self : Wheel T) (idx : Nat) : List T := self.slots.getD idx []

/-- Replace the contents of one array position. -/
def setSlot (self : Wheel T) (idx : Nat) (events : List T) : Wheel T :=
  { self with
    slots := self.slots.set idx events
    slots_pos := by simpa using self.slots_pos }

/-- Schedule `event` to fire when the clock passes the slot of `deadline`.  The
three refusals are tested in the order in which they stand, and each returns the
event unchanged. -/
def schedule (self : Wheel T) (event : T) (deadline : Nat) :
    Wheel T × Except (T × RejectReason) Nat :=
  let now := self.wheelTime
  if deadline < now then
    (self, .error (event, .tooLate))
  else
    let offset := deadline - now
    if self.horizon ≤ offset then
      (self, .error (event, .tooEarly))
    else
      let slotDelta := offset / self.slotDuration
      let idx := (self.slotIndex + slotDelta) % self.nSlots
      if self.slotCapacity ≤ (self.slot idx).length then
        (self, .error (event, .slotFull))
      else
        (self.setSlot idx (self.slot idx ++ [event]), .ok slotDelta)

/-- One turn of the draining loop: empty the `i`-th slot from the read head. -/
def drainSlot (self : Wheel T) (state : Wheel T × List T) (i : Nat) : Wheel T × List T :=
  let idx := (self.slotIndex + i) % self.nSlots
  (state.1.setSlot idx [], state.2 ++ state.1.slot idx)

/-- Advance the clock to `now`, appending every event whose slot has elapsed.  A
gap longer than one rotation visits every slot once and then jumps. -/
def advance (self : Wheel T) (now : Nat) (out : List T) : Wheel T × List T :=
  let targetIndex := now / self.slotDuration
  if targetIndex ≤ self.slotIndex then
    (self, out)
  else
    let steps := min (targetIndex - self.slotIndex) self.nSlots
    let drained := (List.range steps).foldl self.drainSlot (self, out)
    ({ drained.1 with slotIndex := targetIndex }, drained.2)

/-! ## Basic equations -/

@[simp] theorem new_slotIndex (n d m : Nat) (hn : 0 < n) (hd : 0 < d) :
    (new n d m hn hd : Wheel T).slotIndex = 0 := rfl

@[simp] theorem new_slotDuration (n d m : Nat) (hn : 0 < n) (hd : 0 < d) :
    (new n d m hn hd : Wheel T).slotDuration = d := rfl

@[simp] theorem new_slotCapacity (n d m : Nat) (hn : 0 < n) (hd : 0 < d) :
    (new n d m hn hd : Wheel T).slotCapacity = m := rfl

@[simp] theorem new_nSlots (n d m : Nat) (hn : 0 < n) (hd : 0 < d) :
    (new n d m hn hd : Wheel T).nSlots = n := by
  simp [new, nSlots]

@[simp] theorem new_slot (n d m : Nat) (hn : 0 < n) (hd : 0 < d) (idx : Nat) :
    (new n d m hn hd : Wheel T).slot idx = [] := by
  by_cases inside : idx < n <;> simp [new, slot, List.getD_eq_getElem?_getD, inside]

@[simp] theorem setSlot_slotIndex (self : Wheel T) (idx : Nat) (events : List T) :
    (self.setSlot idx events).slotIndex = self.slotIndex := rfl

@[simp] theorem setSlot_slotDuration (self : Wheel T) (idx : Nat) (events : List T) :
    (self.setSlot idx events).slotDuration = self.slotDuration := rfl

@[simp] theorem setSlot_slotCapacity (self : Wheel T) (idx : Nat) (events : List T) :
    (self.setSlot idx events).slotCapacity = self.slotCapacity := rfl

@[simp] theorem setSlot_nSlots (self : Wheel T) (idx : Nat) (events : List T) :
    (self.setSlot idx events).nSlots = self.nSlots := by
  simp [setSlot, nSlots]

theorem nSlots_pos (self : Wheel T) : 0 < self.nSlots := self.slots_pos

theorem setSlot_slot_self (self : Wheel T) {idx : Nat} (inside : idx < self.nSlots)
    (events : List T) : (self.setSlot idx events).slot idx = events := by
  have bound : idx < self.slots.length := inside
  simp [setSlot, slot, List.getD_eq_getElem?_getD, bound]

theorem setSlot_slot_of_ne (self : Wheel T) {idx other : Nat} (different : idx ≠ other)
    (events : List T) : (self.setSlot idx events).slot other = self.slot other := by
  simp [setSlot, slot, List.getD_eq_getElem?_getD, different]

/-! ## The branches of the two operations -/

/-- A deadline in a slot that has elapsed is refused, and the event comes back to the caller. -/
theorem schedule_of_late {self : Wheel T} {deadline : Nat} (late : deadline < self.wheelTime)
    (event : T) : self.schedule event deadline = (self, .error (event, .tooLate)) :=
  if_pos late

/-- A deadline from the horizon on is refused: its position is the one of an earlier slot. -/
theorem schedule_of_early {self : Wheel T} {deadline : Nat} (reached : self.wheelTime ≤ deadline)
    (early : self.horizon ≤ deadline - self.wheelTime) (event : T) :
    self.schedule event deadline = (self, .error (event, .tooEarly)) :=
  (if_neg (Nat.not_lt_of_le reached)).trans (if_pos early)

/-- Inside the window only the room of the slot decides.  The position is the one of the
absolute slot, and the answer is its distance from the read head. -/
theorem schedule_of_window {self : Wheel T} {deadline position : Nat}
    (reached : self.wheelTime ≤ deadline) (inside : deadline - self.wheelTime < self.horizon)
    (located : self.slotIndex + (deadline - self.wheelTime) / self.slotDuration = position)
    (event : T) :
    self.schedule event deadline =
      if self.slotCapacity ≤ (self.slot (position % self.nSlots)).length then
        (self, .error (event, .slotFull))
      else
        (self.setSlot (position % self.nSlots)
            (self.slot (position % self.nSlots) ++ [event]),
          .ok ((deadline - self.wheelTime) / self.slotDuration)) := by
  subst located
  exact (if_neg (Nat.not_lt_of_le reached)).trans (if_neg (Nat.not_le_of_lt inside))

/-- Everything one `schedule` can do to the array.  The lemmas below distinguish these
alternatives and do not unfold the function. -/
theorem schedule_cases (self : Wheel T) (event : T) (deadline : Nat) :
    (self.schedule event deadline = (self, .error (event, .tooLate)) ∧
      deadline < self.wheelTime) ∨
    (self.schedule event deadline = (self, .error (event, .tooEarly)) ∧
      self.wheelTime + self.horizon ≤ deadline) ∨
    self.schedule event deadline = (self, .error (event, .slotFull)) ∨
    ∃ idx slotDelta, self.schedule event deadline =
      (self.setSlot idx (self.slot idx ++ [event]), .ok slotDelta) := by
  by_cases late : deadline < self.wheelTime
  · exact Or.inl ⟨schedule_of_late late event, late⟩
  · have reached := Nat.le_of_not_lt late
    by_cases early : self.horizon ≤ deadline - self.wheelTime
    · exact Or.inr (Or.inl ⟨schedule_of_early reached early event, by omega⟩)
    · rw [schedule_of_window reached (Nat.lt_of_not_le early) rfl]
      split
      · exact Or.inr (Or.inr (Or.inl rfl))
      · exact Or.inr (Or.inr (Or.inr ⟨_, _, rfl⟩))

/-- Scheduling moves no clock. -/
theorem schedule_slotIndex (self : Wheel T) (event : T) (deadline : Nat) :
    (self.schedule event deadline).1.slotIndex = self.slotIndex := by
  rcases self.schedule_cases event deadline with
    ⟨equal, _⟩ | ⟨equal, _⟩ | equal | ⟨_, _, equal⟩ <;> simp [equal]

theorem schedule_wheelTime (self : Wheel T) (event : T) (deadline : Nat) :
    (self.schedule event deadline).1.wheelTime = self.wheelTime := by
  rcases self.schedule_cases event deadline with
    ⟨equal, _⟩ | ⟨equal, _⟩ | equal | ⟨_, _, equal⟩ <;> simp [equal, wheelTime]

theorem schedule_horizon (self : Wheel T) (event : T) (deadline : Nat) :
    (self.schedule event deadline).1.horizon = self.horizon := by
  rcases self.schedule_cases event deadline with
    ⟨equal, _⟩ | ⟨equal, _⟩ | equal | ⟨_, _, equal⟩ <;> simp [equal, horizon]

/-- A clock that has not left the current slot changes nothing, and neither does one that runs
backward. -/
theorem advance_of_le {self : Wheel T} {now : Nat}
    (backward : now / self.slotDuration ≤ self.slotIndex) (out : List T) :
    self.advance now out = (self, out) := if_pos backward

theorem advance_of_lt {self : Wheel T} {now : Nat}
    (forward : self.slotIndex < now / self.slotDuration) (out : List T) :
    self.advance now out =
      ({ ((List.range (min (now / self.slotDuration - self.slotIndex) self.nSlots)).foldl
            self.drainSlot (self, out)).1 with slotIndex := now / self.slotDuration },
        ((List.range (min (now / self.slotDuration - self.slotIndex) self.nSlots)).foldl
            self.drainSlot (self, out)).2) :=
  if_neg (Nat.not_le_of_lt forward)

/-- The turns of the loop only append to the buffer. -/
theorem drainSlot_foldl_out (self wheel : Wheel T) (out : List T) (positions : List Nat) :
    positions.foldl self.drainSlot (wheel, out) =
      ((positions.foldl self.drainSlot (wheel, [])).1,
        out ++ (positions.foldl self.drainSlot (wheel, [])).2) := by
  induction positions generalizing wheel out with
  | nil => rw [List.foldl_nil, List.foldl_nil, List.append_nil]
  | cons i positions ih =>
      rw [List.foldl_cons, List.foldl_cons, drainSlot, drainSlot, ih]
      have rest := ih (wheel.setSlot ((self.slotIndex + i) % self.nSlots) [])
        ([] ++ wheel.slot ((self.slotIndex + i) % self.nSlots))
      rw [rest, List.nil_append, List.append_assoc]

/-- What is already in `out` has no influence.  A caller may therefore be analysed with an
empty buffer. -/
theorem advance_out (self : Wheel T) (now : Nat) (out : List T) :
    self.advance now out = ((self.advance now []).1, out ++ (self.advance now []).2) := by
  by_cases backward : now / self.slotDuration ≤ self.slotIndex
  · rw [advance_of_le backward, advance_of_le backward, List.append_nil]
  · have forward := Nat.lt_of_not_le backward
    rw [advance_of_lt forward, advance_of_lt forward, drainSlot_foldl_out self self out]

/-- The array positions of the wheel, read head first. -/
theorem slots_eq_map_slot (self : Wheel T) :
    self.slots = (List.range self.nSlots).map self.slot := by
  apply List.ext_getElem
  · simp [nSlots]
  · intro idx inside _
    simp [slot, List.getD_eq_getElem?_getD, inside]

end Wheel
end Queue
end Rfofs
