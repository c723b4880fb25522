import Rfofs.Control.WeakRingSteps

namespace Rfofs
namespace Control

open Foundation

/-!
# The ring is a bounded buffer

Every access of the ring on weak memory does to a bounded buffer what its answer says.  A
call that works with an old counter of the other party may refuse an item, or miss one, that
the buffer would have taken or given; it never does anything else.
-/

/-! ## The bounded buffer -/

section Buffer

variable {c : RingCapacity} {T : Type*} {base : Nat} {s : WeakRing c T}

/-- The items in the ring: published and not yet released. -/
def WeakRing.contents (s : WeakRing c T) : List T := s.pushed.drop s.popped.length

/-- The bounded buffer that a ring stands for.  It is a function of the state of the ring. -/
def WeakInvariant.fifo (inv : WeakInvariant base s) : BoundedFifo T where
  capacity := c.cap
  items := s.contents
  bounded := by
    have bounded := inv.bounded
    rw [WeakRing.contents, List.length_drop]
    omega

/-- An access that reads no old value of the other counter. -/
def WeakRing.Newest (s : WeakRing c T) : WeakAccess T → Prop
  | .pushLoadHead t => t = s.popped.length
  | .popLoadTail t => t = s.pushed.length
  | _ => True

/-- What the bounded buffer does at an access.  With an old counter a call may refuse an
item, or miss one, that a fresh one would have taken. -/
def Serves (fresh : Prop) (before after : BoundedFifo T) : Option (RingAnswer T) → Prop
  | some (.pushErr item) => after = before ∧ (fresh → before.push item = .error item)
  | some .popNone => after = before ∧ (fresh → before.pop = none)
  | answer => Linearizes before after answer

namespace WeakInvariant

/-- A refusal means that the ring is full by the head that was read: as many items as it
holds have been pushed beyond it.  The head may be an old one. -/
theorem refused (inv : WeakInvariant base s) {item : T} {tail seen : Nat}
    (at_pc : s.producer = .loadedTail item tail seen) {t value : Nat} {memory : RingMemory c T}
    (loaded : s.memory.load .producer .head .acquire t = some (value, memory))
    (full : c.cap ≤ wrappingSub 64 tail value) :
    s.pushed.length = t + c.cap ∧ t ≤ s.popped.length := by
  have holds := inv.producer
  rw [at_pc] at holds
  rcases holds with ⟨rfl, _⟩
  rcases inv.counters.load loaded (Or.inl rfl) with ⟨_, knowledge, inside, rfl⟩
  have popped : t ≤ s.popped.length := inside
  have ordered := inv.delivered.length_le
  have near := inv.room
  have recent := knowledge.recent
  have fits := c.fits
  rw [wrappingSub_mod_of_lt (by omega) (by omega)] at full
  omega

/-- A missing item means that the ring is empty by the tail that was read: all items that it
covers have been popped.  The tail may be an old one. -/
theorem missing (inv : WeakInvariant base s) {head : Nat} (at_pc : s.consumer = .loadedHead head)
    {t : Nat} {memory : RingMemory c T}
    (loaded : s.memory.load .consumer .tail .acquire t = some (head, memory)) :
    t = s.popped.length := by
  have holds := inv.consumer
  rw [at_pc] at holds
  rcases inv.counters.load loaded (Or.inl rfl) with ⟨_, knowledge, inside, same⟩
  have pushed : t ≤ s.pushed.length := inside
  have behind := inv.behind
  have recent := knowledge.recent
  have bounded := inv.bounded
  have fits := c.fits
  have congruent : (base + s.popped.length) % 2 ^ 64 = (base + t) % 2 ^ 64 :=
    holds.1.symm.trans same
  have equal := (mod_eq_mod_iff_of_near (by omega) (by omega)).mp congruent
  omega

/-- Every access does to the bounded buffer what its answer says. -/
theorem serves (inv : WeakInvariant base s) {label : WeakAccess T} {next : WeakRing c T}
    {answer : Option (RingAnswer T)} (taken : s.access label = some (next, answer))
    (nextInv : WeakInvariant base next) :
    Serves (s.Newest label) inv.fifo nextInv.fifo answer := by
  have ordered := inv.delivered.length_le
  cases WeakRing.does_of_access taken with
  | loadTail | check | write | loadHead | find | read => rfl
  | refuse item tail seen t value memory at_pc loaded full =>
      refine ⟨rfl, fun fresh => BoundedFifo.push_eq_error ?_ item⟩
      change t = s.popped.length at fresh
      change s.contents.length = c.cap
      have same := (inv.refused at_pc loaded full).1
      rw [WeakRing.contents, List.length_drop]
      omega
  | publish item tail seen at_pc =>
      have holds := inv.producer
      rw [at_pc] at holds
      have room := holds.2.2.1
      have head_le := inv.head_le
      refine BoundedFifo.push_eq_ok ?_ rfl ?_
      · change s.contents.length < c.cap
        rw [WeakRing.contents, List.length_drop]
        omega
      · change (s.pushed ++ [item]).drop s.popped.length = s.contents ++ [item]
        rw [List.drop_append_of_le_length ordered]
        rfl
  | miss head t memory at_pc loaded =>
      refine ⟨rfl, fun fresh => BoundedFifo.pop_eq_none.mpr ?_⟩
      change t = s.pushed.length at fresh
      have same := inv.missing at_pc loaded
      exact List.drop_eq_nil_of_le (by omega)
  | release head item at_pc =>
      have holds := inv.consumer
      rw [at_pc] at holds
      refine BoundedFifo.pop_eq rfl ?_
      rcases List.getElem?_eq_some_iff.mp holds.2.2.2 with ⟨inside, equal⟩
      change s.pushed.drop s.popped.length = item :: s.pushed.drop (s.popped ++ [item]).length
      rw [List.length_append, List.length_singleton, List.drop_eq_getElem_cons inside, equal]

end WeakInvariant

/-- A ring without races: a producer that is about to write knows of every access to its
slot, a consumer that is about to read of the write to its slot.  The ring is a bounded
buffer that refuses an item where it is full by the head that was read, and misses one where
it is empty by the tail that was read.  With the newest counter this is so of the buffer
itself; with an old one the buffer may have room, or an item, that the call does not see. -/
structure RaceFree (base : Nat) (s : WeakRing c T) : Prop where
  writes : ∀ item tail seen, s.producer = .checked item tail seen →
    s.memory.WriteSafe .producer (c.index tail)
  reads : ∀ head, s.consumer = .checked head → s.memory.ReadSafe .consumer (c.index head)
  delivered : s.popped <+: s.pushed
  bounded : s.pushed.length ≤ s.popped.length + c.cap
  refused : ∀ t next item, s.access (.pushLoadHead t) = some (next, some (.pushErr item)) →
    s.pushed.length = t + c.cap ∧ t ≤ s.popped.length
  missing : ∀ t next, s.access (.popLoadTail t) = some (next, some .popNone) →
    t = s.popped.length
  serves : ∃ fifo : BoundedFifo T, fifo.capacity = c.cap ∧ fifo.items = s.contents ∧
    ∀ label next answer, s.access label = some (next, answer) →
      ∃ nextFifo : BoundedFifo T, nextFifo.capacity = c.cap ∧
        nextFifo.items = next.contents ∧ Serves (s.Newest label) fifo nextFifo answer

/-- With the orderings of the code one producer and one consumer never race, whichever
old values their loads return. -/
theorem ring_race_free (c : RingCapacity) (T : Type*) (base : Nat) (s : WeakRing c T)
    (reached : (weakSystem c T base).Reachable s) : RaceFree base s := by
  have inv := WeakInvariant.reachable reached
  refine ⟨fun item tail seen at_pc => inv.writeSafe at_pc, ?_, inv.delivered, inv.bounded, ?_, ?_,
    inv.fifo, rfl, rfl, ?_⟩
  · intro head at_pc
    rcases inv.published at_pc with ⟨_, _, _, safe⟩
    exact safe
  · intro t next item taken
    cases WeakRing.does_of_access taken with
    | refuse _ _ _ _ _ _ at_pc loaded full => exact inv.refused at_pc loaded full
  · intro t next taken
    cases WeakRing.does_of_access taken with
    | miss _ _ _ at_pc loaded => exact inv.missing at_pc loaded
  · intro label next answer taken
    exact ⟨(inv.access taken).fifo, rfl, rfl, inv.serves taken (inv.access taken)⟩

/-- A consumer that misses the item because it reads the old tail, and then finds it. -/
theorem ring_race_free_stale :
    RaceFree (2 ^ 64 - 1) (perform weakStep (weakStart killCap (2 ^ 64 - 1) 0)
      [.popLoadHead 0, .pushLoadTail 7 0, .pushLoadHead 0, .pushWrite, .pushStore, .popLoadTail 0,
        .popLoadHead 0, .popLoadTail 1]) :=
  ring_race_free killCap Nat (2 ^ 64 - 1) _
    ((weakStart_reachable killCap (by decide) 0).perform _)

end Buffer

end Control
end Rfofs
