import Rfofs.Control.WeakRing

namespace Rfofs
namespace Control

open Foundation

/-!
# What the accesses of a ring preserve

The producer knows that the consumer has released the slot that it is about to write, the
consumer that the producer has published the slot that it is about to read.  What they know
is in their views: each counter that was loaded with acquire brings the knowledge of the
accesses that it covers.  `WeakInvariant` says so at each program counter, and that the slots
between the counters hold the items that have not been popped.
-/

/-! ## The invariant of the ring -/

section Invariant

variable {c : RingCapacity} {T : Type*} {base : Nat}

/-- What a producer knows at its program counter, when `count` items have been pushed.  Before
the store of the tail its item stands in the slot, unseen by the consumer. -/
def PushPc.Holds (base count : Nat) (view : View Counter Role) (cells : Fin c.cap → Cell Role T) :
    PushPc T → Prop
  | .idle => view.clock .producer = count
  | .loadedTail _ tail _ => tail = (base + count) % 2 ^ 64 ∧ view.clock .producer = count
  | .checked _ tail _ =>
      tail = (base + count) % 2 ^ 64 ∧ view.clock .producer = count ∧
        count < view.stamp .head + c.cap
  | .wrote item tail _ =>
      tail = (base + count) % 2 ^ 64 ∧ view.clock .producer = count + 1 ∧
        count < view.stamp .head + c.cap ∧
        (cells (c.index (base + count))).value = item ∧
        (cells (c.index (base + count))).writer = some (.producer, count + 1)

/-- What a consumer knows at its program counter, when `count` items have been popped. -/
def PopPc.Holds (base count : Nat) (view : View Counter Role) (pushed : List T) : PopPc T → Prop
  | .idle => view.clock .consumer = count
  | .loadedHead head => head = (base + count) % 2 ^ 64 ∧ view.clock .consumer = count
  | .checked head =>
      head = (base + count) % 2 ^ 64 ∧ view.clock .consumer = count ∧ count < view.stamp .tail
  | .read head item =>
      head = (base + count) % 2 ^ 64 ∧ view.clock .consumer = count + 1 ∧
        count < view.stamp .tail ∧ pushed[count]? = some item

/-- Every slot was last written by the producer and last read by the consumer, and the
slots between the counters hold the items that have not been popped. -/
structure Slots (base : Nat) (pushed : List T) (popped : Nat) (views : Role → View Counter Role)
    (cells : Fin c.cap → Cell Role T) : Prop where
  writers : ∀ l epoch, (cells l).writer = some epoch →
    epoch.1 = .producer ∧ epoch.2 ≤ (views .producer).clock .producer
  unread : ∀ l, (cells l).readers .producer = 0
  readers : ∀ l, (cells l).readers .consumer = 0 ∨ ∃ j, (cells l).readers .consumer = j + 1 ∧
    c.index (base + j) = l ∧ j < (views .consumer).clock .consumer
  content : ∀ j item, popped ≤ j → pushed[j]? = some item →
    (cells (c.index (base + j))).value = item ∧
      (cells (c.index (base + j))).writer = some (.producer, j + 1)

/-- The counters, the slots, and what the two parties know.  The number of items stays within
the capacity, although both parties may work with old values. -/
structure WeakInvariant (base : Nat) (s : WeakRing c T) : Prop where
  counters : Counters base s.count s.memory
  delivered : s.popped <+: s.pushed
  room : s.pushed.length ≤ (s.memory.views .producer).stamp .head + c.cap
  behind : s.popped.length ≤ (s.memory.views .consumer).stamp .tail
  slots : Slots base s.pushed s.popped.length s.memory.views s.memory.cells
  producer : s.producer.Holds base s.pushed.length (s.memory.views .producer) s.memory.cells
  consumer : s.consumer.Holds base s.popped.length (s.memory.views .consumer) s.pushed

namespace WeakInvariant

variable {s : WeakRing c T}

/-- The oldest head that the producer may still work with.  An old head makes the ring look
fuller than it is. -/
theorem head_le (inv : WeakInvariant base s) :
    (s.memory.views .producer).stamp .head ≤ s.popped.length :=
  inv.counters.stamp_le .producer .head

/-- The oldest tail that the consumer may still work with.  An old tail makes the ring look
emptier than it is. -/
theorem tail_le (inv : WeakInvariant base s) :
    (s.memory.views .consumer).stamp .tail ≤ s.pushed.length :=
  inv.counters.stamp_le .consumer .tail

theorem bounded (inv : WeakInvariant base s) : s.pushed.length ≤ s.popped.length + c.cap :=
  inv.room.trans (Nat.add_le_add_right inv.head_le _)

/-- A producer that has found room knows of all accesses to the slot it will write.  The head
that it has loaded covers the last read of this slot. -/
theorem writeSafe (inv : WeakInvariant base s) {item : T} {tail seen : Nat}
    (at_pc : s.producer = .checked item tail seen) :
    s.memory.WriteSafe .producer (c.index tail) := by
  have holds := inv.producer
  rw [at_pc] at holds
  rcases holds with ⟨rfl, _, room⟩
  rw [c.index_mod]
  constructor
  · rintro ⟨writer, count⟩ found
    rcases inv.slots.writers _ _ found with ⟨rfl, known⟩
    exact known
  · rintro (_ | _)
    · change (s.memory.cells _).readers .producer ≤ _
      rw [inv.slots.unread]
      exact Nat.zero_le _
    · change (s.memory.cells _).readers .consumer ≤ _
      rcases inv.slots.readers (c.index (base + s.pushed.length)) with none | ⟨j, last, same, read⟩
      · rw [none]
        exact Nat.zero_le _
      · rw [last]
        have passed : j < s.pushed.length := by
          have ordered := inv.delivered.length_le
          have holds := inv.consumer
          cases pc : s.consumer with
          | read head item =>
              rw [pc] at holds
              have ahead := holds.2.2.1.trans_le inv.tail_le
              rw [holds.2.1] at read
              omega
          | idle =>
              rw [pc] at holds
              rw [holds] at read
              omega
          | loadedHead head =>
              rw [pc] at holds
              rw [holds.2] at read
              omega
          | checked head =>
              rw [pc] at holds
              rw [holds.2.1] at read
              omega
        have round : base + j + c.cap ≤ base + s.pushed.length := by
          by_contra near
          exact c.index_ne (by omega) (by omega) same
        have informed := inv.counters.informed .producer .head
        change (s.memory.views .producer).stamp .head ≤
          (s.memory.views .producer).clock .consumer at informed
        change j + 1 ≤ (s.memory.views .producer).clock .consumer
        omega

/-- The slot that a consumer has found published, and that it knows of.  It holds the next
item. -/
theorem published (inv : WeakInvariant base s) {head : Nat} (at_pc : s.consumer = .checked head) :
    ∃ item, s.pushed[s.popped.length]? = some item ∧
      (s.memory.cells (c.index head)).value = item ∧
      s.memory.ReadSafe .consumer (c.index head) := by
  have holds := inv.consumer
  rw [at_pc] at holds
  rcases holds with ⟨rfl, _, ahead⟩
  have inside := ahead.trans_le inv.tail_le
  have found := List.getElem?_eq_getElem inside
  rcases inv.slots.content _ _ (Nat.le_refl _) found with ⟨value, writer⟩
  rw [c.index_mod]
  refine ⟨_, found, value, ?_⟩
  intro epoch listed
  rw [writer, Option.mem_some_iff] at listed
  rw [← listed]
  have informed := inv.counters.informed .consumer .tail
  exact ahead.trans_le informed

/-! ## Steps -/

theorem start (initial : (weakSystem c T base).init s) : WeakInvariant base s := by
  rcases initial with ⟨word, ⟨fill, memory⟩, producer, consumer, pushed, popped⟩
  rcases s with ⟨_, _, _, _, _⟩
  dsimp only at memory producer consumer pushed popped
  subst memory producer consumer pushed popped
  have count : WeakRing.count (⟨freshMemory c base fill, .idle, .idle, [], []⟩ : WeakRing c T) =
      fun _ => 0 := by
    funext a
    cases a <;> rfl
  refine ⟨?_, List.nil_prefix, Nat.zero_le _, Nat.le_refl 0, ⟨?_, fun _ => rfl, fun _ => Or.inl rfl,
    ?_⟩, rfl, rfl⟩
  · rw [count]
    exact Counters.fresh word fill
  · intro l epoch found
    cases found
  · intro j item _ found
    cases found

/-- The producer has loaded a counter.  Its knowledge grows. -/
theorem loadProducer (inv : WeakInvariant base s) {a : Counter} {t : Nat} {next : RingMemory c T}
    (counters : Counters base s.count next)
    (loaded : Counters.Loaded s.memory next .producer a t) {pc : PushPc T}
    (holds : pc.Holds base s.pushed.length (next.views .producer) s.memory.cells) :
    WeakInvariant base { s with memory := next, producer := pc } where
  counters := counters
  delivered := inv.delivered
  room := inv.room.trans (Nat.add_le_add_right (loaded.stamp .head) _)
  behind := by
    rw [loaded.others .consumer (by decide)]
    exact inv.behind
  slots := by
    change Slots base s.pushed s.popped.length next.views next.cells
    rw [loaded.cells]
    refine ⟨fun l epoch found => ?_, inv.slots.unread, fun l => ?_, inv.slots.content⟩
    · rw [loaded.own]
      exact inv.slots.writers l epoch found
    · rw [loaded.others .consumer (by decide)]
      exact inv.slots.readers l
  producer := by
    change PushPc.Holds base _ _ next.cells pc
    rw [loaded.cells]
    exact holds
  consumer := by
    change PopPc.Holds base _ (next.views .consumer) _ s.consumer
    rw [loaded.others .consumer (by decide)]
    exact inv.consumer

/-- The consumer has loaded a counter. -/
theorem loadConsumer (inv : WeakInvariant base s) {a : Counter} {t : Nat} {next : RingMemory c T}
    (counters : Counters base s.count next)
    (loaded : Counters.Loaded s.memory next .consumer a t) {pc : PopPc T}
    (holds : pc.Holds base s.popped.length (next.views .consumer) s.pushed) :
    WeakInvariant base { s with memory := next, consumer := pc } where
  counters := counters
  delivered := inv.delivered
  room := by
    rw [loaded.others .producer (by decide)]
    exact inv.room
  behind := inv.behind.trans (loaded.stamp .tail)
  slots := by
    change Slots base s.pushed s.popped.length next.views next.cells
    rw [loaded.cells]
    refine ⟨fun l epoch found => ?_, inv.slots.unread, fun l => ?_, inv.slots.content⟩
    · rw [loaded.others .producer (by decide)]
      exact inv.slots.writers l epoch found
    · rw [loaded.own]
      exact inv.slots.readers l
  producer := by
    change PushPc.Holds base _ (next.views .producer) next.cells s.producer
    rw [loaded.others .producer (by decide), loaded.cells]
    exact inv.producer
  consumer := holds

/-- The producer loads its own counter: it gets the newest value. -/
theorem pushLoadTail (inv : WeakInvariant base s) (at_pc : s.producer = .idle) {item : T}
    {t value : Nat} {next : RingMemory c T}
    (loaded : s.memory.load .producer .tail .relaxed t = some (value, next)) :
    WeakInvariant base
      { s with memory := next, producer := .loadedTail item value s.pushed.length } := by
  have holds := inv.producer
  rw [at_pc] at holds
  rcases inv.counters.load loaded (Or.inr rfl) with ⟨counters, knowledge, inside, same⟩
  have newest : (s.memory.views .producer).stamp .tail = s.pushed.length :=
    inv.counters.newest .tail
  have recent := knowledge.recent
  have last : t = s.pushed.length := Nat.le_antisymm inside (newest ▸ recent)
  refine inv.loadProducer counters knowledge ⟨?_, knowledge.own.trans holds⟩
  rw [same, last]

/-- The producer loads some head.  With an old one it may refuse an item for which there is
room. -/
theorem pushLoadHead (inv : WeakInvariant base s) {item : T} {tail seen : Nat}
    (at_pc : s.producer = .loadedTail item tail seen) {t value : Nat} {next : RingMemory c T}
    (loaded : s.memory.load .producer .head .acquire t = some (value, next)) :
    WeakInvariant base { s with memory := next, producer := .idle } ∧
      (¬ c.cap ≤ wrappingSub 64 tail value →
        WeakInvariant base { s with memory := next, producer := .checked item tail seen }) := by
  have holds := inv.producer
  rw [at_pc] at holds
  rcases holds with ⟨rfl, clock⟩
  rcases inv.counters.load loaded (Or.inl rfl) with ⟨counters, knowledge, inside, rfl⟩
  have own := knowledge.own.trans clock
  refine ⟨inv.loadProducer counters knowledge own, fun room => ?_⟩
  refine inv.loadProducer counters knowledge ⟨rfl, own, ?_⟩
  have popped : t ≤ s.popped.length := inside
  have ordered := inv.delivered.length_le
  have near := inv.room
  have recent := knowledge.recent
  have seen := knowledge.seen
  have fits := c.fits
  rw [wrappingSub_mod_of_lt (by omega) (by omega)] at room
  omega

theorem popLoadHead (inv : WeakInvariant base s) (at_pc : s.consumer = .idle) {t value : Nat}
    {next : RingMemory c T}
    (loaded : s.memory.load .consumer .head .relaxed t = some (value, next)) :
    WeakInvariant base { s with memory := next, consumer := .loadedHead value } := by
  have holds := inv.consumer
  rw [at_pc] at holds
  rcases inv.counters.load loaded (Or.inr rfl) with ⟨counters, knowledge, inside, same⟩
  have newest : (s.memory.views .consumer).stamp .head = s.popped.length :=
    inv.counters.newest .head
  have recent := knowledge.recent
  have last : t = s.popped.length := Nat.le_antisymm inside (newest ▸ recent)
  refine inv.loadConsumer counters knowledge ⟨?_, knowledge.own.trans holds⟩
  rw [same, last]

/-- The consumer loads some tail.  With an old one it may miss an item that has been
published. -/
theorem popLoadTail (inv : WeakInvariant base s) {head : Nat}
    (at_pc : s.consumer = .loadedHead head) {t value : Nat} {next : RingMemory c T}
    (loaded : s.memory.load .consumer .tail .acquire t = some (value, next)) :
    WeakInvariant base { s with memory := next, consumer := .idle } ∧
      (head ≠ value → WeakInvariant base { s with memory := next, consumer := .checked head }) := by
  have holds := inv.consumer
  rw [at_pc] at holds
  rcases holds with ⟨rfl, clock⟩
  rcases inv.counters.load loaded (Or.inl rfl) with ⟨counters, knowledge, inside, rfl⟩
  have own := knowledge.own.trans clock
  refine ⟨inv.loadConsumer counters knowledge own, fun different => ?_⟩
  refine inv.loadConsumer counters knowledge ⟨rfl, own, ?_⟩
  have pushed : t ≤ s.pushed.length := inside
  have behind := inv.behind
  have recent := knowledge.recent
  have seen := knowledge.seen
  have bounded := inv.bounded
  have fits := c.fits
  have apart : s.popped.length ≠ t := by
    rintro rfl
    exact different rfl
  omega

theorem pushWrite (inv : WeakInvariant base s) {item : T} {tail seen : Nat}
    (at_pc : s.producer = .checked item tail seen) :
    WeakInvariant base { s with
      memory := s.memory.write .producer (c.index tail) item
      producer := .wrote item tail seen } := by
  have holds := inv.producer
  rw [at_pc] at holds
  rcases holds with ⟨rfl, clock, room⟩
  rw [c.index_mod]
  have consumer_view : (s.memory.write .producer (c.index (base + s.pushed.length)) item).views
      .consumer = s.memory.views .consumer := Memory.setView_of_ne _ _ (by decide)
  have producer_view : (s.memory.write .producer (c.index (base + s.pushed.length)) item).views
      .producer = (s.memory.views .producer).tick .producer := Memory.setView_self _ _ _
  have written : (s.memory.write .producer (c.index (base + s.pushed.length)) item).cells =
      Function.update s.memory.cells (c.index (base + s.pushed.length))
        { s.memory.cells (c.index (base + s.pushed.length)) with
          value := item
          writer := some (.producer, s.pushed.length + 1) } := by
    rw [← clock]
    rfl
  refine ⟨inv.counters.tick rfl rfl, inv.delivered, ?_, ?_, ⟨?_, ?_, ?_, ?_⟩, ?_, ?_⟩
  · dsimp only
    rw [producer_view, View.tick_stamp]
    exact inv.room
  · dsimp only
    rw [consumer_view]
    exact inv.behind
  · intro l epoch found
    dsimp only at found ⊢
    rw [producer_view, View.tick_clock_self]
    rw [written] at found
    by_cases same : l = c.index (base + s.pushed.length)
    · subst same
      rw [Function.update_self] at found
      cases found
      exact ⟨rfl, Nat.succ_le_succ clock.ge⟩
    · rw [Function.update_of_ne same] at found
      rcases inv.slots.writers l epoch found with ⟨writer, known⟩
      exact ⟨writer, Nat.le_succ_of_le known⟩
  · intro l
    dsimp only
    rw [written]
    by_cases same : l = c.index (base + s.pushed.length)
    · subst same
      rw [Function.update_self]
      exact inv.slots.unread _
    · rw [Function.update_of_ne same]
      exact inv.slots.unread l
  · intro l
    dsimp only
    rw [written, consumer_view]
    by_cases same : l = c.index (base + s.pushed.length)
    · subst same
      rw [Function.update_self]
      exact inv.slots.readers _
    · rw [Function.update_of_ne same]
      exact inv.slots.readers l
  · intro j other unpopped found
    dsimp only at unpopped found ⊢
    rcases List.getElem?_eq_some_iff.mp found with ⟨inside, _⟩
    have head_le := inv.head_le
    have different : c.index (base + j) ≠ c.index (base + s.pushed.length) :=
      c.index_ne (by omega) (by omega)
    rw [written, Function.update_of_ne different]
    exact inv.slots.content j other unpopped found
  · dsimp only
    rw [producer_view, written]
    refine ⟨rfl, ?_, ?_, ?_, ?_⟩
    · rw [View.tick_clock_self, clock]
    · rw [View.tick_stamp]
      exact room
    · rw [Function.update_self]
    · rw [Function.update_self]
  · dsimp only
    rw [consumer_view]
    exact inv.consumer

theorem popRead (inv : WeakInvariant base s) {head : Nat} (at_pc : s.consumer = .checked head)
    (garbage : T) :
    WeakInvariant base { s with
      memory := (s.memory.read .consumer (c.index head) garbage).2
      consumer := .read head (s.memory.read .consumer (c.index head) garbage).1 } := by
  rcases inv.published at_pc with ⟨item, next, value, safe⟩
  have holds := inv.consumer
  rw [at_pc] at holds
  rcases holds with ⟨rfl, clock, ahead⟩
  have loaded : (s.memory.read .consumer (c.index ((base + s.popped.length) % 2 ^ 64)) garbage).1 =
      item := (if_pos safe).trans value
  rw [loaded]
  rw [c.index_mod]
  have producer_view : (s.memory.read .consumer (c.index (base + s.popped.length)) garbage).2.views
      .producer = s.memory.views .producer := Memory.setView_of_ne _ _ (by decide)
  have consumer_view : (s.memory.read .consumer (c.index (base + s.popped.length)) garbage).2.views
      .consumer = (s.memory.views .consumer).tick .consumer := Memory.setView_self _ _ _
  have marked : (s.memory.read .consumer (c.index (base + s.popped.length)) garbage).2.cells =
      Function.update s.memory.cells (c.index (base + s.popped.length))
        { s.memory.cells (c.index (base + s.popped.length)) with
          readers := Function.update (s.memory.cells (c.index (base + s.popped.length))).readers
            .consumer (s.popped.length + 1) } := by
    rw [← clock]
    rfl
  have kept : ∀ l,
      ((s.memory.read .consumer (c.index (base + s.popped.length)) garbage).2.cells l).value =
        (s.memory.cells l).value ∧
      ((s.memory.read .consumer (c.index (base + s.popped.length)) garbage).2.cells l).writer =
        (s.memory.cells l).writer := by
    intro l
    rw [marked]
    by_cases same : l = c.index (base + s.popped.length)
    · subst same
      rw [Function.update_self]
      exact ⟨rfl, rfl⟩
    · rw [Function.update_of_ne same]
      exact ⟨rfl, rfl⟩
  have readers_self :
      ((s.memory.read .consumer (c.index (base + s.popped.length)) garbage).2.cells
        (c.index (base + s.popped.length))).readers =
      Function.update (s.memory.cells (c.index (base + s.popped.length))).readers .consumer
        (s.popped.length + 1) := by
    rw [marked, Function.update_self]
  have readers_of_ne : ∀ l, l ≠ c.index (base + s.popped.length) →
      ((s.memory.read .consumer (c.index (base + s.popped.length)) garbage).2.cells l).readers =
        (s.memory.cells l).readers := by
    intro l different
    rw [marked, Function.update_of_ne different]
  refine ⟨inv.counters.tick rfl rfl, inv.delivered, ?_, ?_, ⟨?_, ?_, ?_, ?_⟩, ?_, ?_⟩
  · dsimp only
    rw [producer_view]
    exact inv.room
  · dsimp only
    rw [consumer_view, View.tick_stamp]
    exact inv.behind
  · intro l epoch found
    dsimp only at found ⊢
    rw [(kept l).2] at found
    rw [producer_view]
    exact inv.slots.writers l epoch found
  · intro l
    dsimp only
    by_cases same : l = c.index (base + s.popped.length)
    · subst same
      rw [readers_self, Function.update_of_ne (by decide : Role.producer ≠ .consumer)]
      exact inv.slots.unread _
    · rw [readers_of_ne l same]
      exact inv.slots.unread l
  · intro l
    dsimp only
    rw [consumer_view, View.tick_clock_self]
    by_cases same : l = c.index (base + s.popped.length)
    · subst same
      rw [readers_self, Function.update_self]
      exact Or.inr ⟨s.popped.length, rfl, rfl, Nat.lt_succ_of_le clock.ge⟩
    · rw [readers_of_ne l same]
      refine (inv.slots.readers l).imp id ?_
      rintro ⟨j, last, equal, read⟩
      exact ⟨j, last, equal, Nat.lt_succ_of_lt read⟩
  · intro j other unpopped found
    dsimp only at unpopped found ⊢
    rw [(kept _).1, (kept _).2]
    exact inv.slots.content j other unpopped found
  · dsimp only
    rw [producer_view]
    have holds := inv.producer
    cases pc : s.producer with
    | wrote other tail seen =>
        rw [pc] at holds
        refine ⟨holds.1, holds.2.1, holds.2.2.1, ?_, ?_⟩
        · rw [(kept _).1]
          exact holds.2.2.2.1
        · rw [(kept _).2]
          exact holds.2.2.2.2
    | _ =>
        rw [pc] at holds
        exact holds
  · dsimp only
    rw [consumer_view]
    refine ⟨rfl, ?_, ?_, next⟩
    · rw [View.tick_clock_self, clock]
    · rw [View.tick_stamp]
      exact ahead

theorem append_prefix {front whole : List T} {item : T} (delivered : front <+: whole)
    (next : whole[front.length]? = some item) : front ++ [item] <+: whole := by
  have longer : whole.take (front.length + 1) = front ++ [item] := by
    rw [List.take_add_one, next, ← List.prefix_iff_eq_take.mp delivered]
    rfl
  rw [← longer]
  exact List.take_prefix _ _

/-- The count of one counter goes up. -/
theorem count_pushed (item : T) (memory : RingMemory c T) (producer : PushPc T) :
    WeakRing.count { s with
      memory := memory
      producer := producer
      pushed := s.pushed ++ [item] } =
    Function.update s.count .tail (s.pushed.length + 1) := by
  funext a
  cases a with
  | head => exact (Function.update_of_ne (by decide : Counter.head ≠ .tail) _ _).symm
  | tail =>
      rw [Function.update_self]
      exact List.length_append

theorem count_popped (item : T) (memory : RingMemory c T) (consumer : PopPc T) :
    WeakRing.count { s with
      memory := memory
      consumer := consumer
      popped := s.popped ++ [item] } =
    Function.update s.count .head (s.popped.length + 1) := by
  funext a
  cases a with
  | head =>
      rw [Function.update_self]
      exact List.length_append
  | tail => exact (Function.update_of_ne (by decide : Counter.tail ≠ .head) _ _).symm

theorem pushStore (inv : WeakInvariant base s) {item : T} {tail seen : Nat}
    (at_pc : s.producer = .wrote item tail seen) :
    WeakInvariant base { s with
      memory := s.memory.store .producer .tail .release (wrappingAdd 64 tail 1)
      producer := .idle
      pushed := s.pushed ++ [item] } := by
  have holds := inv.producer
  rw [at_pc] at holds
  rcases holds with ⟨rfl, clock, room, value, writer⟩
  have longer : (s.pushed ++ [item]).length = s.pushed.length + 1 := List.length_append
  have increased : wrappingAdd 64 ((base + s.pushed.length) % 2 ^ 64) 1 =
      (base + (s.count .tail + 1)) % 2 ^ 64 := by
    rw [wrappingAdd_mod, Nat.add_assoc]
    rfl
  have counters := inv.counters.store .tail increased clock.ge
  have consumer_view : (s.memory.store .producer .tail .release
      (wrappingAdd 64 ((base + s.pushed.length) % 2 ^ 64) 1)).views .consumer =
      s.memory.views .consumer := Memory.setView_of_ne _ _ (by decide)
  have producer_view : (s.memory.store .producer .tail .release
      (wrappingAdd 64 ((base + s.pushed.length) % 2 ^ 64) 1)).views .producer =
      (s.memory.views .producer).witness .tail (s.memory.history .tail).length :=
    Memory.setView_self _ _ _
  have stamp : ((s.memory.views .producer).witness .tail (s.memory.history .tail).length).stamp
      .head = (s.memory.views .producer).stamp .head :=
    View.witness_stamp_of_ne _ _ (by decide)
  refine ⟨?_, inv.delivered.trans (List.prefix_append _ _), ?_, ?_, ⟨?_, inv.slots.unread, ?_, ?_⟩,
    ?_, ?_⟩
  · rw [count_pushed]
    exact counters
  · dsimp only
    rw [producer_view, stamp, longer]
    exact room
  · dsimp only
    rw [consumer_view]
    exact inv.behind
  · dsimp only
    rw [producer_view]
    exact inv.slots.writers
  · dsimp only
    rw [consumer_view]
    exact inv.slots.readers
  · intro j other unpopped found
    dsimp only at found ⊢
    by_cases old : j < s.pushed.length
    · rw [List.getElem?_append_left old] at found
      exact inv.slots.content j other unpopped found
    · have inside := (List.getElem?_eq_some_iff.mp found).1
      have last : j = s.pushed.length := by omega
      subst last
      rw [List.getElem?_concat_length] at found
      cases found
      exact ⟨value, writer⟩
  · dsimp only
    rw [producer_view]
    exact clock.trans longer.symm
  · dsimp only
    rw [consumer_view]
    have holds := inv.consumer
    cases pc : s.consumer with
    | read head other =>
        rw [pc] at holds
        refine ⟨holds.1, holds.2.1, holds.2.2.1, ?_⟩
        rcases List.getElem?_eq_some_iff.mp holds.2.2.2 with ⟨inside, _⟩
        rw [List.getElem?_append_left inside]
        exact holds.2.2.2
    | _ =>
        rw [pc] at holds
        exact holds

theorem popStore (inv : WeakInvariant base s) {head : Nat} {item : T}
    (at_pc : s.consumer = .read head item) :
    WeakInvariant base { s with
      memory := s.memory.store .consumer .head .release (wrappingAdd 64 head 1)
      consumer := .idle
      popped := s.popped ++ [item] } := by
  have holds := inv.consumer
  rw [at_pc] at holds
  rcases holds with ⟨rfl, clock, ahead, next⟩
  have longer : (s.popped ++ [item]).length = s.popped.length + 1 := List.length_append
  have increased : wrappingAdd 64 ((base + s.popped.length) % 2 ^ 64) 1 =
      (base + (s.count .head + 1)) % 2 ^ 64 := by
    rw [wrappingAdd_mod, Nat.add_assoc]
    rfl
  have counters := inv.counters.store .head increased clock.ge
  have producer_view : (s.memory.store .consumer .head .release
      (wrappingAdd 64 ((base + s.popped.length) % 2 ^ 64) 1)).views .producer =
      s.memory.views .producer := Memory.setView_of_ne _ _ (by decide)
  have consumer_view : (s.memory.store .consumer .head .release
      (wrappingAdd 64 ((base + s.popped.length) % 2 ^ 64) 1)).views .consumer =
      (s.memory.views .consumer).witness .head (s.memory.history .head).length :=
    Memory.setView_self _ _ _
  have stamp : ((s.memory.views .consumer).witness .head (s.memory.history .head).length).stamp
      .tail = (s.memory.views .consumer).stamp .tail :=
    View.witness_stamp_of_ne _ _ (by decide)
  refine ⟨?_, append_prefix inv.delivered next, ?_, ?_,
    ⟨?_, inv.slots.unread, ?_, ?_⟩, ?_, ?_⟩
  · rw [count_popped]
    exact counters
  · dsimp only
    rw [producer_view]
    exact inv.room
  · dsimp only
    rw [consumer_view, stamp, longer]
    exact ahead
  · dsimp only
    rw [producer_view]
    exact inv.slots.writers
  · dsimp only
    rw [consumer_view]
    exact inv.slots.readers
  · intro j other unpopped found
    dsimp only at unpopped found ⊢
    rw [longer] at unpopped
    exact inv.slots.content j other (Nat.le_of_succ_le unpopped) found
  · dsimp only
    rw [producer_view]
    have holds := inv.producer
    cases pc : s.producer with
    | _ =>
        rw [pc] at holds
        exact holds
  · dsimp only
    rw [consumer_view]
    exact clock.trans longer.symm

/-- What one access preserves.  There is one case for each program counter. -/
theorem access (inv : WeakInvariant base s) {label : WeakAccess T} {next : WeakRing c T}
    {answer : Option (RingAnswer T)} (taken : s.access label = some (next, answer)) :
    WeakInvariant base next := by
  cases WeakRing.does_of_access taken with
  | loadTail item t value memory at_pc loaded => exact inv.pushLoadTail at_pc loaded
  | refuse item tail seen t value memory at_pc loaded full =>
      exact (inv.pushLoadHead at_pc loaded).1
  | check item tail seen t value memory at_pc loaded room =>
      exact (inv.pushLoadHead at_pc loaded).2 room
  | write item tail seen at_pc => exact inv.pushWrite at_pc
  | publish item tail seen at_pc => exact inv.pushStore at_pc
  | loadHead t value memory at_pc loaded => exact inv.popLoadHead at_pc loaded
  | miss head t memory at_pc loaded => exact (inv.popLoadTail at_pc loaded).1
  | find head t value memory at_pc loaded different =>
      exact (inv.popLoadTail at_pc loaded).2 different
  | read head garbage at_pc => exact inv.popRead at_pc garbage
  | release head item at_pc => exact inv.popStore at_pc

/-- By induction on the accesses, whatever messages the loads read. -/
theorem reachable (reached : (weakSystem c T base).Reachable s) : WeakInvariant base s := by
  apply reached.invariant
  · intro s initial
    exact start initial
  · intro s label next inv _ stepped
    rcases Option.map_eq_some_iff.mp stepped with ⟨⟨_, answer⟩, taken, rfl⟩
    exact inv.access taken

end WeakInvariant

end Invariant

end Control
end Rfofs
