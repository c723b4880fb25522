import Rfofs.Control.Ring
import Rfofs.Foundation.ReleaseAcquire

namespace Rfofs
namespace Control

open Foundation

/-!
# The ring on weak memory

The ring once more, with the orderings that the code gives its accesses: a party loads
its own counter relaxed and the other one with acquire, it stores its own counter with
release, and the slots are plain memory.  A load of the other counter may return any
value that the party has not seen superseded, so both sides work with old counters.

One producer and one consumer use the ring, as its documentation demands.  `Counters`
is what holds of the two counters alone: a party that has seen a counter knows of all
accesses of the other party that this counter covers.  From it the invariant of the
ring follows, and with it that no access to a slot ever races.
-/

/-- The two parties of a ring. -/
inductive Role where
  | producer
  | consumer
  deriving DecidableEq

/-- The two atomic words of a ring.  Each is stored by one party and loaded by both. -/
inductive Counter where
  | head
  | tail
  deriving DecidableEq

/-- The party that stores to a counter. -/
def Counter.role : Counter → Role
  | .head => .consumer
  | .tail => .producer

theorem Counter.role_injective {a b : Counter} (same : a.role = b.role) : a = b := by
  cases a <;> cases b <;> first | rfl | cases same

/-- The counters are atomic locations; the slots are plain ones, where an access may race. -/
abbrev RingMemory (c : RingCapacity) (T : Type*) := Memory Counter Role (Fin c.cap) Nat T

/-- The shared memory, the two parties, and beside them the items that were pushed and popped
so far. -/
structure WeakRing (c : RingCapacity) (T : Type*) where
  memory : RingMemory c T
  producer : PushPc T
  consumer : PopPc T
  pushed : List T
  popped : List T

/-- One access.  A load is given the message that it reads, and a read of a slot the
value that it returns if it races. -/
inductive WeakAccess (T : Type*) where
  | pushLoadTail (item : T) (message : Nat)
  | pushLoadHead (message : Nat)
  | pushWrite
  | pushStore
  | popLoadHead (message : Nat)
  | popLoadTail (message : Nat)
  | popRead (garbage : T)
  | popStore

namespace WeakRing

variable {c : RingCapacity} {T : Type*}

/-- One access, if its party is at the program counter of this access.  A load is given the
message that it reads, and fails if the party has seen a newer one. -/
def access (s : WeakRing c T) :
    WeakAccess T → Option (WeakRing c T × Option (RingAnswer T))
  | .pushLoadTail item t =>
      match s.producer with
      | .idle => (s.memory.load .producer .tail .relaxed t).map (fun loaded =>
          ({ s with
            memory := loaded.2
            producer := .loadedTail item loaded.1 s.pushed.length }, none))
      | _ => none
  | .pushLoadHead t =>
      match s.producer with
      | .loadedTail item tail seen =>
          (s.memory.load .producer .head .acquire t).map (fun loaded =>
            if c.cap ≤ wrappingSub 64 tail loaded.1 then
              ({ s with memory := loaded.2, producer := .idle }, some (.pushErr item))
            else
              ({ s with memory := loaded.2, producer := .checked item tail seen }, none))
      | _ => none
  | .pushWrite =>
      match s.producer with
      | .checked item tail seen =>
          some ({ s with
            memory := s.memory.write .producer (c.index tail) item
            producer := .wrote item tail seen }, none)
      | _ => none
  | .pushStore =>
      match s.producer with
      | .wrote item tail _ =>
          some ({ s with
            memory := s.memory.store .producer .tail .release (wrappingAdd 64 tail 1)
            producer := .idle
            pushed := s.pushed ++ [item] }, some (.pushOk item))
      | _ => none
  | .popLoadHead t =>
      match s.consumer with
      | .idle => (s.memory.load .consumer .head .relaxed t).map (fun loaded =>
          ({ s with memory := loaded.2, consumer := .loadedHead loaded.1 }, none))
      | _ => none
  | .popLoadTail t =>
      match s.consumer with
      | .loadedHead head =>
          (s.memory.load .consumer .tail .acquire t).map (fun loaded =>
            if head = loaded.1 then
              ({ s with memory := loaded.2, consumer := .idle }, some .popNone)
            else
              ({ s with memory := loaded.2, consumer := .checked head }, none))
      | _ => none
  | .popRead garbage =>
      match s.consumer with
      | .checked head =>
          let loaded := s.memory.read .consumer (c.index head) garbage
          some ({ s with memory := loaded.2, consumer := .read head loaded.1 }, none)
      | _ => none
  | .popStore =>
      match s.consumer with
      | .read head item =>
          some ({ s with
            memory := s.memory.store .consumer .head .release (wrappingAdd 64 head 1)
            consumer := .idle
            popped := s.popped ++ [item] }, some (.popSome item))
      | _ => none

/-- What one access does, with the program counter, the message and the test that allow
it. -/
inductive Does (s : WeakRing c T) :
    WeakAccess T → WeakRing c T → Option (RingAnswer T) → Prop
  | loadTail (item : T) (t value : Nat) (memory : RingMemory c T) (at_pc : s.producer = .idle)
      (loaded : s.memory.load .producer .tail .relaxed t = some (value, memory)) :
      Does s (.pushLoadTail item t)
        { s with memory := memory, producer := .loadedTail item value s.pushed.length } none
  | refuse (item : T) (tail seen t value : Nat) (memory : RingMemory c T)
      (at_pc : s.producer = .loadedTail item tail seen)
      (loaded : s.memory.load .producer .head .acquire t = some (value, memory))
      (full : c.cap ≤ wrappingSub 64 tail value) :
      Does s (.pushLoadHead t) { s with memory := memory, producer := .idle }
        (some (.pushErr item))
  | check (item : T) (tail seen t value : Nat) (memory : RingMemory c T)
      (at_pc : s.producer = .loadedTail item tail seen)
      (loaded : s.memory.load .producer .head .acquire t = some (value, memory))
      (room : ¬c.cap ≤ wrappingSub 64 tail value) :
      Does s (.pushLoadHead t)
        { s with memory := memory, producer := .checked item tail seen } none
  | write (item : T) (tail seen : Nat) (at_pc : s.producer = .checked item tail seen) :
      Does s .pushWrite
        { s with
          memory := s.memory.write .producer (c.index tail) item
          producer := .wrote item tail seen } none
  | publish (item : T) (tail seen : Nat) (at_pc : s.producer = .wrote item tail seen) :
      Does s .pushStore
        { s with
          memory := s.memory.store .producer .tail .release (wrappingAdd 64 tail 1)
          producer := .idle
          pushed := s.pushed ++ [item] } (some (.pushOk item))
  | loadHead (t value : Nat) (memory : RingMemory c T) (at_pc : s.consumer = .idle)
      (loaded : s.memory.load .consumer .head .relaxed t = some (value, memory)) :
      Does s (.popLoadHead t) { s with memory := memory, consumer := .loadedHead value } none
  | miss (head t : Nat) (memory : RingMemory c T) (at_pc : s.consumer = .loadedHead head)
      (loaded : s.memory.load .consumer .tail .acquire t = some (head, memory)) :
      Does s (.popLoadTail t) { s with memory := memory, consumer := .idle } (some .popNone)
  | find (head t value : Nat) (memory : RingMemory c T) (at_pc : s.consumer = .loadedHead head)
      (loaded : s.memory.load .consumer .tail .acquire t = some (value, memory))
      (different : head ≠ value) :
      Does s (.popLoadTail t) { s with memory := memory, consumer := .checked head } none
  | read (head : Nat) (garbage : T) (at_pc : s.consumer = .checked head) :
      Does s (.popRead garbage)
        { s with
          memory := (s.memory.read .consumer (c.index head) garbage).2
          consumer := .read head (s.memory.read .consumer (c.index head) garbage).1 } none
  | release (head : Nat) (item : T) (at_pc : s.consumer = .read head item) :
      Does s .popStore
        { s with
          memory := s.memory.store .consumer .head .release (wrappingAdd 64 head 1)
          consumer := .idle
          popped := s.popped ++ [item] } (some (.popSome item))

/-- An access that is taken does one of these. -/
theorem does_of_access {s next : WeakRing c T} {label : WeakAccess T}
    {answer : Option (RingAnswer T)} (taken : s.access label = some (next, answer)) :
    s.Does label next answer := by
  cases label with
  | pushLoadTail item t =>
      cases at_pc : s.producer with
      | idle =>
          simp only [access, at_pc] at taken
          rcases Option.map_eq_some_iff.mp taken with ⟨⟨value, memory⟩, loaded, same⟩
          cases same
          exact .loadTail item t value memory at_pc loaded
      | _ =>
          simp only [access, at_pc] at taken
          cases taken
  | pushLoadHead t =>
      cases at_pc : s.producer with
      | loadedTail item tail seen =>
          simp only [access, at_pc] at taken
          rcases Option.map_eq_some_iff.mp taken with ⟨⟨value, memory⟩, loaded, same⟩
          by_cases full : c.cap ≤ wrappingSub 64 tail value
          · rw [if_pos full] at same
            cases same
            exact .refuse item tail seen t value memory at_pc loaded full
          · rw [if_neg full] at same
            cases same
            exact .check item tail seen t value memory at_pc loaded full
      | _ =>
          simp only [access, at_pc] at taken
          cases taken
  | pushWrite =>
      cases at_pc : s.producer with
      | checked item tail seen =>
          simp only [access, at_pc] at taken
          cases taken
          exact .write item tail seen at_pc
      | _ =>
          simp only [access, at_pc] at taken
          cases taken
  | pushStore =>
      cases at_pc : s.producer with
      | wrote item tail seen =>
          simp only [access, at_pc] at taken
          cases taken
          exact .publish item tail seen at_pc
      | _ =>
          simp only [access, at_pc] at taken
          cases taken
  | popLoadHead t =>
      cases at_pc : s.consumer with
      | idle =>
          simp only [access, at_pc] at taken
          rcases Option.map_eq_some_iff.mp taken with ⟨⟨value, memory⟩, loaded, same⟩
          cases same
          exact .loadHead t value memory at_pc loaded
      | _ =>
          simp only [access, at_pc] at taken
          cases taken
  | popLoadTail t =>
      cases at_pc : s.consumer with
      | loadedHead head =>
          simp only [access, at_pc] at taken
          rcases Option.map_eq_some_iff.mp taken with ⟨⟨value, memory⟩, loaded, same⟩
          by_cases empty : head = value
          · rw [if_pos empty] at same
            cases same
            exact .miss head t memory at_pc (empty ▸ loaded)
          · rw [if_neg empty] at same
            cases same
            exact .find head t value memory at_pc loaded empty
      | _ =>
          simp only [access, at_pc] at taken
          cases taken
  | popRead garbage =>
      cases at_pc : s.consumer with
      | checked head =>
          simp only [access, at_pc] at taken
          cases taken
          exact .read head garbage at_pc
      | _ =>
          simp only [access, at_pc] at taken
          cases taken
  | popStore =>
      cases at_pc : s.consumer with
      | read head item =>
          simp only [access, at_pc] at taken
          cases taken
          exact .release head item at_pc
      | _ =>
          simp only [access, at_pc] at taken
          cases taken

/-- How often each counter has been stored. -/
def count (s : WeakRing c T) : Counter → Nat
  | .head => s.popped.length
  | .tail => s.pushed.length

end WeakRing

def weakStep {c : RingCapacity} {T : Type*} (s : WeakRing c T) (label : WeakAccess T) :
    Option (WeakRing c T) :=
  (s.access label).map Prod.fst

/-- A memory in which both counters hold `base`, with arbitrary slots.  Nobody has accessed a
slot yet. -/
def freshMemory (c : RingCapacity) {T : Type*} (base : Nat) (fill : Fin c.cap → T) :
    RingMemory c T where
  history := fun _ => [⟨base, View.bottom⟩]
  cells := fun l => ⟨fill l, none, fun _ => 0⟩
  views := fun _ => View.bottom

/-- The ring whose counters both start at `base`. -/
def weakSystem (c : RingCapacity) (T : Type*) (base : Nat) :
    System (WeakRing c T) (WeakAccess T) :=
  .ofStep (fun s => base < 2 ^ 64 ∧ (∃ fill, s.memory = freshMemory c base fill) ∧
    s.producer = .idle ∧ s.consumer = .idle ∧ s.pushed = [] ∧ s.popped = []) weakStep

/-- An idle ring whose slots all hold `fill`. -/
def weakStart (c : RingCapacity) {T : Type*} (base : Nat) (fill : T) : WeakRing c T where
  memory := freshMemory c base (fun _ => fill)
  producer := .idle
  consumer := .idle
  pushed := []
  popped := []

theorem weakStart_reachable (c : RingCapacity) {T : Type*} {base : Nat} (word : base < 2 ^ 64)
    (fill : T) : (weakSystem c T base).Reachable (weakStart c base fill) :=
  .init ⟨word, ⟨fun _ => fill, rfl⟩, rfl, rfl, rfl, rfl⟩

/-! ## The counters -/

section Counters

variable {c : RingCapacity} {T : Type*} {base : Nat}

/-- Whoever has seen a counter knows of the accesses that it covers.  This is what release and
acquire are for. -/
def Informed (view : View Counter Role) : Prop := ∀ a, view.stamp a ≤ view.clock a.role

/-- Every counter has been stored `count` times, each time increased by one.  The value of a
message is told by its position. -/
structure Counters (base : Nat) (count : Counter → Nat) (m : RingMemory c T) : Prop where
  coherent : m.Coherent
  length : ∀ a, (m.history a).length = count a + 1
  value : ∀ (a : Counter) (t : Nat) message, (m.history a)[t]? = some message →
    message.value = (base + t) % 2 ^ 64
  covers : ∀ (a : Counter) (t : Nat) message, (m.history a)[t]? = some message →
    t ≤ message.view.clock a.role ∧ Informed message.view
  informed : ∀ p, Informed (m.views p)
  newest : ∀ a, (m.views a.role).stamp a = count a

namespace Counters

variable {count : Counter → Nat} {m next : RingMemory c T}

theorem stamp_le (counters : Counters base count m) (p : Role) (a : Counter) :
    (m.views p).stamp a ≤ count a := by
  have inside := (counters.coherent.parties p).stamp a
  rw [counters.length] at inside
  omega

/-- What a load tells its party.  A load of the other party's counter has to acquire. -/
structure Loaded (m next : RingMemory c T) (p : Role) (a : Counter) (t : Nat) : Prop where
  recent : (m.views p).stamp a ≤ t
  seen : t ≤ (next.views p).stamp a
  stamp : ∀ b, (m.views p).stamp b ≤ (next.views p).stamp b
  own : (next.views p).clock p = (m.views p).clock p
  clock : ∀ q, (m.views p).clock q ≤ (next.views p).clock q
  others : ∀ q, q ≠ p → next.views q = m.views q
  cells : next.cells = m.cells

/-- A load of a counter keeps these facts, and tells its party what the message carries. -/
theorem load (counters : Counters base count m) {p : Role} {a : Counter} {order : LoadOrder}
    {t value : Nat} (loaded : m.load p a order t = some (value, next))
    (ordered : order = .acquire ∨ p = a.role) :
    Counters base count next ∧ Loaded m next p a t ∧ t ≤ count a ∧
      value = (base + t) % 2 ^ 64 := by
  have coherent := counters.coherent.load loaded
  rcases m.load_eq_some.mp loaded with ⟨message, recent, found, rfl, rfl⟩
  rcases List.getElem?_eq_some_iff.mp found with ⟨inside, _⟩
  rw [counters.length] at inside
  have covers := counters.covers a t message found
  have founded := counters.coherent.messages a message (List.mem_of_getElem? found)
  have knowledge : Loaded m (m.setView p
      (((m.views p).witness a t).join (order.gain message.view))) p a t := by
    refine ⟨recent, ?_, ?_, ?_, ?_, fun q different => m.setView_of_ne _ different, rfl⟩
    · rw [Memory.setView_self, View.join_stamp, View.witness_stamp_self]
      exact (le_max_right _ _).trans (le_max_left _ _)
    · intro b
      rw [Memory.setView_self, View.join_stamp]
      refine le_trans ?_ (le_max_left _ _)
      by_cases same : b = a
      · subst same
        rw [View.witness_stamp_self]
        exact le_max_left _ _
      · rw [View.witness_stamp_of_ne _ _ same]
    · rw [Memory.setView_self, View.join_clock, View.witness_clock]
      apply max_eq_left
      cases order with
      | relaxed => exact Nat.zero_le _
      | acquire => exact founded.clock p
    · intro q
      rw [Memory.setView_self, View.join_clock]
      exact le_max_left _ _
  refine ⟨⟨coherent, counters.length, counters.value, counters.covers, ?_, ?_⟩, knowledge,
    by omega, counters.value a t message found⟩
  · intro q
    by_cases same : q = p
    · subst same
      intro b
      rw [Memory.setView_self, View.join_stamp, View.join_clock, View.witness_clock]
      have old : (m.views q).stamp b ≤
          max ((m.views q).clock b.role) ((order.gain message.view).clock b.role) :=
        (counters.informed q b).trans (le_max_left _ _)
      refine max_le ?_ ?_
      · by_cases equal : b = a
        · subst equal
          rw [View.witness_stamp_self]
          refine max_le old ?_
          rcases ordered with rfl | rfl
          · exact covers.1.trans (le_max_right _ _)
          · rw [← counters.newest] at inside
            exact (Nat.le_of_lt_succ inside).trans old
        · rw [View.witness_stamp_of_ne _ _ equal]
          exact old
      · refine le_trans ?_ (le_max_right _ _)
        cases order with
        | relaxed => exact Nat.le_refl _
        | acquire => exact covers.2 b
    · rw [Memory.setView_of_ne _ _ same]
      exact counters.informed q
  · intro b
    by_cases same : b.role = p
    · have upper := (coherent.parties p).stamp b
      have lower := knowledge.stamp b
      change _ < (m.history b).length at upper
      rw [counters.length] at upper
      rw [← same] at upper lower ⊢
      rw [counters.newest] at lower
      omega
    · rw [Memory.setView_of_ne _ _ same]
      exact counters.newest b

/-- A store of the next value, by the party of the counter, which has made the accesses
that the new value covers. -/
theorem store (counters : Counters base count m) (a : Counter) {value : Nat}
    (increased : value = (base + (count a + 1)) % 2 ^ 64)
    (accesses : count a + 1 ≤ (m.views a.role).clock a.role) :
    Counters base (Function.update count a (count a + 1)) (m.store a.role a .release value) := by
  have coherent := counters.coherent.store a.role a .release value
  have length := counters.length a
  have view_eq : (m.store a.role a .release value).views =
      Function.update m.views a.role ((m.views a.role).witness a (count a + 1)) := by
    rw [← length]
    rfl
  have history_eq : (m.store a.role a .release value).history = Function.update m.history a
      (m.history a ++ [⟨value, (m.views a.role).witness a (count a + 1)⟩]) := by
    rw [← length]
    rfl
  have informed : Informed ((m.views a.role).witness a (count a + 1)) := by
    intro b
    rw [View.witness_clock]
    by_cases same : b = a
    · subst same
      rw [View.witness_stamp_self]
      exact max_le (counters.informed b.role b) accesses
    · rw [View.witness_stamp_of_ne _ _ same]
      exact counters.informed a.role b
  have messages : ∀ (b : Counter) (t : Nat) message,
      ((m.store a.role a .release value).history b)[t]? = some message →
      (m.history b)[t]? = some message ∨
        (b = a ∧ t = count a + 1 ∧ message = ⟨value, (m.views a.role).witness a (count a + 1)⟩) := by
    intro b t message found
    rw [history_eq] at found
    by_cases same : b = a
    · subst same
      rw [Function.update_self] at found
      rcases Nat.lt_or_ge t (m.history b).length with old | new
      · rw [List.getElem?_append_left old] at found
        exact Or.inl found
      · rw [List.getElem?_append_right new] at found
        rcases List.getElem?_eq_some_iff.mp found with ⟨inside, equal⟩
        rw [List.length_singleton] at inside
        have last : t = (m.history b).length := by omega
        subst last
        refine Or.inr ⟨rfl, length, ?_⟩
        rw [← equal]
        simp
    · rw [Function.update_of_ne same] at found
      exact Or.inl found
  refine ⟨coherent, ?_, ?_, ?_, ?_, ?_⟩
  · intro b
    rw [history_eq]
    by_cases same : b = a
    · subst same
      rw [Function.update_self, Function.update_self, List.length_append, length]
      rfl
    · rw [Function.update_of_ne same, Function.update_of_ne same]
      exact counters.length b
  · intro b t message found
    rcases messages b t message found with old | ⟨rfl, rfl, rfl⟩
    · exact counters.value b t message old
    · exact increased
  · intro b t message found
    rcases messages b t message found with old | ⟨rfl, rfl, rfl⟩
    · exact counters.covers b t message old
    · exact ⟨accesses, informed⟩
  · intro q
    rw [view_eq]
    by_cases same : q = a.role
    · subst same
      rw [Function.update_self]
      exact informed
    · rw [Function.update_of_ne same]
      exact counters.informed q
  · intro b
    rw [view_eq]
    by_cases same : b = a
    · subst same
      rw [Function.update_self, Function.update_self, View.witness_stamp_self, counters.newest]
      exact max_eq_right (Nat.le_succ _)
    · rw [Function.update_of_ne (fun equal => same (Counter.role_injective equal)),
        Function.update_of_ne same]
      exact counters.newest b

/-- An access to a slot leaves the counters alone. -/
theorem tick (counters : Counters base count m) {p : Role} (history : next.history = m.history)
    (views : next.views = (m.setView p ((m.views p).tick p)).views) :
    Counters base count next := by
  have stamp : ∀ q, (next.views q).stamp = (m.views q).stamp := by
    intro q
    rw [views]
    by_cases same : q = p
    · subst same
      rw [Memory.setView_self, View.tick_stamp]
    · rw [Memory.setView_of_ne _ _ same]
  have own : (m.views p).clock p ≤ ((m.views p).tick p).clock p := by
    rw [View.tick_clock_self]
    exact Nat.le_succ _
  have clock : ∀ q r, (m.views q).clock r ≤ (next.views q).clock r := by
    intro q r
    rw [views]
    by_cases same : q = p
    · subst same
      rw [Memory.setView_self]
      by_cases equal : r = q
      · subst equal
        exact own
      · rw [View.tick_clock_of_ne _ equal]
    · rw [Memory.setView_of_ne _ _ same]
  refine ⟨counters.coherent.tick history views, ?_, ?_, ?_, ?_, ?_⟩
  · rw [history]
    exact counters.length
  · rw [history]
    exact counters.value
  · rw [history]
    exact counters.covers
  · intro q b
    rw [stamp]
    exact (counters.informed q b).trans (clock q _)
  · intro b
    rw [stamp]
    exact counters.newest b

theorem fresh {base : Nat} (word : base < 2 ^ 64) (fill : Fin c.cap → T) :
    Counters base (fun _ => 0) (freshMemory c base fill) where
  coherent := by
    have founded : (freshMemory c base fill).Founded View.bottom :=
      Memory.founded_bottom (fun _ => List.cons_ne_nil _ _)
    refine ⟨fun _ => founded, fun _ message member => ?_⟩
    rw [List.mem_singleton.mp member]
    exact founded
  length := fun _ => rfl
  value := by
    intro a t message found
    rcases List.getElem?_eq_some_iff.mp found with ⟨inside, rfl⟩
    have first : t = 0 := Nat.lt_one_iff.mp inside
    subst first
    exact (Nat.mod_eq_of_lt word).symm
  covers := by
    intro a t message found
    rcases List.getElem?_eq_some_iff.mp found with ⟨inside, rfl⟩
    have first : t = 0 := Nat.lt_one_iff.mp inside
    subst first
    exact ⟨Nat.le_refl 0, fun _ => Nat.le_refl 0⟩
  informed := fun _ _ => Nat.le_refl 0
  newest := fun _ => rfl

end Counters

end Counters

end Control
end Rfofs
