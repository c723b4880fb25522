import Mathlib

namespace Rfofs
namespace Foundation

/-!
# Release and acquire

A shared memory in which a load may return an old value.  An atomic location keeps all
messages that were stored to it; a party may load any message that is not older than
the newest one it has seen there.  A release store attaches the view of its party to
the message, and an acquire load joins the view of the message that it reads.  Every
location has one party that stores to it, so a store appends to the messages.

Plain locations are not synchronised.  Each party counts its plain accesses, and a
location remembers the last write and the last reads by these counts.  An access races
unless its party knows of them through its view.  A read that races may return
anything; what a write does that races is left open, so a development has to show that
none is ever about to happen.
-/

variable {A P L V W : Type*}

/-- What a party knows: the newest message seen at each atomic location, and how many of
the plain accesses of each party. -/
@[ext] structure View (A P : Type*) where
  stamp : A → Nat
  clock : P → Nat

/-- A value stored to an atomic location, with the view that it carries. -/
structure Message (A P V : Type*) where
  value : V
  view : View A P

/-- A plain location: its value, its last write and the last reads. -/
structure Cell (P W : Type*) where
  value : W
  writer : Option (P × Nat)
  readers : P → Nat

/-- The histories of the atomic locations, the plain locations, and the views of the parties. -/
structure Memory (A P L V W : Type*) where
  history : A → List (Message A P V)
  cells : L → Cell P W
  views : P → View A P

/-- Only an acquiring load takes the view of its message. -/
inductive LoadOrder where
  | relaxed
  | acquire

/-- Only a releasing store attaches the view of its party. -/
inductive StoreOrder where
  | relaxed
  | release

namespace View

def bottom : View A P := ⟨fun _ => 0, fun _ => 0⟩

def join (view other : View A P) : View A P :=
  ⟨view.stamp ⊔ other.stamp, view.clock ⊔ other.clock⟩

/-- A party that has seen the message `t` at a location.  It will not read an older one there. -/
def witness [DecidableEq A] (view : View A P) (a : A) (t : Nat) : View A P :=
  { view with stamp := Function.update view.stamp a (max (view.stamp a) t) }

/-- A party that makes a plain access of its own. -/
def tick [DecidableEq P] (view : View A P) (p : P) : View A P :=
  { view with clock := Function.update view.clock p (view.clock p + 1) }

/-- The access is known: it happened before. -/
def Knows (view : View A P) (epoch : P × Nat) : Prop := epoch.2 ≤ view.clock epoch.1

instance (view : View A P) (epoch : P × Nat) : Decidable (view.Knows epoch) :=
  inferInstanceAs (Decidable (_ ≤ _))

@[simp] theorem join_stamp (view other : View A P) (a : A) :
    (view.join other).stamp a = max (view.stamp a) (other.stamp a) := rfl

@[simp] theorem join_clock (view other : View A P) (p : P) :
    (view.join other).clock p = max (view.clock p) (other.clock p) := rfl

section Atomic

variable [DecidableEq A] (view : View A P) (a : A) (t : Nat)

@[simp] theorem witness_clock : (view.witness a t).clock = view.clock := rfl

@[simp] theorem witness_stamp_self : (view.witness a t).stamp a = max (view.stamp a) t :=
  Function.update_self ..

theorem witness_stamp_of_ne {a b : A} (different : b ≠ a) :
    (view.witness a t).stamp b = view.stamp b :=
  Function.update_of_ne different ..

theorem stamp_le_witness (b : A) : view.stamp b ≤ (view.witness a t).stamp b := by
  by_cases same : b = a
  · subst same
    rw [witness_stamp_self]
    exact le_max_left _ _
  · rw [witness_stamp_of_ne _ _ same]

end Atomic

section Plain

variable [DecidableEq P] (view : View A P) (p : P)

@[simp] theorem tick_stamp : (view.tick p).stamp = view.stamp := rfl

@[simp] theorem tick_clock_self : (view.tick p).clock p = view.clock p + 1 :=
  Function.update_self ..

theorem tick_clock_of_ne {p q : P} (different : q ≠ p) : (view.tick p).clock q = view.clock q :=
  Function.update_of_ne different ..

end Plain

end View

/-- What a load takes from the message that it reads. -/
def LoadOrder.gain (order : LoadOrder) (view : View A P) : View A P :=
  match order with
  | .relaxed => View.bottom
  | .acquire => view

/-- What a store attaches to its message. -/
def StoreOrder.attach [DecidableEq A] (order : StoreOrder) (view : View A P) (a : A) (t : Nat) :
    View A P :=
  match order with
  | .relaxed => View.bottom.witness a t
  | .release => view

namespace Memory

section Accesses

variable [DecidableEq P] (m : Memory A P L V W)

/-- Give a party another view. -/
def setView (p : P) (view : View A P) : Memory A P L V W :=
  { m with views := Function.update m.views p view }

@[simp] theorem setView_self (p : P) (view : View A P) : (m.setView p view).views p = view :=
  Function.update_self ..

theorem setView_of_ne {p q : P} (view : View A P) (different : q ≠ p) :
    (m.setView p view).views q = m.views q :=
  Function.update_of_ne different ..

/-- A party that knows of no fewer accesses of its own. -/
theorem setView_clock {p : P} {view : View A P} (clock : (m.views p).clock p ≤ view.clock p)
    (q : P) : (m.views q).clock q ≤ ((m.setView p view).views q).clock q := by
  by_cases same : q = p
  · subst same
    rw [setView_self]
    exact clock
  · rw [setView_of_ne _ _ same]

section Atomic

variable [DecidableEq A]

/-- Load the message `t` of a location, if the party has not seen a newer one. -/
def load (p : P) (a : A) (order : LoadOrder) (t : Nat) : Option (V × Memory A P L V W) :=
  if (m.views p).stamp a ≤ t then
    ((m.history a)[t]?).map (fun message => (message.value,
      m.setView p (((m.views p).witness a t).join (order.gain message.view))))
  else
    none

/-- Add a message to a location. -/
def append (a : A) (message : Message A P V) : Memory A P L V W :=
  { m with history := Function.update m.history a (m.history a ++ [message]) }

/-- Store to a location.  The message is the newest there. -/
def store (p : P) (a : A) (order : StoreOrder) (value : V) : Memory A P L V W :=
  let t := (m.history a).length
  let view := (m.views p).witness a t
  (m.append a ⟨value, order.attach view a t⟩).setView p view

theorem load_eq_some {p : P} {a : A} {order : LoadOrder} {t : Nat} {value : V}
    {next : Memory A P L V W} :
    m.load p a order t = some (value, next) ↔ ∃ message, (m.views p).stamp a ≤ t ∧
      (m.history a)[t]? = some message ∧ message.value = value ∧
      next = m.setView p (((m.views p).witness a t).join (order.gain message.view)) := by
  unfold load
  constructor
  · intro loaded
    split at loaded
    · rename_i recent
      rcases Option.map_eq_some_iff.mp loaded with ⟨message, found, same⟩
      cases same
      exact ⟨message, recent, found, rfl, rfl⟩
    · cases loaded
  · rintro ⟨message, recent, found, rfl, rfl⟩
    rw [if_pos recent, found, Option.map_some]

omit [DecidableEq P] in
@[simp] theorem append_self (a : A) (message : Message A P V) :
    (m.append a message).history a = m.history a ++ [message] :=
  Function.update_self ..

omit [DecidableEq P] in
theorem append_of_ne {a b : A} (message : Message A P V) (different : b ≠ a) :
    (m.append a message).history b = m.history b :=
  Function.update_of_ne different ..

omit [DecidableEq P] in
/-- The messages of a location after one more. -/
theorem getElem?_append {a b : A} {message found : Message A P V} {t : Nat}
    (listed : ((m.append a message).history b)[t]? = some found) :
    (m.history b)[t]? = some found ∨
      (b = a ∧ t = (m.history a).length ∧ found = message) := by
  by_cases same : b = a
  · subst same
    rw [append_self] at listed
    rcases Nat.lt_or_ge t (m.history b).length with old | new
    · rw [List.getElem?_append_left old] at listed
      exact Or.inl listed
    · rw [List.getElem?_append_right new] at listed
      rcases List.getElem?_eq_some_iff.mp listed with ⟨inside, equal⟩
      rw [List.length_singleton] at inside
      exact Or.inr ⟨rfl, by omega, by rw [← equal, List.getElem_singleton]⟩
  · rw [append_of_ne _ _ same] at listed
    exact Or.inl listed

theorem load_eq_self {p : P} {a : A} {order : LoadOrder} {t : Nat} {value : V}
    {next : Memory A P L V W} (loaded : m.load p a order t = some (value, next)) :
    next.history = m.history ∧ next.cells = m.cells := by
  rcases m.load_eq_some.mp loaded with ⟨_, _, _, _, rfl⟩
  exact ⟨rfl, rfl⟩

/-- A load takes nothing from what anyone has seen. -/
theorem stamp_le_load {p : P} {a : A} {order : LoadOrder} {t : Nat} {value : V}
    {next : Memory A P L V W} (loaded : m.load p a order t = some (value, next)) (q : P) (b : A) :
    (m.views q).stamp b ≤ (next.views q).stamp b := by
  rcases m.load_eq_some.mp loaded with ⟨message, _, _, _, rfl⟩
  by_cases same : q = p
  · subst same
    rw [setView_self, View.join_stamp]
    exact (View.stamp_le_witness _ a t b).trans (le_max_left _ _)
  · rw [setView_of_ne _ _ same]

theorem stamp_le_store (p : P) (a : A) (order : StoreOrder) (value : V) (q : P) (b : A) :
    (m.views q).stamp b ≤ ((m.store p a order value).views q).stamp b := by
  change _ ≤ ((((m.append a _).setView p _).views q).stamp b)
  by_cases same : q = p
  · subst same
    rw [setView_self]
    exact View.stamp_le_witness _ a _ b
  · rw [setView_of_ne _ _ same]
    exact Nat.le_refl _

end Atomic

section Plain

variable [DecidableEq L]

/-- The party knows of the last write. -/
def ReadSafe (p : P) (l : L) : Prop := ∀ epoch ∈ (m.cells l).writer, (m.views p).Knows epoch

instance (p : P) (l : L) : Decidable (m.ReadSafe p l) :=
  inferInstanceAs (Decidable (∀ epoch ∈ (m.cells l).writer, _))

/-- The party knows of the last write and of the last reads. -/
def WriteSafe (p : P) (l : L) : Prop :=
  m.ReadSafe p l ∧ ∀ q, (m.views p).Knows (q, (m.cells l).readers q)

def setCell (l : L) (cell : Cell P W) : Memory A P L V W :=
  { m with cells := Function.update m.cells l cell }

/-- A plain read.  A read that races returns `garbage`. -/
def read (p : P) (l : L) (garbage : W) : W × Memory A P L V W :=
  let cell := m.cells l
  let epoch := (m.views p).clock p + 1
  (if m.ReadSafe p l then cell.value else garbage,
    (m.setCell l { cell with readers := Function.update cell.readers p epoch }).setView p
      ((m.views p).tick p))

/-- A plain write. -/
def write (p : P) (l : L) (value : W) : Memory A P L V W :=
  let epoch := (m.views p).clock p + 1
  (m.setCell l { m.cells l with value := value, writer := some (p, epoch) }).setView p
    ((m.views p).tick p)

end Plain

end Accesses

/-! ## Coherence -/

section Coherence

variable (m : Memory A P L V W)

/-- A view refers to messages that exist, and to accesses that their party has made. -/
structure Founded (view : View A P) : Prop where
  stamp : ∀ a, view.stamp a < (m.history a).length
  clock : ∀ q, view.clock q ≤ (m.views q).clock q

/-- All views are founded, those of the parties and those of the messages. -/
structure Coherent : Prop where
  parties : ∀ p, m.Founded (m.views p)
  messages : ∀ a, ∀ message ∈ m.history a, m.Founded message.view

variable {m}

/-- Views stay founded while the memory grows. -/
theorem Founded.mono {next : Memory A P L V W} {view : View A P} (founded : m.Founded view)
    (history : ∀ a, (m.history a).length ≤ (next.history a).length)
    (clock : ∀ q, (m.views q).clock q ≤ (next.views q).clock q) : next.Founded view :=
  ⟨fun a => (founded.stamp a).trans_le (history a), fun q => (founded.clock q).trans (clock q)⟩

theorem Founded.join {view other : View A P} (founded : m.Founded view)
    (otherFounded : m.Founded other) : m.Founded (view.join other) :=
  ⟨fun a => max_lt (founded.stamp a) (otherFounded.stamp a),
    fun q => max_le (founded.clock q) (otherFounded.clock q)⟩

theorem Founded.witness [DecidableEq A] {view : View A P} (founded : m.Founded view) {a : A} {t : Nat}
    (inside : t < (m.history a).length) : m.Founded (view.witness a t) where
  stamp := by
    intro b
    by_cases same : b = a
    · subst same
      rw [View.witness_stamp_self]
      exact max_lt (founded.stamp b) inside
    · rw [View.witness_stamp_of_ne _ _ same]
      exact founded.stamp b
  clock := founded.clock

theorem founded_bottom (stored : ∀ a, m.history a ≠ []) : m.Founded View.bottom :=
  ⟨fun a => List.length_pos_iff.mpr (stored a), fun _ => Nat.zero_le _⟩

namespace Coherent

theorem stored (coherent : m.Coherent) (p : P) (a : A) : m.history a ≠ [] :=
  List.length_pos_iff.mp ((Nat.zero_le _).trans_lt ((coherent.parties p).stamp a))

variable [DecidableEq P]

/-- A step that gives one party a founded view, with no smaller count of its own. -/
theorem update (coherent : m.Coherent) {next : Memory A P L V W} {p : P} {view : View A P}
    (history : ∀ a, (m.history a).length ≤ (next.history a).length)
    (views : next.views = (m.setView p view).views)
    (clock : (m.views p).clock p ≤ view.clock p) (founded : next.Founded view)
    (messages : ∀ a, ∀ message ∈ next.history a,
      message ∈ m.history a ∨ next.Founded message.view) : next.Coherent := by
  have clocks : ∀ q, (m.views q).clock q ≤ (next.views q).clock q := by
    rw [views]
    exact m.setView_clock clock
  constructor
  · intro q
    rw [views]
    by_cases same : q = p
    · subst same
      rw [setView_self]
      exact founded
    · rw [setView_of_ne _ _ same]
      exact (coherent.parties q).mono history clocks
  · intro a message member
    rcases messages a message member with old | new
    · exact (coherent.messages a message old).mono history clocks
    · exact new

theorem setView (coherent : m.Coherent) {p : P} {view : View A P} (founded : m.Founded view)
    (clock : (m.views p).clock p ≤ view.clock p) : (m.setView p view).Coherent :=
  coherent.update (fun _ => Nat.le_refl _) rfl clock
    (founded.mono (fun _ => Nat.le_refl _) (m.setView_clock clock))
    (fun _ _ member => Or.inl member)

section Atomic

variable [DecidableEq A]

theorem load (coherent : m.Coherent) {p : P} {a : A} {order : LoadOrder} {t : Nat} {value : V}
    {next : Memory A P L V W} (loaded : m.load p a order t = some (value, next)) :
    next.Coherent := by
  rcases m.load_eq_some.mp loaded with ⟨message, _, found, _, rfl⟩
  rcases List.getElem?_eq_some_iff.mp found with ⟨inside, _⟩
  have gained : m.Founded (order.gain message.view) := by
    cases order with
    | relaxed => exact founded_bottom (coherent.stored p)
    | acquire => exact coherent.messages a message (List.mem_of_getElem? found)
  exact coherent.setView (((coherent.parties p).witness inside).join gained) (le_max_left _ _)

theorem store (coherent : m.Coherent) (p : P) (a : A) (order : StoreOrder) (value : V) :
    (m.store p a order value).Coherent := by
  have inside : (m.history a).length < ((m.store p a order value).history a).length := by
    change _ < ((m.append a _).history a).length
    rw [append_self, List.length_append]
    exact Nat.lt_succ_self _
  have grown : ∀ b, (m.history b).length ≤ ((m.store p a order value).history b).length := by
    intro b
    by_cases same : b = a
    · subst same
      exact inside.le
    · change _ ≤ ((m.append a _).history b).length
      rw [append_of_ne _ _ same]
  have own : (m.views p).clock p ≤ ((m.views p).witness a (m.history a).length).clock p :=
    Nat.le_refl _
  have clocks := m.setView_clock own
  have founded : (m.store p a order value).Founded
      ((m.views p).witness a (m.history a).length) :=
    ((coherent.parties p).mono grown clocks).witness inside
  refine coherent.update (p := p) grown rfl (Nat.le_refl _) founded ?_
  intro b message member
  change message ∈ (m.append a _).history b at member
  by_cases same : b = a
  · subst same
    rw [append_self] at member
    rcases List.mem_append.mp member with old | new
    · exact Or.inl old
    · right
      rw [List.mem_singleton.mp new]
      cases order with
      | relaxed =>
          refine (founded_bottom (fun c => ?_)).witness inside
          exact List.length_pos_iff.mp
            ((List.length_pos_iff.mpr (coherent.stored p c)).trans_le (grown c))
      | release => exact founded
  · rw [append_of_ne _ _ same] at member
    exact Or.inl member

omit [DecidableEq P] in
/-- A message from elsewhere, with nothing attached. -/
theorem append (coherent : m.Coherent) (stored : ∀ a, m.history a ≠ []) (a : A) (value : V) :
    (m.append a ⟨value, View.bottom⟩).Coherent := by
  have grown : ∀ b, (m.history b).length ≤
      ((m.append a ⟨value, View.bottom⟩).history b).length := by
    intro b
    by_cases same : b = a
    · subst same
      rw [append_self, List.length_append]
      exact Nat.le_add_right _ _
    · rw [append_of_ne _ _ same]
  constructor
  · intro p
    exact (coherent.parties p).mono grown (fun _ => Nat.le_refl _)
  · intro b message member
    rcases List.mem_iff_getElem?.mp member with ⟨t, listed⟩
    rcases m.getElem?_append listed with old | ⟨_, _, rfl⟩
    · exact (coherent.messages b message (List.mem_of_getElem? old)).mono grown
        (fun _ => Nat.le_refl _)
    · refine founded_bottom (fun c => ?_)
      exact List.length_pos_iff.mp ((List.length_pos_iff.mpr (stored c)).trans_le (grown c))

end Atomic

/-- A plain access changes the clock of its party only. -/
theorem tick (coherent : m.Coherent) {next : Memory A P L V W} {p : P}
    (history : next.history = m.history)
    (views : next.views = (m.setView p ((m.views p).tick p)).views) : next.Coherent := by
  have own : (m.views p).clock p ≤ ((m.views p).tick p).clock p := by
    rw [View.tick_clock_self]
    exact Nat.le_succ _
  refine coherent.update (p := p) (fun a => le_of_eq (by rw [history])) views own ⟨?_, ?_⟩ ?_
  · intro a
    rw [history]
    exact (coherent.parties p).stamp a
  · intro q
    by_cases same : q = p
    · subst same
      rw [views, setView_self]
    · rw [View.tick_clock_of_ne _ same, views, setView_of_ne _ _ same]
      exact (coherent.parties p).clock q
  · intro a message member
    rw [history] at member
    exact Or.inl member

section Plain

variable [DecidableEq L]

theorem read (coherent : m.Coherent) (p : P) (l : L) (garbage : W) :
    (m.read p l garbage).2.Coherent :=
  coherent.tick rfl rfl

theorem write (coherent : m.Coherent) (p : P) (l : L) (value : W) :
    (m.write p l value).Coherent :=
  coherent.tick rfl rfl

end Plain

end Coherent

end Coherence

end Memory

end Foundation
end Rfofs
